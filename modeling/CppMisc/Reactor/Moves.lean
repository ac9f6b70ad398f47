import Mathlib.Tactic
import CppMisc.Reactor.Model

/-!
# What one step of the reactor changes

Everything the reactor knows about a descriptor is its table entry, its slot in the interest set and its
socket: its `Cell`. Each callback changes a single cell, its own or that of the connection it accepts, so
properties of the reactor are proved cell by cell. `Touches` says that one cell has changed and into what,
`CallbackMove` lists what a callback can do, and `step_event` reduces a round of the loop to at most one
callback: the two tests cannot both succeed, since a registered mask is `EPOLLIN` or `EPOLLOUT` alone.
-/

set_option autoImplicit false

namespace CppMisc.Reactor

open CppMisc.Library

/-- All that concerns one descriptor. -/
structure Cell where
  entry : NtyEvent
  reg : Option (Registration Nat)
  sock : Option Sock

def State.cell (s : State) (q : Nat) : Cell := ⟨s.table q, s.epoll q, s.socks q⟩

/-- From `s` to `t` at most the cell `q` has changed, and it is now `c`. -/
structure Touches (s t : State) (q : Nat) (c : Cell) : Prop where
  here : t.cell q = c
  elsewhere : ∀ q', q' ≠ q → t.cell q' = s.cell q'

/-- Two changes of the same cell, the second a function of the first. -/
theorem Touches.andThen {s t u : State} {q : Nat} {c : Cell} {f : Cell → Cell}
    (h : Touches s t q c) (h' : Touches t u q (f (t.cell q))) : Touches s u q (f c) := by
  constructor
  · rw [h'.here, h.here]
  · intro q' hq
    rw [h'.elsewhere q' hq, h.elsewhere q' hq]

/-! ## The operations on a cell -/

/-- `nty_event_set`. -/
def Cell.set (c : Cell) (p : Nat) (cb : Callback) : Cell :=
  { c with entry := { c.entry with fd := p, callback := cb, events := ⟨false, false⟩ } }

/-- `nty_event_add`. -/
def Cell.add (c : Cell) (p : Nat) (events : Mask) (ok : Bool) : Cell :=
  { entry := { c.entry with events := events, status := 1 }
    reg := ctlSlot (if c.entry.status = 1 then .mod else .add) c.reg ⟨events, p⟩ ok
    sock := c.sock }

/-- `nty_event_del`. -/
def Cell.del (c : Cell) (p : Nat) (ok : Bool) : Cell :=
  if c.entry.status ≠ 1 then c
  else
    { entry := { c.entry with status := 0 }
      reg := ctlSlot .del c.reg ⟨⟨false, false⟩, p⟩ ok
      sock := c.sock }

/-- `nty_event_set` and `nty_event_add`, which are always called together. -/
def Cell.rearm (c : Cell) (p : Nat) (cb : Callback) (events : Mask) (ok : Bool) : Cell :=
  (c.set p cb).add p events ok

/-- `recv` into the buffer. -/
def Cell.recv (c : Cell) (bs : List UInt8) : Cell :=
  { c with
    entry := { c.entry with buffer := c.entry.buffer.store 0 bs }
    sock := c.sock.map (Sock.receive bs) }

/-- `send` of the first bytes of the buffer. -/
def Cell.send (c : Cell) (n : Nat) : Cell :=
  { c with sock := c.sock.map (Sock.send (c.entry.buffer.load 0 n) c.entry.length) }

/-- The zero that `recv_cb` puts behind the data. -/
def Cell.terminate (c : Cell) (len : Nat) : Cell := { c with entry := c.entry.terminate len }

/-- The descriptor is given to a new socket. -/
def Cell.opened (c : Cell) (k : Sock) : Cell := { c with sock := some k }

/-- `close`. -/
def Cell.close (c : Cell) : Cell := { c with reg := none, sock := none }

section Operations

variable (s : State) (p q : Nat)

theorem touches_modify (f : NtyEvent → NtyEvent) :
    Touches s (s.modify p f) p { s.cell p with entry := f (s.table p) } := by
  constructor
  · simp [State.modify, State.cell]
  · intro q' hq
    simp [State.modify, State.cell, hq]

theorem touches_ntyEventSet (cb : Callback) :
    Touches s (ntyEventSet s p p cb) p ((s.cell p).set p cb) :=
  touches_modify s p _

variable {s p}

theorem touches_ntyEventAdd (h : (s.cell p).entry.fd = p) (events : Mask) (ok : Bool) :
    Touches s (ntyEventAdd s events p ok) p ((s.cell p).add p events ok) := by
  have hfd : (s.table p).fd = p := h
  constructor
  · simp [ntyEventAdd, State.modify, State.cell, Cell.add, hfd]
    rfl
  · intro q' hq
    simp [ntyEventAdd, State.modify, State.cell, hfd, hq, Interest.ctl_of_ne hq]

theorem touches_ntyEventDel (h : (s.cell p).entry.fd = p) (ok : Bool) :
    Touches s (ntyEventDel s p ok) p ((s.cell p).del p ok) := by
  have hfd : (s.table p).fd = p := h
  by_cases hstatus : (s.table p).status = 1
  · constructor
    · simp [ntyEventDel, State.modify, State.cell, Cell.del, hfd, hstatus]
    · intro q' hq
      simp [ntyEventDel, State.modify, State.cell, hfd, hstatus, hq, Interest.ctl_of_ne hq]
  · constructor
    · simp [ntyEventDel, State.cell, Cell.del, hstatus]
    · intro q' _
      simp [ntyEventDel, State.cell, hstatus]

variable (s p)

theorem touches_recv (bs : List UInt8) : Touches s (recv s p bs) p ((s.cell p).recv bs) := by
  constructor
  · simp [recv, State.modify, State.cell, Cell.recv]
  · intro q' hq
    simp [recv, State.modify, State.cell, hq]

theorem touches_send (n : Nat) : Touches s (send s p n) p ((s.cell p).send n) := by
  constructor
  · simp [send, State.cell, Cell.send]
  · intro q' hq
    simp [send, State.cell, hq]

theorem touches_close : Touches s (s.close p) p (s.cell p).close := by
  constructor
  · simp [State.close, State.cell, Cell.close]
  · intro q' hq
    simp [State.close, State.cell, hq, Interest.close_of_ne hq]

/-- A new socket. -/
theorem touches_sock (k : Sock) :
    Touches s { s with socks := Function.update s.socks p (some k) } p ((s.cell p).opened k) := by
  constructor
  · simp [State.cell, Cell.opened]
  · intro q' hq
    simp [State.cell, hq]

end Operations

@[simp] theorem Cell.del_fd (c : Cell) (p : Nat) (ok : Bool) : (c.del p ok).entry.fd = c.entry.fd := by
  unfold Cell.del
  split
  · rfl
  · rfl

theorem touches_enter (s : State) (p : Nat) (cb : Callback) (events : Mask) (ok : Bool) :
    Touches s (ntyEventAdd (ntyEventSet s p p cb) events p ok) p
      ((s.cell p).rearm p cb events ok) := by
  have hset := touches_ntyEventSet s p cb
  apply hset.andThen (f := fun c => c.add p events ok)
  apply touches_ntyEventAdd
  rw [hset.here]
  rfl

/-! ## Registered descriptors -/

/-- What is true of every registered descriptor, whatever the kernel refuses: it belongs to an open
socket, the registration points to its own entry, one direction is asked for, and for a listener that is
input, with the acceptor. -/
structure Cell.Sound (c : Cell) (q : Nat) : Prop where
  opened : c.reg ≠ none → c.sock ≠ none
  fd : c.reg ≠ none → c.entry.fd = q
  data : ∀ reg, c.reg = some reg → reg.data = q
  mask : ∀ reg, c.reg = some reg → reg.mask = .input ∨ reg.mask = .output
  listener : c.sock = some .listener → ∀ reg, c.reg = some reg →
    reg.mask = .input ∧ c.entry.callback = .acceptCb

def Sound (s : State) : Prop := ∀ q, (s.cell q).Sound q

theorem Cell.sound_of_none {c : Cell} (h : c.reg = none) (q : Nat) : c.Sound q := by
  constructor
  · exact fun hreg => absurd h hreg
  · exact fun hreg => absurd h hreg
  · intro reg hreg
    rw [h] at hreg
    cases hreg
  · intro reg hreg
    rw [h] at hreg
    cases hreg
  · intro _ reg hreg
    rw [h] at hreg
    cases hreg

theorem sound_init (table : Nat → NtyEvent) : Sound (ntyreactorInit table) :=
  fun q => Cell.sound_of_none rfl q

/-- A change of one cell keeps a property of all cells when the new cell has it. -/
theorem Touches.forall_cell {s t : State} {q : Nat} {c : Cell} {P : Nat → Cell → Prop}
    (h : Touches s t q c) (hs : ∀ q', P q' (s.cell q')) (hc : P q c) : ∀ q', P q' (t.cell q') := by
  intro q'
  by_cases hq : q' = q
  · rw [hq, h.here]
    exact hc
  · rw [h.elsewhere q' hq]
    exact hs q'

/-! ## What a callback can do -/

/-- The outcomes of the callback of the entry `fd`. -/
inductive CallbackMove (s : State) (fd : Nat) (r : Results) : State → Prop
  | refused (hcb : (s.table fd).callback = .acceptCb) (hr : r.accept = none) : CallbackMove s fd r s
  | left {t : State} {q : Nat} (hcb : (s.table fd).callback = .acceptCb) (hr : r.accept = some q)
      (hq : s.socks q = none) (hf : r.fcntl = false)
      (ht : Touches s t q ((s.cell q).opened (.accepted .fresh))) : CallbackMove s fd r t
  | accepted {t : State} {q : Nat} (hcb : (s.table fd).callback = .acceptCb) (hr : r.accept = some q)
      (hq : s.socks q = none) (hf : r.fcntl = true)
      (ht : Touches s t q (((s.cell q).opened (.accepted .fresh)).rearm q .recvCb .input r.add)) :
      CallbackMove s fd r t
  | recvEnd {t : State} {c : Cell} (hcb : (s.table fd).callback = .recvCb)
      (hr : ∀ bs, r.recv = some bs → bs = []) (ht : Touches s t fd c) (hreg : c.reg = none)
      (hsock : c.sock = none) : CallbackMove s fd r t
  | received {t : State} {bs : List UInt8} (hcb : (s.table fd).callback = .recvCb)
      (hr : r.recv = some bs) (hbs : bs ≠ []) (hlen : bs.length ≤ bufferLength)
      (ht : Touches s t fd
        (((((s.cell fd).recv bs).del fd r.del).terminate bs.length).rearm fd .sendCb .output r.add)) :
      CallbackMove s fd r t
  | sendEnd {t : State} {c : Cell} (hcb : (s.table fd).callback = .sendCb)
      (hr : ∀ n, r.send = some n → n = 0) (ht : Touches s t fd c) (hreg : c.reg = none)
      (hsock : c.sock = none) : CallbackMove s fd r t
  | sent {t : State} {n : Nat} (hcb : (s.table fd).callback = .sendCb) (hr : r.send = some n)
      (hn : n ≠ 0) (hlen : n ≤ (s.table fd).length)
      (ht : Touches s t fd ((((s.cell fd).send n).del fd r.del).rearm fd .recvCb .input r.add)) :
      CallbackMove s fd r t

section Callbacks

variable {s t : State} {fd : Nat} {r : Results}

/-- The end of a connection seen by `recv_cb`: `nty_event_del` and `close`. -/
theorem touches_recv_end (h : (s.table fd).fd = fd) :
    Touches s ((ntyEventDel s fd r.del).close ((ntyEventDel s fd r.del).table fd).fd) fd
      ((s.cell fd).del fd r.del).close := by
  have hdel := touches_ntyEventDel (s := s) h r.del
  have hfd : ((ntyEventDel s fd r.del).table fd).fd = fd := by
    have hentry := congrArg (fun c => c.entry.fd) hdel.here
    simp only [Cell.del_fd] at hentry
    exact hentry.trans h
  rw [hfd]
  exact hdel.andThen (f := Cell.close) (touches_close _ fd)

/-- The end of a connection seen by `send_cb`: `close` and `nty_event_del`. -/
theorem touches_send_end (h : (s.table fd).fd = fd) :
    Touches s (ntyEventDel (s.close (s.table fd).fd) fd r.del) fd
      ((s.cell fd).close.del fd r.del) := by
  rw [h]
  have hclose := touches_close s fd
  apply hclose.andThen (f := fun c => c.del fd r.del)
  apply touches_ntyEventDel
  rw [hclose.here]
  exact h

theorem Cell.close_del (c : Cell) (p : Nat) (ok : Bool) :
    (c.close.del p ok).reg = none ∧ (c.close.del p ok).sock = none := by
  unfold Cell.del
  split
  · exact ⟨rfl, rfl⟩
  · exact ⟨rfl, rfl⟩

theorem recvCb_move (h : (s.table fd).fd = fd) (hcb : (s.table fd).callback = .recvCb)
    (ht : recvCb s fd r = some t) : CallbackMove s fd r t := by
  unfold recvCb at ht
  split at ht
  next hr =>
    simp only [Option.some.injEq] at ht
    subst ht
    exact .recvEnd hcb (by simp [hr]) (touches_recv_end h) rfl rfl
  next bs hr =>
    by_cases hbs : bs = []
    · simp only [hbs, if_true, Option.some.injEq] at ht
      subst ht
      exact .recvEnd hcb (by simp [hr, hbs]) (touches_recv_end h) rfl rfl
    · by_cases hlen : bs.length ≤ bufferLength
      · simp only [hbs, hlen, if_true, if_false, Option.some.injEq] at ht
        subst ht
        apply CallbackMove.received hcb hr hbs hlen
        have hrecv := touches_recv s fd bs
        have hdel : Touches s (ntyEventDel (recv s fd bs) fd r.del) fd
            (((s.cell fd).recv bs).del fd r.del) := by
          apply hrecv.andThen (f := fun c => c.del fd r.del)
          apply touches_ntyEventDel
          rw [hrecv.here]
          exact h
        have hterm := hdel.andThen (f := fun c => c.terminate bs.length)
          (touches_modify _ fd (NtyEvent.terminate · bs.length))
        exact hterm.andThen (f := fun c => c.rearm fd .sendCb .output r.add)
          (touches_enter _ fd .sendCb .output r.add)
      · simp [hbs, hlen] at ht

theorem sendCb_move (h : (s.table fd).fd = fd) (hcb : (s.table fd).callback = .sendCb)
    (ht : sendCb s fd r = some t) : CallbackMove s fd r t := by
  obtain ⟨hreg, hsock⟩ := Cell.close_del (s.cell fd) fd r.del
  unfold sendCb at ht
  split at ht
  next hr =>
    simp only [Option.some.injEq] at ht
    subst ht
    exact .sendEnd hcb (by simp [hr]) (touches_send_end h) hreg hsock
  next n hr =>
    by_cases hn : n = 0
    · simp only [hn, if_true, Option.some.injEq] at ht
      subst ht
      exact .sendEnd hcb (by simp [hr, hn]) (touches_send_end h) hreg hsock
    · by_cases hlen : n ≤ (s.table fd).length
      · simp only [hn, hlen, if_true, if_false, Option.some.injEq] at ht
        subst ht
        apply CallbackMove.sent hcb hr hn hlen
        have hsend := touches_send s fd n
        have hdel : Touches s (ntyEventDel (send s fd n) fd r.del) fd
            (((s.cell fd).send n).del fd r.del) := by
          apply hsend.andThen (f := fun c => c.del fd r.del)
          apply touches_ntyEventDel
          rw [hsend.here]
          exact h
        exact hdel.andThen (f := fun c => c.rearm fd .recvCb .input r.add)
          (touches_enter _ fd .recvCb .input r.add)
      · simp [hn, hlen] at ht

theorem acceptCb_move (hcb : (s.table fd).callback = .acceptCb) (ht : acceptCb s r = some t) :
    CallbackMove s fd r t := by
  unfold acceptCb at ht
  split at ht
  next hr =>
    simp only [Option.some.injEq] at ht
    subst ht
    exact .refused hcb hr
  next q hr =>
    by_cases hq : s.socks q = none
    · have hsock := touches_sock s q (.accepted .fresh)
      cases hf : r.fcntl with
      | true =>
          simp only [hq, hf, if_true, Option.some.injEq] at ht
          subst ht
          apply CallbackMove.accepted hcb hr hq hf
          exact hsock.andThen (f := fun c => c.rearm q .recvCb .input r.add)
            (touches_enter _ q .recvCb .input r.add)
      | false =>
          simp only [hq, hf, if_true, Bool.false_eq_true, if_false, Option.some.injEq] at ht
          subst ht
          exact .left hcb hr hq hf hsock
    · simp [hq] at ht

/-- Every call of a callback is one of the listed outcomes. -/
theorem callback_move (h : (s.table fd).fd = fd) (ht : callback s fd r = some t) :
    CallbackMove s fd r t := by
  unfold callback at ht
  split at ht
  next hcb => exact acceptCb_move hcb ht
  next hcb =>
    rw [h] at ht
    exact recvCb_move h hcb ht
  next hcb =>
    rw [h] at ht
    exact sendCb_move h hcb ht

end Callbacks

/-! ## One round of the loop -/

/-- The test that succeeds in a round, with the results of the callback it calls. -/
def Fires (s : State) (fd : Nat) (rep : Report) (r₁ r₂ r : Results) : Prop :=
  (rep.epollin = true ∧ (s.table fd).events.epollin = true ∧ r = r₁) ∨
    (rep.epollout = true ∧ (s.table fd).events.epollout = true ∧ r = r₂)

/-- The two tests, when the second bit was not reported: the first one decides. -/
theorem tests_of_not_out {s t : State} {fd : Nat} {rep : Report} {r₁ r₂ : Results}
    (hno : rep.epollout = false)
    (h : ((testIn s fd rep r₁).bind fun s' => testOut s' fd rep r₂) = some t) :
    testIn s fd rep r₁ = some t := by
  obtain ⟨t', ht', hlast⟩ := Option.bind_eq_some_iff.1 h
  obtain rfl : t' = t := by simpa [testOut, hno] using hlast
  exact ht'

/-- The two tests, when the first bit was not reported: the second one decides. -/
theorem tests_of_not_in {s t : State} {fd : Nat} {rep : Report} {r₁ r₂ : Results}
    (hno : rep.epollin = false)
    (h : ((testIn s fd rep r₁).bind fun s' => testOut s' fd rep r₂) = some t) :
    testOut s fd rep r₂ = some t := by
  simpa [testIn, hno] using h

/-- What a test does is decided by the reported and the requested bit. -/
theorem of_test {s t : State} {fd : Nat} {r : Results} {bit wanted : Bool}
    (h : (if (bit && wanted) = true then callback s fd r else some s) = some t) :
    (bit = true ∧ wanted = true ∧ callback s fd r = some t) ∨
      (¬ (bit = true ∧ wanted = true) ∧ t = s) := by
  split at h
  next hfire =>
    obtain ⟨hbit, hwanted⟩ := Bool.and_eq_true_iff.1 hfire
    exact .inl ⟨hbit, hwanted, h⟩
  next hfire =>
    refine .inr ⟨?_, (Option.some.inj h).symm⟩
    simpa using hfire

/-- A round calls at most one callback, that of the entry of the reported descriptor. -/
theorem step_event {s t : State} {fd : Nat} {rep : Report} {r₁ r₂ : Results} (hs : Sound s)
    (h : step s (.event fd rep r₁ r₂) = some t) :
    ((∀ r, ¬ Fires s fd rep r₁ r₂ r) ∧ t = s) ∨
      ∃ r, Fires s fd rep r₁ r₂ r ∧ (∀ r', Fires s fd rep r₁ r₂ r' → r' = r) ∧
        s.epoll fd ≠ none ∧ CallbackMove s fd r t := by
  simp only [step] at h
  split at h
  next => cases h
  next reg hreg =>
    have hdata : reg.data = fd := (hs fd).data reg hreg
    have hfd : (s.table fd).fd = fd := (hs fd).fd (by simp [State.cell, hreg])
    have hsome : s.epoll fd ≠ none := by simp [hreg]
    by_cases hamong : rep.Among reg.mask
    · rw [if_pos hamong, hdata] at h
      obtain ⟨hin, hout⟩ := hamong
      rcases (hs fd).mask reg hreg with hmask | hmask
      · -- registered for input: the second test looks for a bit that was not reported
        have hno : rep.epollout = false := by simpa [hmask, Mask.input] using hout
        rcases of_test (tests_of_not_out hno h) with ⟨hrep, hev, hcall⟩ | ⟨hquiet, rfl⟩
        · refine .inr ⟨r₁, .inl ⟨hrep, hev, rfl⟩, ?_, hsome, callback_move hfd hcall⟩
          rintro r' (⟨_, _, hr⟩ | ⟨hrep', _, _⟩)
          · exact hr
          · rw [hno] at hrep'
            cases hrep'
        · refine .inl ⟨?_, rfl⟩
          rintro r (⟨hrep, hev, _⟩ | ⟨hrep, _, _⟩)
          · exact hquiet ⟨hrep, hev⟩
          · rw [hno] at hrep
            cases hrep
      · -- registered for output: the first test fails and the second decides
        have hno : rep.epollin = false := by simpa [hmask, Mask.output] using hin
        rcases of_test (tests_of_not_in hno h) with ⟨hrep, hev, hcall⟩ | ⟨hquiet, rfl⟩
        · refine .inr ⟨r₂, .inr ⟨hrep, hev, rfl⟩, ?_, hsome, callback_move hfd hcall⟩
          rintro r' (⟨hrep', _, _⟩ | ⟨_, _, hr⟩)
          · rw [hno] at hrep'
            cases hrep'
          · exact hr
        · refine .inl ⟨?_, rfl⟩
          rintro r (⟨hrep, _, _⟩ | ⟨hrep, hev, _⟩)
          · rw [hno] at hrep
            cases hrep
          · exact hquiet ⟨hrep, hev⟩
    · rw [if_neg hamong] at h
      cases h

/-! ## Soundness of the registrations -/

theorem Cell.del_sock (c : Cell) (p : Nat) (ok : Bool) : (c.del p ok).sock = c.sock := by
  unfold Cell.del
  split
  · rfl
  · rfl

theorem Cell.del_buffer (c : Cell) (p : Nat) (ok : Bool) :
    (c.del p ok).entry.buffer = c.entry.buffer := by
  unfold Cell.del
  split
  · rfl
  · rfl

/-- `nty_event_del` leaves the old registration or none. -/
theorem Cell.reg_of_del {c : Cell} {p : Nat} {ok : Bool} {reg : Registration Nat}
    (h : (c.del p ok).reg = some reg) : c.reg = some reg := by
  unfold Cell.del at h
  split at h
  · exact h
  · cases hreg : c.reg with
    | none => simp [hreg] at h
    | some q =>
        cases ok with
        | true => simp [hreg] at h
        | false => simpa [hreg] using h

/-- Entering a cell gives a sound one when what may be left of an older registration was sound. -/
theorem Cell.rearm_sound {c : Cell} {p : Nat} {cb : Callback} {events : Mask} {ok : Bool}
    (hopen : c.sock ≠ none) (hevents : events = .input ∨ events = .output)
    (hdata : ∀ reg, c.reg = some reg → reg.data = p)
    (hmask : ∀ reg, c.reg = some reg → reg.mask = .input ∨ reg.mask = .output)
    (hlistener : c.sock = some .listener →
      cb = .acceptCb ∧ events = .input ∧ ∀ reg, c.reg = some reg → reg.mask = .input) :
    (c.rearm p cb events ok).Sound p := by
  constructor
  · exact fun _ => hopen
  · exact fun _ => rfl
  · intro reg hreg
    rcases ctlSlot_eq_some hreg with hold | rfl
    · exact hdata reg hold
    · rfl
  · intro reg hreg
    rcases ctlSlot_eq_some hreg with hold | rfl
    · exact hmask reg hold
    · exact hevents
  · intro hsock reg hreg
    obtain ⟨hcb, hin, hold⟩ := hlistener hsock
    refine ⟨?_, hcb⟩
    rcases ctlSlot_eq_some hreg with hreg | rfl
    · exact hold reg hreg
    · exact hin

/-- The case of a connection: the socket is not a listener, and nothing new was registered since the
cell `c`. -/
theorem Cell.Sound.rearm {c d : Cell} {p : Nat} {cb : Callback} {events : Mask} {ok : Bool}
    (hc : c.Sound p) (hreg : ∀ reg, d.reg = some reg → c.reg = some reg) (hopen : d.sock ≠ none)
    (hsock : d.sock ≠ some .listener) (hevents : events = .input ∨ events = .output) :
    (d.rearm p cb events ok).Sound p := by
  apply Cell.rearm_sound hopen hevents
  · intro reg h
    exact hc.data reg (hreg reg h)
  · intro reg h
    exact hc.mask reg (hreg reg h)
  · exact fun h => absurd h hsock

/-- A registered entry that points to `recv_cb` or `send_cb` does not belong to a listener. -/
theorem Cell.Sound.not_listener {c : Cell} {q : Nat} (h : c.Sound q) (hreg : c.reg ≠ none)
    (hcb : c.entry.callback ≠ .acceptCb) : c.sock ≠ some .listener := by
  intro hsock
  obtain ⟨reg, hsome⟩ := Option.ne_none_iff_exists'.1 hreg
  exact hcb (h.listener hsock reg hsome).2

theorem Sock.map_ne_listener {x : Option Sock} {f : Sock → Sock} (hx : x ≠ some .listener)
    (hf : ∀ c, f (.accepted c) ≠ .listener) : x.map f ≠ some .listener := by
  cases x with
  | none => simp
  | some k =>
      cases k with
      | listener => exact absurd rfl hx
      | accepted c => simpa using hf c

theorem Touches.sound {s t : State} {q : Nat} {c : Cell} (h : Touches s t q c) (hs : Sound s)
    (hc : c.Sound q) : Sound t :=
  h.forall_cell (P := fun q c => c.Sound q) hs hc

theorem callbackMove_sound {s t : State} {fd : Nat} {r : Results} (hs : Sound s)
    (hreg : s.epoll fd ≠ none) (h : CallbackMove s fd r t) : Sound t := by
  have hfd := hs fd
  cases h with
  | refused hcb hr => exact hs
  | left hcb hr hq hf ht =>
      -- the descriptor was not open, so it was not registered
      apply ht.sound hs
      apply Cell.sound_of_none
      by_contra hne
      exact (hs _).opened hne hq
  | accepted hcb hr hq hf ht =>
      apply ht.sound hs
      exact (hs _).rearm (fun reg h => h) (by simp [Cell.opened]) (by simp [Cell.opened]) (.inl rfl)
  | recvEnd hcb hr ht hnone hsock =>
      apply ht.sound hs
      exact Cell.sound_of_none hnone fd
  | @received t bs hcb hr hbs hlen ht =>
      apply ht.sound hs
      have hsock := hfd.not_listener hreg (by simp [State.cell, hcb])
      apply hfd.rearm
      · intro reg hold
        exact Cell.reg_of_del (c := (s.cell fd).recv bs) hold
      · simpa [Cell.terminate, Cell.del_sock, Cell.recv] using hfd.opened hreg
      · simpa [Cell.terminate, Cell.del_sock, Cell.recv]
          using Sock.map_ne_listener (f := Sock.receive bs) hsock (by simp [Sock.receive])
      · exact .inr rfl
  | sendEnd hcb hr ht hnone hsock =>
      apply ht.sound hs
      exact Cell.sound_of_none hnone fd
  | @sent t n hcb hr hn hlen ht =>
      apply ht.sound hs
      have hsock := hfd.not_listener hreg (by simp [State.cell, hcb])
      apply hfd.rearm
      · intro reg hold
        exact Cell.reg_of_del (c := (s.cell fd).send n) hold
      · simpa [Cell.del_sock, Cell.send] using hfd.opened hreg
      · simpa [Cell.del_sock, Cell.send]
          using Sock.map_ne_listener (f := Sock.send _ _) hsock (by simp [Sock.send])
      · exact .inl rfl

/-- `ntyreactor_addlistener` acts on a socket that is new or a listener already. -/
theorem step_addlistener {s t : State} {fd : Nat} {add : Bool}
    (h : step s (.addlistener fd add) = some t) :
    (s.socks fd = none ∨ s.socks fd = some .listener) ∧
      Touches s t fd (((s.cell fd).opened .listener).rearm fd .acceptCb .input add) := by
  have htouch : Touches s (ntyreactorAddlistener s fd add) fd
      (((s.cell fd).opened .listener).rearm fd .acceptCb .input add) :=
    (touches_sock s fd .listener).andThen (f := fun c => c.rearm fd .acceptCb .input add)
      (touches_enter _ fd .acceptCb .input add)
  simp only [step] at h
  split at h
  next => cases h
  next hsock =>
    simp only [Option.some.injEq] at h
    subst h
    refine ⟨?_, htouch⟩
    cases hk : s.socks fd with
    | none => exact .inl rfl
    | some k =>
        cases k with
        | listener => exact .inr rfl
        | accepted c => exact absurd hk (hsock c)

theorem sound_step {s t : State} {a : Act} (hs : Sound s) (h : step s a = some t) : Sound t := by
  cases a with
  | addlistener fd add =>
      obtain ⟨hsock, ht⟩ := step_addlistener h
      apply ht.sound hs
      apply Cell.rearm_sound
      · simp [Cell.opened]
      · exact .inl rfl
      · exact (hs fd).data
      · exact (hs fd).mask
      · intro _
        refine ⟨rfl, rfl, fun reg hreg => ?_⟩
        rcases hsock with hnone | hlistener
        · exact absurd hnone ((hs fd).opened (Option.ne_none_iff_exists'.2 ⟨reg, hreg⟩))
        · exact ((hs fd).listener hlistener reg hreg).1
  | event fd rep r₁ r₂ =>
      rcases step_event hs h with ⟨_, rfl⟩ | ⟨r, _, _, hreg, hmove⟩
      · exact hs
      · exact callbackMove_sound hs hreg hmove

end CppMisc.Reactor
