import Mathlib.Tactic
import CppMisc.Reactor.Moves

/-!
# Agreement between the table and the kernel

`status` is the reactor's own record of what is registered: `nty_event_add` chooses between
`EPOLL_CTL_MOD` and `EPOLL_CTL_ADD` by it. `Agreement` asks that for every listener and every open
connection the record is right, and that mask and callback fit together.

The record is written before the outcome of `epoll_ctl` is known and never taken back, and the table is
used as `malloc` returned it. `Granted` is the condition on a step under which neither matters: no new
socket meets an entry whose status is 1, and the calls of `epoll_ctl` that are not followed by a `close`
succeed. `agreement_iff` says that along a run the agreement holds in every state exactly when every step
meets it: any other step breaks the agreement at once.
-/

set_option autoImplicit false

namespace CppMisc.Reactor

open CppMisc.Library

/-- The callback that goes with a mask. -/
def Paired (mask : Mask) (cb : Callback) : Prop :=
  (mask = .input ∧ (cb = .recvCb ∨ cb = .acceptCb)) ∨ (mask = .output ∧ cb = .sendCb)

/-- The entry records what the kernel has registered. -/
structure Cell.Agrees (c : Cell) : Prop where
  status : c.entry.status = 1 ↔ c.reg ≠ none
  mask : ∀ reg, c.reg = some reg → reg.mask = c.entry.events
  paired : ∀ reg, c.reg = some reg → Paired reg.mask c.entry.callback

/-- The entries of all open sockets record what the kernel has registered. -/
def Agreement (s : State) : Prop := ∀ fd, s.socks fd ≠ none → (s.cell fd).Agrees

/-! ## The condition on a step -/

/-- The condition on a call of the callback of the entry `p`. -/
def callbackGranted (s : State) (p : Nat) (r : Results) : Prop :=
  match (s.table p).callback with
  | .acceptCb => ∀ q, r.accept = some q → (s.table q).status ≠ 1 ∧ (r.fcntl = true → r.add = true)
  | .recvCb => ∀ bs, r.recv = some bs → bs ≠ [] → r.del = true ∧ r.add = true
  | .sendCb => ∀ n, r.send = some n → n ≠ 0 → r.del = true ∧ r.add = true

/-- No new socket meets an entry whose status is 1 already, and `epoll_ctl` refuses nothing on a socket
that stays open. On a socket that is a listener already the call may fail when it repeats what is
registered. -/
def Granted (s : State) : Act → Prop
  | .addlistener fd add =>
      (s.socks fd = none → (s.table fd).status ≠ 1 ∧ add = true) ∧
        (s.socks fd ≠ none → (s.table fd).status = 1 ∨ add = true)
  | .event fd rep r₁ r₂ => ∀ r, Fires s fd rep r₁ r₂ r → callbackGranted s fd r

/-! ## Entering a cell -/

/-- After `nty_event_set` and `nty_event_add` the record is right exactly when the kernel has the new
mask. -/
theorem Cell.rearm_agrees_iff {c : Cell} {p : Nat} {cb : Callback} {m : Mask} {ok : Bool}
    (hpair : Paired m cb) :
    (c.rearm p cb m ok).Agrees ↔ ∃ reg, (c.rearm p cb m ok).reg = some reg ∧ reg.mask = m := by
  constructor
  · intro h
    obtain ⟨reg, hreg⟩ := Option.ne_none_iff_exists'.1 (h.status.1 rfl)
    exact ⟨reg, hreg, h.mask reg hreg⟩
  · rintro ⟨reg, hreg, hmask⟩
    constructor
    · exact ⟨fun _ => by simp [hreg], fun _ => rfl⟩
    · intro reg' hreg'
      obtain rfl : reg = reg' := Option.some.inj (hreg.symm.trans hreg')
      exact hmask
    · intro reg' hreg'
      obtain rfl : reg = reg' := Option.some.inj (hreg.symm.trans hreg')
      rw [hmask]
      exact hpair

/-- A descriptor that is not registered is entered rightly exactly when its entry does not already claim
to be, so that `EPOLL_CTL_ADD` is chosen, and the kernel adds it. -/
theorem Cell.rearm_agrees_of_none {c : Cell} {p : Nat} {cb : Callback} {m : Mask}
    (hpair : Paired m cb) (hreg : c.reg = none) (ok : Bool) :
    (c.rearm p cb m ok).Agrees ↔ c.entry.status ≠ 1 ∧ ok = true := by
  rw [Cell.rearm_agrees_iff hpair]
  by_cases hstatus : c.entry.status = 1
  · simp [Cell.rearm, Cell.add, Cell.set, hstatus, hreg]
  · simp [Cell.rearm, Cell.add, Cell.set, hstatus, hreg]

/-- A registered connection is turned to the other direction by deleting and adding it again; refusing
either call leaves the old mask or none. -/
theorem Cell.rearm_agrees_of_del {c d : Cell} {p : Nat} {cb : Callback} {m : Mask} {del : Bool}
    {reg : Registration Nat} (hpair : Paired m cb) (hstatus : c.entry.status = 1)
    (hreg : c.reg = some reg) (hne : reg.mask ≠ m)
    (hd : d.entry.status = (c.del p del).entry.status ∧ d.reg = (c.del p del).reg) (add : Bool) :
    (d.rearm p cb m add).Agrees ↔ del = true ∧ add = true := by
  have hzero : d.entry.status ≠ 1 := by
    rw [hd.1]
    simp [Cell.del, hstatus]
  cases del with
  | true =>
      have hnone : d.reg = none := by
        rw [hd.2]
        simp [Cell.del, hstatus, hreg]
      rw [Cell.rearm_agrees_of_none hpair hnone]
      simp [hzero]
  | false =>
      have hold : d.reg = some reg := by
        rw [hd.2]
        simp [Cell.del, hstatus, hreg]
      rw [Cell.rearm_agrees_iff hpair]
      simp [Cell.rearm, Cell.add, Cell.set, hzero, hold, hne]

/-! ## One step -/

/-- What holds between the steps of a granted run. -/
structure Inv (s : State) : Prop where
  sound : Sound s
  agree : Agreement s

theorem inv_init (table : Nat → NtyEvent) : Inv (ntyreactorInit table) :=
  ⟨sound_init table, fun _ h => absurd rfl h⟩

/-- After a change of one cell the agreement is a question about that cell. -/
theorem Touches.agreement_cell_iff {s t : State} {q : Nat} {c : Cell} (h : Touches s t q c)
    (hs : Agreement s) : Agreement t ↔ (c.sock ≠ none → c.Agrees) := by
  have hsock : ∀ q', t.socks q' = (t.cell q').sock := fun _ => rfl
  constructor
  · intro ht hopen
    rw [← h.here]
    apply ht q
    rw [hsock, h.here]
    exact hopen
  · intro hc q' hopen
    by_cases hq : q' = q
    · rw [hq, hsock, h.here] at hopen
      rw [hq, h.here]
      exact hc hopen
    · rw [hsock, h.elsewhere q' hq] at hopen
      rw [h.elsewhere q' hq]
      exact hs q' hopen

/-- A descriptor that is not open is not registered. -/
theorem Sound.epoll_none {s : State} (hs : Sound s) {q : Nat} (hq : s.socks q = none) :
    (s.cell q).reg = none := by
  by_contra hne
  exact (hs q).opened hne hq

/-- The registered mask of an entry with the given callback. -/
theorem Inv.mask_of_callback {s : State} (hs : Inv s) {fd : Nat} {reg : Registration Nat}
    (hreg : s.epoll fd = some reg) : Paired reg.mask (s.table fd).callback := by
  have hopen : s.socks fd ≠ none := (hs.sound fd).opened (by simp [State.cell, hreg])
  exact (hs.agree fd hopen).paired reg hreg

theorem Inv.status {s : State} (hs : Inv s) {fd : Nat} (hreg : s.epoll fd ≠ none) :
    (s.table fd).status = 1 :=
  (hs.agree fd ((hs.sound fd).opened hreg)).status.2 hreg

/-- Ending the text in the buffer leaves the status. -/
theorem Cell.terminate_status (c : Cell) (len : Nat) : (c.terminate len).entry.status = c.entry.status := by
  unfold Cell.terminate NtyEvent.terminate
  split
  · rfl
  · rfl

/-- A callback keeps the agreement exactly when it is granted. -/
theorem callbackMove_agreement_iff {s t : State} {fd : Nat} {r : Results} (hs : Inv s)
    (hreg : s.epoll fd ≠ none) (h : CallbackMove s fd r t) :
    Agreement t ↔ callbackGranted s fd r := by
  obtain ⟨reg, hsome⟩ := Option.ne_none_iff_exists'.1 hreg
  have hpair := hs.mask_of_callback hsome
  have hstatus := hs.status hreg
  have hopen : (s.cell fd).sock ≠ none := (hs.sound fd).opened hreg
  cases h with
  | refused hcb hr => simp [callbackGranted, hcb, hr, hs.agree]
  | @left t q hcb hr hq hf ht =>
      -- the new socket stays out of epoll, so its entry must not claim otherwise
      have hnone := hs.sound.epoll_none hq
      rw [ht.agreement_cell_iff hs.agree]
      simp only [callbackGranted, hcb, hr, hf]
      constructor
      · intro h q' hq'
        obtain rfl : q = q' := Option.some.inj hq'
        refine ⟨fun hone => ?_, by simp⟩
        exact (h (by simp [Cell.opened])).status.1 hone hnone
      · intro h _
        have hne := (h q rfl).1
        constructor
        · exact ⟨fun hone => absurd hone hne, fun hsome => absurd hnone hsome⟩
        · intro reg' hreg'
          cases hnone.symm.trans hreg'
        · intro reg' hreg'
          cases hnone.symm.trans hreg'
  | @accepted t q hcb hr hq hf ht =>
      have hnone := hs.sound.epoll_none hq
      rw [ht.agreement_cell_iff hs.agree,
        Cell.rearm_agrees_of_none (.inl ⟨rfl, .inl rfl⟩) (by simpa [Cell.opened] using hnone) _]
      simp [callbackGranted, hcb, hr, hf, Cell.rearm, Cell.add, Cell.set, Cell.opened, State.cell]
  | @recvEnd t c hcb hr ht hnone hsock =>
      rw [ht.agreement_cell_iff hs.agree]
      simp only [callbackGranted, hcb, hsock]
      exact ⟨fun _ bs hbs hne => absurd (hr bs hbs) hne, fun _ h => absurd rfl h⟩
  | @received t bs hcb hr hbs hlen ht =>
      have hin : reg.mask ≠ .output := by
        rintro hout
        simp [Paired, hcb, hout, Mask.input, Mask.output] at hpair
      have hagree := Cell.rearm_agrees_of_del (c := (s.cell fd).recv bs) (p := fd)
        (d := (((s.cell fd).recv bs).del fd r.del).terminate bs.length) (.inr ⟨rfl, rfl⟩) hstatus
        hsome hin ⟨Cell.terminate_status _ _, rfl⟩ r.add
      rw [ht.agreement_cell_iff hs.agree, hagree]
      simp [callbackGranted, hcb, hr, hbs, Cell.rearm, Cell.add, Cell.set, Cell.terminate,
        Cell.del_sock, Cell.recv, hopen]
  | @sendEnd t c hcb hr ht hnone hsock =>
      rw [ht.agreement_cell_iff hs.agree]
      simp only [callbackGranted, hcb, hsock]
      exact ⟨fun _ n hn hne => absurd (hr n hn) hne, fun _ h => absurd rfl h⟩
  | @sent t n hcb hr hn hlen ht =>
      have hout : reg.mask ≠ .input := by
        rintro hin
        simp [Paired, hcb, hin, Mask.input, Mask.output] at hpair
      have hagree := Cell.rearm_agrees_of_del (c := (s.cell fd).send n) (p := fd)
        (d := ((s.cell fd).send n).del fd r.del) (.inl ⟨rfl, .inl rfl⟩) hstatus hsome hout ⟨rfl, rfl⟩
        r.add
      rw [ht.agreement_cell_iff hs.agree, hagree]
      simp [callbackGranted, hcb, hr, hn, Cell.rearm, Cell.add, Cell.set, Cell.del_sock, Cell.send,
        hopen]

/-- `ntyreactor_addlistener` keeps the agreement exactly when it is granted. -/
theorem addlistener_agreement_iff {s t : State} {fd : Nat} {add : Bool} (hs : Inv s)
    (h : step s (.addlistener fd add) = some t) :
    Agreement t ↔ Granted s (.addlistener fd add) := by
  obtain ⟨hsock, ht⟩ := step_addlistener h
  have hpair : Paired .input .acceptCb := .inl ⟨rfl, .inr rfl⟩
  rw [ht.agreement_cell_iff hs.agree]
  rcases hsock with hnone | hlistener
  · have hagree := Cell.rearm_agrees_of_none (p := fd) (c := (s.cell fd).opened .listener) hpair
      (hs.sound.epoll_none hnone) add
    rw [hagree]
    simp [Granted, hnone, Cell.rearm, Cell.add, Cell.set, Cell.opened, State.cell]
  · -- a listener keeps the mask `EPOLLIN`, so a refused `EPOLL_CTL_MOD` does no harm
    have hopen : s.socks fd ≠ none := by simp [hlistener]
    have hstatus := (hs.agree fd hopen).status
    rw [Cell.rearm_agrees_iff hpair]
    cases hreg : s.epoll fd with
    | none =>
        have hne : (s.table fd).status ≠ 1 := by simpa [State.cell, hreg] using hstatus
        simp [Granted, hlistener, Cell.rearm, Cell.add, Cell.set, Cell.opened, State.cell, hreg, hne]
    | some reg =>
        have hone : (s.table fd).status = 1 := by simpa [State.cell, hreg] using hstatus
        have hmask := ((hs.sound fd).listener hlistener reg hreg).1
        cases add with
        | true =>
            simp [Granted, hlistener, Cell.rearm, Cell.add, Cell.set, Cell.opened, State.cell, hreg,
              hone]
        | false =>
            simp [Granted, hlistener, Cell.rearm, Cell.add, Cell.set, Cell.opened, State.cell, hreg,
              hone, hmask]

/-- A step keeps the agreement exactly when it is granted. -/
theorem step_agreement_iff {s t : State} {a : Act} (hs : Inv s) (h : step s a = some t) :
    Agreement t ↔ Granted s a := by
  cases a with
  | addlistener fd add => exact addlistener_agreement_iff hs h
  | event fd rep r₁ r₂ =>
      rcases step_event hs.sound h with ⟨hquiet, rfl⟩ | ⟨r, hfire, honly, hreg, hmove⟩
      · exact ⟨fun _ r hr => absurd hr (hquiet r), fun _ => hs.agree⟩
      · rw [callbackMove_agreement_iff hs hreg hmove]
        constructor
        · intro hgranted r' hr'
          rw [honly r' hr']
          exact hgranted
        · exact fun hgranted => hgranted r hfire

/-- **The table agrees with the kernel along a run exactly when every step is granted.** For every content
of the table that `malloc` returned and every run from there, in every state the status, mask and callback
of every open socket are those that are registered, if and only if no new socket met an entry with status
1 and `epoll_ctl` refused nothing on a socket that stays open. -/
theorem agreement_iff (table : Nat → NtyEvent) (as : List Act) :
    EveryState step Agreement (ntyreactorInit table) as ↔
      EveryStep step Granted (ntyreactorInit table) as := by
  have hkept : ∀ s a t, Inv s → Granted s a → step s a = some t → Inv t := by
    intro s a t hs hgranted h
    exact ⟨sound_step hs.sound h, (step_agreement_iff hs h).2 hgranted⟩
  have hbroken : ∀ s a t, Inv s → ¬ Granted s a → step s a = some t → ¬ Agreement t := by
    intro s a t hs hgranted h ht
    exact hgranted ((step_agreement_iff hs h).1 ht)
  exact everyState_iff_everyStep hkept (fun s hs => hs.agree) hbroken as _ (inv_init table)

/-- Control: in a zeroed table, a listener is entered, a connection is accepted, and the kernel refuses to
add it. Its entry then says that it is registered, and it is not. -/
theorem agreement_fails_on_refused_add :
    ¬ ∀ (table : Nat → NtyEvent) (as : List Act),
      EveryState step Agreement (ntyreactorInit table) as := by
  intro h
  have hrun := h (fun _ => ⟨0, ⟨false, false⟩, .acceptCb, 0, .zeroed, 0⟩)
    [.addlistener 3 true, .event 3 ⟨true, false, false, false⟩
      ⟨some 4, true, none, none, true, false⟩ ⟨none, true, none, none, true, true⟩]
  have hlistening := hrun.2 _ rfl
  have hlast := hlistening.2 _ rfl
  exact (hlast 4 (by decide)).status.1 rfl rfl

end CppMisc.Reactor
