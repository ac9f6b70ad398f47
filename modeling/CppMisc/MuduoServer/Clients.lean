import Mathlib.Tactic
import CppMisc.MuduoServer.Model

/-!
# The consistency of the client table

The dictionary `clients` should have an entry exactly for the accepted sockets that are open and registered,
no lookup in it should fail, and an event should close no socket but its own.

Each block is right on its own, up to the socket that the `EPOLLHUP` block closes: that is `client`, which
belongs to the last event that bound the name and not to this one. And the blocks are not exclusive: after
one of them has removed the entry, the lookup of the next one fails. `Calm` is the condition on an event
under which neither happens, and `tableConsistent_iff_calm` says that along a run the table is consistent in
every state exactly when all events are calm.
-/

set_option autoImplicit false

namespace CppMisc.MuduoServer

open CppMisc.Library

/-- No failed lookup, no foreign socket closed, and the keys are the descriptors of the accepted sockets that
are open and registered. -/
structure TableConsistent (s : State) : Prop where
  noKeyError : s.raised ≠ some .keyError
  onlyOwn : s.foreign = false
  keys : ∀ f, s.clients f ≠ none ↔ ∃ c, c ≠ 0 ∧ s.table f = some c ∧ s.registered f = true

/-- An event of a client that does not hit a removed entry: `EPOLLHUP` comes alone, while `client` is the
event's own socket or a closed one, and the end of the stream is not seen together with `EPOLLOUT`. -/
def Calm (s : State) (e : Polled) : Prop :=
  e.fd ≠ s.acceptorFd →
    (e.evt.epollhup = true →
      e.evt.epollin = false ∧ e.evt.epollout = false ∧
        (s.client = s.clients e.fd ∨ ∀ c, s.client = some c → s.table (s.fileno c) ≠ some c)) ∧
    (e.evt.epollhup = false → e.evt.epollin = true → e.results.recv = .empty →
      e.evt.epollout = false)

/-! ## The invariant -/

/-- The dictionary, the kernel's table and epoll say the same. -/
structure Inv (s : State) : Prop where
  table : ∀ f c, s.table f = some c → s.fileno c = f ∧ c < s.next
  clients : ∀ f c, s.clients f = some c ↔ s.table f = some c ∧ c ≠ 0
  registered : ∀ f, s.registered f = true ↔ s.table f ≠ none
  acceptor : s.table s.acceptorFd = some 0
  bound : ∀ f, s.clients f ≠ none → s.client ≠ none

theorem inv_start (acceptorFd : Nat) : Inv (start acceptorFd) := by
  constructor
  · intro f c hf
    by_cases hfd : f = acceptorFd
    · simp only [start, hfd, Function.update_self, Option.some.injEq] at hf
      subst hf
      exact ⟨hfd.symm, Nat.zero_lt_one⟩
    · simp [start, hfd] at hf
  · intro f c
    by_cases hfd : f = acceptorFd
    · simp only [start, hfd, Function.update_self, Option.some.injEq, reduceCtorEq, false_iff]
      exact fun hc => hc.2 hc.1.symm
    · simp [start, hfd]
  · intro f
    by_cases hfd : f = acceptorFd
    · simp [start, hfd]
    · simp [start, hfd]
  · simp [start]
  · intro f hf
    exact absurd rfl hf

/-- The keys are right in every state of the invariant. -/
theorem Inv.keys {s : State} (hs : Inv s) (f : Nat) :
    s.clients f ≠ none ↔ ∃ c, c ≠ 0 ∧ s.table f = some c ∧ s.registered f = true := by
  constructor
  · intro hf
    obtain ⟨c, hc⟩ := Option.ne_none_iff_exists'.1 hf
    obtain ⟨htable, hne⟩ := (hs.clients f c).1 hc
    exact ⟨c, hne, htable, (hs.registered f).2 (by simp [htable])⟩
  · rintro ⟨c, hne, htable, _⟩
    rw [(hs.clients f c).2 ⟨htable, hne⟩]
    simp

/-- A registered descriptor other than the acceptor's has an entry, with its socket. -/
theorem Inv.entry {s : State} (hs : Inv s) {f : Nat} (hreg : s.registered f = true)
    (hfd : f ≠ s.acceptorFd) : ∃ own, s.clients f = some own ∧ s.table f = some own := by
  obtain ⟨own, hown⟩ := Option.ne_none_iff_exists'.1 ((hs.registered f).1 hreg)
  have hne : own ≠ 0 := by
    rintro rfl
    exact hfd ((hs.table f 0 hown).1.symm.trans (hs.table _ 0 hs.acceptor).1)
  exact ⟨own, (hs.clients f own).2 ⟨hown, hne⟩, hown⟩

/-- The socket of the descriptor `f` is closed and its entry removed. -/
def dropped (s : State) (f : Nat) : State :=
  { s with
    table := Function.update s.table f none
    registered := Function.update s.registered f false
    clients := Function.update s.clients f none }

theorem Inv.dropped {s : State} (hs : Inv s) {f : Nat} (hfd : f ≠ s.acceptorFd) :
    Inv (dropped s f) := by
  have htable : ∀ g c, (MuduoServer.dropped s f).table g = some c → g ≠ f ∧ s.table g = some c := by
    intro g c hg
    by_cases hgf : g = f
    · simp [MuduoServer.dropped, hgf] at hg
    · exact ⟨hgf, by simpa [MuduoServer.dropped, hgf] using hg⟩
  constructor
  · intro g c hg
    exact hs.table g c (htable g c hg).2
  · intro g c
    by_cases hgf : g = f
    · simp [MuduoServer.dropped, hgf]
    · simpa [MuduoServer.dropped, hgf] using hs.clients g c
  · intro g
    by_cases hgf : g = f
    · simp [MuduoServer.dropped, hgf]
    · simpa [MuduoServer.dropped, hgf] using hs.registered g
  · simpa [MuduoServer.dropped, hfd.symm] using hs.acceptor
  · intro g hg
    by_cases hgf : g = f
    · simp [MuduoServer.dropped, hgf] at hg
    · apply hs.bound g
      simpa [MuduoServer.dropped, hgf] using hg

/-- Binding the name `client` keeps the invariant. -/
theorem Inv.bind {s : State} (hs : Inv s) (own : Nat) : Inv { s with client := some own } :=
  ⟨hs.table, hs.clients, hs.registered, hs.acceptor, fun _ _ => by simp⟩

/-- So does an exception. -/
theorem Inv.raise {s : State} (hs : Inv s) (e : Exn) : Inv (s.raise e) :=
  ⟨hs.table, hs.clients, hs.registered, hs.acceptor, hs.bound⟩

/-! ## The blocks -/

@[simp] theorem block_false (s : State) (body : State → Option State) :
    s.block false body = some s := by
  simp [State.block]

theorem block_true {s : State} (h : s.raised = none) (body : State → Option State) :
    s.block true body = body s := by
  simp [State.block, h]

theorem block_raised {s : State} (h : s.raised ≠ none) (bit : Bool)
    (body : State → Option State) : s.block bit body = some s := by
  obtain ⟨e, he⟩ := Option.ne_none_iff_exists'.1 h
  simp [State.block, he]

section Blocks

variable {s t : State} {f own : Nat} {r : Results}

/-- Closing the socket of an event after its entry was removed. -/
theorem close_own (hs : Inv s) (hown : s.table f = some own) :
    (s.pop f).close own own = dropped s f := by
  have hfileno := (hs.table f own hown).1
  simp [State.close, State.pop, dropped, hfileno, hown]

/-- With `client` bound to the own socket or to a closed one, the `EPOLLHUP` block drops the connection. -/
theorem onHup_calm (hs : Inv s) (hentry : s.clients f = some own) (hown : s.table f = some own)
    (hclient : s.client = s.clients f ∨
      ∀ c, s.client = some c → s.table (s.fileno c) ≠ some c) :
    onHup s f = dropped s f := by
  have hfileno := (hs.table f own hown).1
  by_cases hsame : s.client = some own
  · simp [onHup, hentry, State.pop, hsame, State.close, hfileno, hown, dropped]
  · obtain ⟨c, hc⟩ := Option.ne_none_iff_exists'.1 (hs.bound f (by simp [hentry]))
    have hclosed : s.table (s.fileno c) ≠ some c := by
      rcases hclient with heq | hall
      · exact absurd (heq.trans hentry) hsame
      · exact hall c hc
    have hne : c ≠ own := by
      rintro rfl
      exact hsame hc
    -- the popped socket has no reference left; `client` is closed already
    have hstill : Function.update s.table f none (s.fileno c) ≠ some c := by
      by_cases hcf : s.fileno c = f
      · simp [hcf]
      · simpa [hcf] using hclosed
    simp [onHup, hentry, State.pop, hc, hne, State.close, hfileno, hown, dropped, hstill]

/-- With `client` bound to another open socket, the `EPOLLHUP` block closes that one as well. -/
theorem onHup_foreign (hs : Inv s) (hentry : s.clients f = some own) (hown : s.table f = some own)
    {c : Nat} (hc : s.client = some c) (hne : c ≠ own) (hopen : s.table (s.fileno c) = some c) :
    (onHup s f).foreign = true := by
  have hfileno := (hs.table f own hown).1
  have hcf : s.fileno c ≠ f := by
    intro hcf
    rw [hcf, hown] at hopen
    exact hne (Option.some.inj hopen).symm
  simp [onHup, hentry, State.pop, hc, hne, State.close, hfileno, hown, hcf, hopen]

/-- After the `EPOLLHUP` block there is no entry, and no exception either. -/
theorem onHup_entry (hs : Inv s) (hentry : s.clients f = some own) :
    (onHup s f).clients f = none ∧ (onHup s f).raised = s.raised ∧
      (onHup s f).acceptorFd = s.acceptorFd := by
  obtain ⟨c, hc⟩ := Option.ne_none_iff_exists'.1 (hs.bound f (by simp [hentry]))
  have hclose : ∀ (u : State) (o d : Nat), (u.close o d).clients = u.clients ∧
      (u.close o d).raised = u.raised ∧ (u.close o d).acceptorFd = u.acceptorFd ∧
      (u.close o d).client = u.client := by
    intro u o d
    unfold State.close
    split
    · exact ⟨rfl, rfl, rfl, rfl⟩
    · exact ⟨rfl, rfl, rfl, rfl⟩
  by_cases hsame : s.client = some own
  · simp [onHup, hentry, State.pop, hsame, hclose]
  · have hne : c ≠ own := by
      rintro rfl
      exact hsame hc
    simp [onHup, hentry, State.pop, hc, hne, hclose]

theorem onAccept_inv (hs : Inv s) (h : onAccept s r = some t) :
    Inv t ∧ t.foreign = s.foreign ∧ (s.raised = none → t.raised ≠ some .keyError) := by
  unfold onAccept at h
  split at h
  next =>
    cases h
    exact ⟨hs.raise _, rfl, fun _ => by simp [State.raise]⟩
  next g hg =>
    split at h
    next hfree =>
      cases h
      refine ⟨?_, rfl, fun hnone => by simp [hnone]⟩
      have hacc : s.acceptorFd ≠ g := by
        rintro rfl
        rw [hs.acceptor] at hfree
        cases hfree
      have hpos : s.next ≠ 0 := by
        have := (hs.table _ _ hs.acceptor).2
        omega
      constructor
      · intro f c hf
        by_cases hfg : f = g
        · simp only [hfg, Function.update_self, Option.some.injEq] at hf
          subst hf
          simp [hfg]
        · simp only [Function.update_of_ne hfg] at hf
          obtain ⟨hfileno, hlt⟩ := hs.table f c hf
          have hne : c ≠ s.next := by omega
          exact ⟨by simpa [hne] using hfileno, by simp only; omega⟩
      · intro f c
        by_cases hfg : f = g
        · simp only [hfg, Function.update_self, Option.some.injEq]
          constructor
          · rintro rfl
            exact ⟨rfl, hpos⟩
          · exact fun hc => hc.1
        · simpa [hfg] using hs.clients f c
      · intro f
        by_cases hfg : f = g
        · simp [hfg]
        · simpa [hfg] using hs.registered f
      · simpa [hacc] using hs.acceptor
      · exact fun _ _ => by simp
    next => cases h

/-- Receiving on the own socket: the connection stays, or it is dropped at the end of the stream. -/
theorem onRecv_cases (hs : Inv s) (hentry : s.clients f = some own) (hown : s.table f = some own) :
    (r.recv = .empty ∧ onRecv s f r = dropped { s with client := some own } f) ∨
      (r.recv ≠ .empty ∧
        (onRecv s f r = { s with client := some own } ∨
          onRecv s f r = State.raise { s with client := some own } .osError)) := by
  cases hr : r.recv with
  | data => exact .inr ⟨by simp, .inl (by simp [onRecv, hentry, hr])⟩
  | raises => exact .inr ⟨by simp, .inr (by simp [onRecv, hentry, hr])⟩
  | empty =>
      refine .inl ⟨rfl, ?_⟩
      have hclose : (State.pop { s with client := some own } f).close own own =
          dropped { s with client := some own } f := close_own (hs.bind own) hown
      simpa [onRecv, hentry, hr] using hclose

/-- Sending on the own socket. -/
theorem onOut_cases (hentry : s.clients f = some own) :
    onOut s f r = { s with client := some own } ∨
      onOut s f r = State.raise { s with client := some own } .osError := by
  cases hsend : r.send with
  | true => exact .inl (by simp [onOut, hentry, hsend])
  | false => exact .inr (by simp [onOut, hentry, hsend])

end Blocks

/-! ## One event -/

/-- What holds along a run of calm events. -/
structure Good (s : State) : Prop where
  inv : Inv s
  noKeyError : s.raised ≠ some .keyError
  onlyOwn : s.foreign = false

theorem Good.consistent {s : State} (hs : Good s) : TableConsistent s :=
  ⟨hs.noKeyError, hs.onlyOwn, hs.inv.keys⟩

section Event

variable {s t : State} {e : Polled} {own : Nat}

theorem Good.bind (hs : Good s) (own : Nat) : Good { s with client := some own } :=
  ⟨hs.inv.bind own, hs.noKeyError, hs.onlyOwn⟩

theorem Good.osError (hs : Good s) : Good (s.raise .osError) :=
  ⟨hs.inv.raise _, by simp [State.raise], hs.onlyOwn⟩

theorem Good.dropped {f : Nat} (hs : Good s) (hfd : f ≠ s.acceptorFd) : Good (dropped s f) :=
  ⟨hs.inv.dropped hfd, hs.noKeyError, hs.onlyOwn⟩

/-- The `EPOLLOUT` block on an entry that is there. -/
theorem Good.outBlock (hs : Good s) {f : Nat} (hentry : s.clients f = some own) (bit : Bool)
    {r : Results} (h : (s.block bit fun s => some (onOut s f r)) = some t) : Good t := by
  unfold State.block at h
  split at h
  · cases h
    rcases onOut_cases (r := r) hentry with hout | hout
    · rw [hout]
      exact hs.bind own
    · rw [hout]
      exact (hs.bind own).osError
  · cases h
    exact hs

/-- The guard of a step, and its three blocks. -/
theorem step_blocks (h : step s e = some t) :
    s.raised = none ∧ s.registered e.fd = true ∧
      (e.fd = s.acceptorFd → e.evt.epollhup = false ∧ e.evt.epollout = false) ∧
      ∃ u v, (s.block e.evt.epollhup fun s => some (onHup s e.fd)) = some u ∧
        (u.block e.evt.epollin fun s => onIn s e.fd e.results) = some v ∧
        (v.block e.evt.epollout fun s => some (onOut s e.fd e.results)) = some t := by
  simp only [step] at h
  split at h
  next hguard =>
    obtain ⟨u, hu, hrest⟩ := Option.bind_eq_some_iff.1 h
    obtain ⟨v, hv, ht⟩ := Option.bind_eq_some_iff.1 hrest
    exact ⟨hguard.1, hguard.2.1, hguard.2.2, u, v, hu, hv, ht⟩
  next => cases h

/-- An event of the acceptor. -/
theorem good_acceptor (hs : Good s) (hfd : e.fd = s.acceptorFd) (h : step s e = some t) : Good t := by
  obtain ⟨hnone, _, hbits, u, v, hu, hv, ht⟩ := step_blocks h
  obtain ⟨hhup, hout⟩ := hbits hfd
  rw [hhup, block_false] at hu
  rw [hout, block_false] at ht
  cases hu
  cases ht
  cases hin : e.evt.epollin with
  | false =>
      rw [hin, block_false] at hv
      cases hv
      exact hs
  | true =>
      rw [hin, block_true hnone, onIn, if_pos hfd] at hv
      obtain ⟨hinv, hforeign, hraised⟩ := onAccept_inv hs.inv hv
      exact ⟨hinv, hraised hnone, hforeign.trans hs.onlyOwn⟩

/-- A calm event of a client. -/
theorem good_client (hs : Good s) (hfd : e.fd ≠ s.acceptorFd) (hcalm : Calm s e)
    (h : step s e = some t) : Good t := by
  obtain ⟨hnone, hreg, _, u, v, hu, hv, ht⟩ := step_blocks h
  obtain ⟨own, hentry, hown⟩ := hs.inv.entry hreg hfd
  obtain ⟨hup, hend⟩ := hcalm hfd
  cases hhup : e.evt.epollhup with
  | true =>
      obtain ⟨hin, hout, hclient⟩ := hup hhup
      rw [hhup, block_true hnone, onHup_calm hs.inv hentry hown hclient] at hu
      rw [hin, block_false] at hv
      rw [hout, block_false] at ht
      cases hu
      cases hv
      cases ht
      exact hs.dropped hfd
  | false =>
      rw [hhup, block_false] at hu
      cases hu
      cases hin : e.evt.epollin with
      | false =>
          rw [hin, block_false] at hv
          cases hv
          exact hs.outBlock hentry _ ht
      | true =>
          rw [hin, block_true hnone, onIn, if_neg hfd] at hv
          rcases onRecv_cases (r := e.results) hs.inv hentry hown with
            ⟨hempty, hrecv⟩ | ⟨_, hrecv | hrecv⟩
          · -- the end of the stream, without `EPOLLOUT`
            rw [hrecv] at hv
            rw [hend hhup hin hempty, block_false] at ht
            cases hv
            cases ht
            exact (hs.bind own).dropped hfd
          · rw [hrecv] at hv
            cases hv
            exact (hs.bind own).outBlock hentry _ ht
          · rw [hrecv] at hv
            cases hv
            rw [block_raised (by simp [State.raise])] at ht
            cases ht
            exact (hs.bind own).osError

/-- A lookup of a missing entry ends in `KeyError`. -/
theorem keyError_of_missing {u v : State} (hnone : u.raised = none) (hfd : e.fd ≠ u.acceptorFd)
    (hmissing : u.clients e.fd = none) (hbits : e.evt.epollin = true ∨ e.evt.epollout = true)
    (hv : (u.block e.evt.epollin fun s => onIn s e.fd e.results) = some v)
    (ht : (v.block e.evt.epollout fun s => some (onOut s e.fd e.results)) = some t) :
    t.raised = some .keyError := by
  cases hin : e.evt.epollin with
  | true =>
      rw [hin, block_true hnone, onIn, if_neg hfd, onRecv, hmissing] at hv
      cases hv
      rw [block_raised (by simp [State.raise])] at ht
      cases ht
      rfl
  | false =>
      have hout : e.evt.epollout = true := by simpa [hin] using hbits
      rw [hin, block_false] at hv
      cases hv
      rw [hout, block_true hnone, onOut, hmissing] at ht
      cases ht
      rfl

/-- An event that is not calm leaves an inconsistent table. -/
theorem not_consistent_of_not_calm (hs : Good s) (hcalm : ¬ Calm s e) (h : step s e = some t) :
    ¬ TableConsistent t := by
  intro hcons
  apply hcalm
  intro hfd
  obtain ⟨hnone, hreg, _, u, v, hu, hv, ht⟩ := step_blocks h
  obtain ⟨own, hentry, hown⟩ := hs.inv.entry hreg hfd
  refine ⟨fun hhup => ?_, fun hhup hin hempty => ?_⟩
  · rw [hhup, block_true hnone] at hu
    cases hu
    obtain ⟨hmissing, hraised, hacc⟩ := onHup_entry hs.inv hentry
    have hbits : ¬ (e.evt.epollin = true ∨ e.evt.epollout = true) := by
      intro hbits
      exact hcons.noKeyError (keyError_of_missing (hraised.trans hnone) (by rwa [hacc]) hmissing hbits
        hv ht)
    rw [not_or, Bool.not_eq_true, Bool.not_eq_true] at hbits
    refine ⟨hbits.1, hbits.2, ?_⟩
    rw [hbits.1, block_false] at hv
    cases hv
    rw [hbits.2, block_false] at ht
    cases ht
    -- otherwise `client` is another open socket, and it was closed
    by_contra hclient
    push Not at hclient
    obtain ⟨hne, c, hc, hopen⟩ := hclient
    have hother : c ≠ own := by
      rintro rfl
      exact hne (hc.trans hentry.symm)
    have hforeign := onHup_foreign hs.inv hentry hown hc hother hopen
    rw [hcons.onlyOwn] at hforeign
    cases hforeign
  · by_contra hout
    rw [Bool.not_eq_false] at hout
    rw [hhup, block_false] at hu
    cases hu
    rw [hin, block_true hnone, onIn, if_neg hfd] at hv
    rcases onRecv_cases (r := e.results) hs.inv hentry hown with ⟨_, hrecv⟩ | ⟨hne, _⟩
    · rw [hrecv] at hv
      cases hv
      have hmissing : (dropped { s with client := some own } e.fd).clients e.fd = none := by
        simp [dropped]
      have hgoing : (dropped { s with client := some own } e.fd).raised = none := hnone
      rw [hout, block_true hgoing, onOut, hmissing] at ht
      cases ht
      exact hcons.noKeyError rfl
    · exact hne hempty

end Event

/-- **The client table is consistent along a run exactly when every event is calm.** For every acceptor and
every sequence of polled events of registered descriptors, with any combination of the bits and any results of
`accept`, `recv` and `send`. -/
theorem tableConsistent_iff_calm (acceptorFd : Nat) (es : List Polled) :
    EveryState step TableConsistent (start acceptorFd) es ↔ EveryStep step Calm (start acceptorFd) es := by
  have hkept : ∀ s e t, Good s → Calm s e → step s e = some t → Good t := by
    intro s e t hs hcalm h
    by_cases hfd : e.fd = s.acceptorFd
    · exact good_acceptor hs hfd h
    · exact good_client hs hfd hcalm h
  have hbroken : ∀ s e t, Good s → ¬ Calm s e → step s e = some t → ¬ TableConsistent t :=
    fun _ _ _ hs hcalm h => not_consistent_of_not_calm hs hcalm h
  apply everyState_iff_everyStep hkept (fun _ hs => hs.consistent) hbroken
  exact ⟨inv_start acceptorFd, by simp [start], rfl⟩

/-- Control: two clients are accepted, and the first one is reset. `client` still names the second one, which
is closed in its place and keeps its entry. -/
theorem hup_closes_other_client :
    ¬ ∀ (acceptorFd : Nat) (es : List Polled),
      EveryState step TableConsistent (start acceptorFd) es := by
  intro h
  have hrun := h 3
    [⟨3, ⟨true, false, false, false⟩, ⟨some 4, .data, true⟩⟩,
      ⟨3, ⟨true, false, false, false⟩, ⟨some 5, .data, true⟩⟩,
      ⟨4, ⟨false, false, false, true⟩, ⟨none, .data, true⟩⟩]
  have hlast : TableConsistent _ := ((hrun.2 _ rfl).2 _ rfl).2 _ rfl
  exact absurd hlast.onlyOwn (by decide)

end CppMisc.MuduoServer
