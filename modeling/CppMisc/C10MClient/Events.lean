import CppMisc.C10MClient.Model

/-!
# Events of `c10M/client.c` on their own sockets

The handler takes the newest socket for `send` and `recv` and the socket of the event for `close`. So an
event that leads to one of these calls is handled on its own socket exactly when it is on the newest one,
and otherwise a healthy socket may be closed for what `recv` returned on the newest. The number of
connections is right in any case, since every close takes one open socket away.
-/

set_option autoImplicit false

namespace CppMisc.C10MClient

open CppMisc.Library

/-- An event was handled on its own socket, and if the socket was closed there was a reason for it: its
own `recv` returned 0 or an error that is not to be retried, or the event was neither input nor output. -/
structure OwnSocket (h : Handled) : Prop where
  used : ∀ fd, h.used = some fd → fd = h.event.fd
  closed : h.closed = true →
    (h.used = some h.event.fd ∧ h.event.epollin = true ∧ h.event.epollout = false ∧
      (h.event.length = 0 ∨ h.event.length < 0 ∧ h.event.errno.retryable = false)) ∨
    (h.event.epollin = false ∧ h.event.epollout = false)

/-- All events so far were handled on their own sockets, and `connections` counts the open sockets. -/
structure EventsOwned (s : State) : Prop where
  owned : ∀ h ∈ s.handled, OwnSocket h
  connections : s.connections = s.sockets.length

/-- In a round with a batch, events with input or output are on the new socket. -/
def BatchOnNewest (s : State) (r : Round) : Prop :=
  (s.connections + 1) % 1000 = 0 →
    ∀ e ∈ r.batch, e.epollout = true ∨ e.epollin = true → e.fd = r.sockfd

/-! ## One event -/

/-- The cases of the handler. -/
theorem handleEvent_cases (sockfd : Nat) (e : Ready) :
    (e.epollout = true ∧ handleEvent sockfd e = ⟨e, some sockfd, false⟩) ∨
    (e.epollout = false ∧ e.epollin = true ∧ ∃ closed, handleEvent sockfd e = ⟨e, some sockfd, closed⟩ ∧
      (closed = true → e.length = 0 ∨ e.length < 0 ∧ e.errno.retryable = false)) ∨
    (e.epollout = false ∧ e.epollin = false ∧ handleEvent sockfd e = ⟨e, none, true⟩) := by
  simp only [handleEvent]
  cases hout : e.epollout with
  | true => exact .inl ⟨rfl, rfl⟩
  | false =>
      refine .inr ?_
      cases hin : e.epollin with
      | false => exact .inr ⟨rfl, rfl, rfl⟩
      | true =>
          refine .inl ⟨rfl, rfl, ?_⟩
          simp only [Bool.false_eq_true, if_false, if_true]
          split
          · next hzero => exact ⟨true, rfl, fun _ => .inl hzero⟩
          · split
            · next hneg =>
                cases hretry : e.errno.retryable with
                | true => exact ⟨false, rfl, fun h => nomatch h⟩
                | false => exact ⟨true, rfl, fun _ => .inr ⟨hneg, rfl⟩⟩
            · exact ⟨false, rfl, fun h => nomatch h⟩

/-- An event is handled on its own socket exactly when it is on the newest, or neither input nor output. -/
theorem ownSocket_handleEvent_iff (sockfd : Nat) (e : Ready) :
    OwnSocket (handleEvent sockfd e) ↔ (e.epollout = true ∨ e.epollin = true → e.fd = sockfd) := by
  rcases handleEvent_cases sockfd e with ⟨hout, heq⟩ | ⟨hout, hin, closed, heq, hreason⟩ | ⟨hout, hin, heq⟩
  · rw [heq]
    constructor
    · intro h _
      exact (h.used sockfd rfl).symm
    · intro h
      refine ⟨fun fd hfd => ?_, fun hclosed => nomatch hclosed⟩
      rw [← Option.some.inj hfd]
      exact (h (.inl hout)).symm
  · rw [heq]
    constructor
    · intro h _
      exact (h.used sockfd rfl).symm
    · intro h
      have hfd := h (.inr hin)
      refine ⟨fun fd hused => ?_, fun hclosed => .inl ⟨?_, hin, hout, hreason hclosed⟩⟩
      · rw [← Option.some.inj hused]
        exact hfd.symm
      · exact congrArg some hfd.symm
  · rw [heq]
    refine iff_of_true ⟨fun fd hused => (nomatch hused), fun _ => .inr ⟨hin, hout⟩⟩ ?_
    rintro (h | h)
    · rw [hout] at h
      cases h
    · rw [hin] at h
      cases h

/-! ## A batch -/

/-- What a batch adds to the record. -/
theorem handled_foldl (sockfd : Nat) (batch : List Ready) : ∀ s : State,
    (batch.foldl (handle sockfd) s).handled = (batch.map (handleEvent sockfd)).reverse ++ s.handled := by
  induction batch with
  | nil =>
      intro s
      rfl
  | cons e batch ih =>
      intro s
      rw [List.foldl_cons, ih, List.map_cons, List.reverse_cons, List.append_assoc]
      rfl

/-- The counter and the open sockets. -/
structure Counted (s : State) : Prop where
  connections : s.connections = s.sockets.length
  nodup : s.sockets.Nodup

/-- Closing an open socket takes one from both. -/
theorem Counted.handle {s : State} (h : Counted s) (sockfd : Nat) {e : Ready} (he : e.fd ∈ s.sockets) :
    Counted (C10MClient.handle sockfd s e) := by
  simp only [C10MClient.handle]
  cases (handleEvent sockfd e).closed with
  | false => exact ⟨h.connections, h.nodup⟩
  | true =>
      refine ⟨?_, h.nodup.erase _⟩
      have hlength := List.length_erase_of_mem he
      have hpos := List.length_pos_of_mem he
      have hcount := h.connections
      simp only [if_true]
      omega

/-- The other sockets stay open. -/
theorem mem_sockets_handle {s : State} (sockfd : Nat) {e : Ready} {fd : Nat} (hfd : fd ∈ s.sockets)
    (hne : fd ≠ e.fd) : fd ∈ (handle sockfd s e).sockets := by
  simp only [handle]
  split
  · exact (List.mem_erase_of_ne hne).2 hfd
  · exact hfd

/-- A batch closes different sockets, so the counter stays right. -/
theorem Counted.foldl (sockfd : Nat) (batch : List Ready) : ∀ {s : State}, Counted s →
    Delivers s batch → Counted (batch.foldl (C10MClient.handle sockfd) s) := by
  induction batch with
  | nil =>
      intro s h _
      exact h
  | cons e batch ih =>
      intro s h ⟨hnodup, hmem⟩
      rw [List.map_cons, List.nodup_cons] at hnodup
      apply ih (h.handle sockfd (hmem e List.mem_cons_self))
      refine ⟨hnodup.2, fun e' he' => ?_⟩
      apply mem_sockets_handle sockfd (hmem e' (List.mem_cons_of_mem e he'))
      intro heq
      exact hnodup.1 (heq ▸ List.mem_map_of_mem he')

/-! ## Rounds -/

theorem Counted.connect {s : State} (h : Counted s) {sockfd : Nat} (hnew : sockfd ∉ s.sockets) :
    Counted (C10MClient.connect s sockfd) := by
  refine ⟨?_, ?_⟩
  · simp only [C10MClient.connect, List.length_append, List.length_singleton, h.connections]
    push_cast
    rfl
  · exact List.nodup_append.2 ⟨h.nodup, List.nodup_singleton _, by
      intro a ha b hb
      rw [List.mem_singleton] at hb
      exact fun heq => hnew (hb ▸ heq ▸ ha)⟩

/-- What a round does: the counter stays right, and the batch is added to the record, if there is one. -/
theorem step_spec {s t : State} {r : Round} (h : Counted s) (hstep : step s r = some t) :
    Counted t ∧
      ((s.connections + 1) % 1000 = 0 ∧
          t.handled = (r.batch.map (handleEvent r.sockfd)).reverse ++ s.handled ∨
        ¬ (s.connections + 1) % 1000 = 0 ∧ t.handled = s.handled) := by
  simp only [step] at hstep
  split at hstep
  · cases hstep
  · next hnew =>
      have hconnected := h.connect hnew
      split at hstep
      · next hbatch =>
          split at hstep
          · next hdelivers =>
              cases hstep
              exact ⟨hconnected.foldl r.sockfd r.batch hdelivers,
                .inl ⟨hbatch, handled_foldl r.sockfd r.batch _⟩⟩
          · cases hstep
      · next hbatch =>
          cases hstep
          exact ⟨hconnected, .inr ⟨hbatch, rfl⟩⟩

/-- The counter is right, and all events so far were handled on their own sockets. -/
structure Owned (s : State) : Prop where
  counted : Counted s
  owned : ∀ h ∈ s.handled, OwnSocket h

theorem owned_start : Owned start := ⟨⟨rfl, .nil⟩, fun _ h => absurd h List.not_mem_nil⟩

theorem owned_step {s t : State} {r : Round} (h : Owned s) (hnewest : BatchOnNewest s r)
    (hstep : step s r = some t) : Owned t := by
  obtain ⟨hcounted, ⟨hbatch, hhandled⟩ | ⟨-, hhandled⟩⟩ := step_spec h.counted hstep
  · refine ⟨hcounted, fun x hx => ?_⟩
    rw [hhandled, List.mem_append, List.mem_reverse] at hx
    rcases hx with hx | hx
    · obtain ⟨e, he, rfl⟩ := List.mem_map.1 hx
      exact (ownSocket_handleEvent_iff r.sockfd e).2 (hnewest hbatch e he)
    · exact h.owned x hx
  · exact ⟨hcounted, hhandled ▸ h.owned⟩

/-- An event with input or output on another socket is not handled on its own. -/
theorem not_owned_of_step {s t : State} {r : Round} (h : Owned s) (hother : ¬ BatchOnNewest s r)
    (hstep : step s r = some t) : ¬ EventsOwned t := by
  intro howned
  obtain ⟨-, ⟨-, hhandled⟩ | ⟨hbatch, -⟩⟩ := step_spec h.counted hstep
  · apply hother
    intro _ e he
    apply (ownSocket_handleEvent_iff r.sockfd e).1
    apply howned.owned
    rw [hhandled]
    exact List.mem_append_left _ (List.mem_reverse.2 (List.mem_map_of_mem he))
  · exact hother fun hbatch' => absurd hbatch' hbatch

/-- **Events on their own sockets.** For every run of the client, with any batches and any results of
`recv`: in every state every event so far was handled on its own socket and closed only for a reason of
its own, and `connections` is the number of open sockets, if and only if in every batch the events with
input or output are on the socket of the round. -/
theorem events_owned_iff (rounds : List Round) :
    EveryState step EventsOwned start rounds ↔ EveryStep step BatchOnNewest start rounds := by
  have hkeep : ∀ (s : State) (r : Round) (t : State), Owned s → BatchOnNewest s r →
      step s r = some t → Owned t := fun _ _ _ h hnewest hstep => owned_step h hnewest hstep
  have hfail : ∀ (s : State) (r : Round) (t : State), Owned s → ¬ BatchOnNewest s r →
      step s r = some t → ¬ EventsOwned t := fun _ _ _ h hother hstep => not_owned_of_step h hother hstep
  have hsound : ∀ s : State, Owned s → EventsOwned s :=
    fun _ h => ⟨h.owned, h.counted.connections⟩
  exact everyState_iff_everyStep hkeep hsound hfail rounds start owned_start

/-- The state with `n` connections and no event yet. The sockets are numbered from 4. -/
def gathered (n : Nat) : State := ⟨n, List.range' 4 n, []⟩

theorem mem_gathered {fd n : Nat} : fd ∈ (gathered n).sockets ↔ 4 ≤ fd ∧ fd < 4 + n :=
  List.mem_range'_1

theorem notMem_erase_gathered (fd n : Nat) : fd ∉ ((gathered n).sockets ++ [4 + n]).erase fd := by
  rw [gathered, ← List.range'_1_concat]
  exact (List.nodup_range' 1).not_mem_erase

theorem connect_gathered (n : Nat) : connect (gathered n) (4 + n) = gathered (n + 1) := by
  simp only [connect, gathered, List.range'_1_concat, Nat.cast_add, Nat.cast_one]

/-- Without a batch a round only connects. -/
theorem step_connects {s : State} {r : Round} (hnew : r.sockfd ∉ s.sockets)
    (hbatch : ¬ (s.connections + 1) % 1000 = 0) : step s r = some (connect s r.sockfd) := by
  simp only [step, if_neg hnew]
  exact if_neg hbatch

/-- Before the thousandth connection there is no batch, so the sockets are only gathered. -/
theorem run_gather {n : Nat} (hn : n ≤ 999) :
    run step start ((List.range' 4 n).map fun sockfd => ⟨sockfd, []⟩) = some (gathered n) := by
  induction n with
  | zero => rfl
  | succ n ih =>
      have hbatch : ¬ ((gathered n).connections + 1) % 1000 = 0 := by
        simp only [gathered]
        omega
      have hnew : 4 + n ∉ (gathered n).sockets := by
        rw [mem_gathered]
        omega
      rw [List.range'_1_concat, List.map_append, run_append (ih (by omega)), List.map_singleton,
        run_cons_eq_some]
      exact ⟨gathered (n + 1), connect_gathered n ▸ step_connects hnew hbatch, rfl⟩

/-- If the peer of the new socket has closed it, input on another socket closes that one. -/
theorem step_closes_other {s : State} {fd sockfd : Nat} (hbatch : (s.connections + 1) % 1000 = 0)
    (hopen : fd ∈ s.sockets) (hnew : sockfd ∉ s.sockets) :
    step s ⟨sockfd, [⟨fd, false, true, 0, .other⟩]⟩ =
      some ⟨s.connections + 1 - 1, (s.sockets ++ [sockfd]).erase fd,
        ⟨⟨fd, false, true, 0, .other⟩, some sockfd, true⟩ :: s.handled⟩ := by
  have hdelivers : Delivers (connect s sockfd) [⟨fd, false, true, 0, .other⟩] :=
    ⟨List.nodup_singleton fd, List.forall_mem_singleton.2 (List.mem_append_left _ hopen)⟩
  simp only [step, if_neg hnew]
  rw [if_pos hdelivers]
  exact if_pos hbatch

/-- The thousandth connection is on socket 1003, and there is input on socket 4. The server has closed
socket 1003, so `recv` returns 0 on it, and the healthy socket 4 is closed. -/
theorem events_not_owned_thousandSockets :
    ∃ s, run step start (((List.range' 4 999).map fun sockfd => ⟨sockfd, []⟩) ++
        [⟨1003, [⟨4, false, true, 0, .other⟩]⟩]) = some s ∧
      s.handled = [⟨⟨4, false, true, 0, .other⟩, some 1003, true⟩] ∧ 4 ∉ s.sockets ∧
      ¬ EventsOwned s := by
  have hbatch : ((gathered 999).connections + 1) % 1000 = 0 := by decide
  have hopen : 4 ∈ (gathered 999).sockets := mem_gathered.2 (by omega)
  have hnew : 1003 ∉ (gathered 999).sockets := by
    rw [mem_gathered]
    omega
  have hstep := step_closes_other hbatch hopen hnew
  refine ⟨⟨(gathered 999).connections + 1 - 1, ((gathered 999).sockets ++ [1003]).erase 4, _⟩,
    ?_, rfl, ?_, ?_⟩
  · rw [run_append (run_gather (Nat.le_refl 999)), run_cons_eq_some]
    exact ⟨_, hstep, rfl⟩
  · dsimp only
    exact notMem_erase_gathered 4 999
  · intro howned
    have hused := (howned.owned _ List.mem_cons_self).used 1003 rfl
    cases hused

end CppMisc.C10MClient
