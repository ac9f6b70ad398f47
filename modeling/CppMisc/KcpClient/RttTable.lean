import CppMisc.KcpClient.Model

/-!
# The table printed by `kcp_learn/client.c`

In the sending loop an echo is copied into the slot of the iteration, which is in general not its own, and
overwrites the probe's number and time of sending there. The waiting loop copies each echo into its own
slot, so it repairs the slots from the number of echoes received while sending on. The slots before keep
what the sending loop left in them (`Sending.slot`).

The times of receipt are right in every slot: they are set after the copy, and a slot is not written
again once its own echo was received.
-/

set_option autoImplicit false

namespace CppMisc.KcpClient

/-- The times at which echoes were received in the sending loop. -/
def arrivals (its : List Iteration) : List Int := its.filterMap Iteration.arrival

/-- The number of echoes received before the iteration `k`. -/
def earlier (its : List Iteration) (k : Nat) : Nat := (arrivals (its.take k)).length

/-- The times at which the echoes were received, in order. -/
def receipts (sends : List Iteration) (waits : List (Option Int)) : List Int :=
  arrivals sends ++ waits.filterMap id

/-- Every slot holds the number of its probe, the time at which the probe was sent, and the time at which
its echo was received. -/
def TableRight (sends : List Iteration) (waits : List (Option Int)) (objs : Nat → DelayObj) : Prop :=
  ∀ k < sends.length, (objs k).seqno.toNat = k ∧
    some (objs k).sendTime = sends[k]?.map Iteration.sendTime ∧
    some (objs k).recvTime = (receipts sends waits)[k]?

/-- The part of an object that comes from its probe. -/
def DelayObj.stamp (obj : DelayObj) : UInt16 × Int := (obj.seqno, obj.sendTime)

/-- The stamps of the probes. -/
def stamps (its : List Iteration) : List (UInt16 × Int) :=
  its.mapIdx fun k it => (UInt16.ofNat k, it.sendTime)

/-- The probe whose stamp the sending loop leaves in the slot `k`. -/
def holder (its : List Iteration) (k : Nat) : Nat :=
  match its[k]? with
  | none => k
  | some it => if it.arrival.isSome then earlier its k else k

theorem length_stamps (its : List Iteration) : (stamps its).length = its.length := by
  rw [stamps, List.length_mapIdx]

theorem stamps_snoc (its : List Iteration) (it : Iteration) :
    stamps (its ++ [it]) = stamps its ++ [(UInt16.ofNat its.length, it.sendTime)] := by
  rw [stamps, List.mapIdx_concat]
  rfl

theorem earlier_le (its : List Iteration) (k : Nat) : earlier its k ≤ k :=
  (List.length_filterMap_le _ _).trans (List.length_take_le _ _)

theorem holder_le (its : List Iteration) (k : Nat) : holder its k ≤ k := by
  simp only [holder]
  split
  · exact le_rfl
  · split
    · exact earlier_le its k
    · exact le_rfl

theorem earlier_snoc {its : List Iteration} (it : Iteration) {k : Nat} (hk : k ≤ its.length) :
    earlier (its ++ [it]) k = earlier its k := by
  rw [earlier, earlier, List.take_append_of_le_length hk]

theorem holder_snoc {its : List Iteration} (it : Iteration) {k : Nat} (hk : k < its.length) :
    holder (its ++ [it]) k = holder its k := by
  rw [holder, holder, List.getElem?_append_left hk, earlier_snoc it hk.le]

theorem holder_snoc_last (its : List Iteration) (it : Iteration) :
    holder (its ++ [it]) its.length =
      if it.arrival.isSome then (arrivals its).length else its.length := by
  rw [holder, List.getElem?_concat_length, earlier_snoc it le_rfl, earlier, List.take_length]

theorem length_arrivals_le (its : List Iteration) : (arrivals its).length ≤ its.length :=
  List.length_filterMap_le _ _

/-! ## An echo -/

/-- What receiving an echo does: its stamp goes to the slot `i`, and the time to its own slot. -/
structure Received (s : State) (i : Nat) (now : Int) (stamp : UInt16 × Int) (s' : State) : Prop where
  recvObjs : s'.recvObjs = s.recvObjs + 1
  sent : s'.sent = s.sent
  stamp : (s'.objs i).stamp = stamp
  stamps : ∀ k, k ≠ i → (s'.objs k).stamp = (s.objs k).stamp
  time : (s'.objs s.recvObjs).recvTime = now
  others : ∀ k, k ≠ i → k ≠ s.recvObjs → s'.objs k = s.objs k

theorem received_receive {s : State} (i : Nat) (now : Int) {sent : List (UInt16 × Int)}
    (hsent : s.sent.map DelayObj.stamp = sent) (hlt : s.recvObjs < sent.length) :
    ∃ stamp s', sent[s.recvObjs]? = some stamp ∧ receive s i now = some s' ∧
      Received s i now stamp s' := by
  obtain ⟨stamp, hecho⟩ : ∃ stamp, sent[s.recvObjs]? = some stamp := ⟨_, List.getElem?_eq_getElem hlt⟩
  have hsentAt := hecho
  rw [← hsent, List.getElem?_map] at hsentAt
  obtain ⟨echo, hnext, rfl⟩ := Option.map_eq_some_iff.1 hsentAt
  refine ⟨echo.stamp, ?_⟩
  -- setting the time leaves the stamps alone
  have hstamp : ∀ k, ((Function.update (Function.update s.objs i echo) s.recvObjs
      (delaySetRecvTime (Function.update s.objs i echo s.recvObjs) now)) k).stamp =
        (Function.update s.objs i echo k).stamp := by
    intro k
    by_cases hk : k = s.recvObjs
    · subst hk
      rw [Function.update_self]
      rfl
    · rw [Function.update_of_ne hk]
  refine ⟨{ s with
    objs := Function.update (Function.update s.objs i echo) s.recvObjs
      (delaySetRecvTime (Function.update s.objs i echo s.recvObjs) now)
    recvObjs := s.recvObjs + 1 }, hecho, by rw [receive, hnext], rfl, rfl, ?_,
      fun k hk => ?_, ?_, fun k hk hnot => ?_⟩
  · rw [hstamp, Function.update_self]
  · rw [hstamp, Function.update_of_ne hk]
  · simp only [Function.update_self]
    rfl
  · simp only
    rw [Function.update_of_ne hnot, Function.update_of_ne hk]

/-! ## The sending loop -/

/-- The state after the iterations `done` of the sending loop. -/
structure Sending (done : List Iteration) (s : State) : Prop where
  recvObjs : s.recvObjs = (arrivals done).length
  sent : s.sent.map DelayObj.stamp = stamps done
  slot : ∀ k < done.length, some (s.objs k).stamp = (stamps done)[holder done k]?
  time : ∀ k t, (arrivals done)[k]? = some t → (s.objs k).recvTime = t

theorem sending_start (junk : Nat → DelayObj) : Sending [] ⟨junk, [], 0⟩ :=
  ⟨rfl, rfl, fun _ hk => absurd hk (Nat.not_lt_zero _), fun _ _ h => by cases h⟩

/-- The slots before are not written, and their stamps are still those of the same probes. -/
theorem Sending.slot_snoc {done : List Iteration} {s : State} (h : Sending done s) (it : Iteration)
    {k : Nat} (hk : k < done.length) :
    some (s.objs k).stamp = (stamps (done ++ [it]))[holder (done ++ [it]) k]? := by
  rw [h.slot k hk, holder_snoc it hk, stamps_snoc, List.getElem?_append_left]
  rw [length_stamps]
  exact (holder_le done k).trans_lt hk

/-- The objects that were sent, with the new probe. -/
theorem Sending.sent_snoc {done : List Iteration} {s : State} (h : Sending done s) (it : Iteration) :
    (sendProbe s done.length it.sendTime).sent.map DelayObj.stamp = stamps (done ++ [it]) := by
  rw [stamps_snoc, ← h.sent]
  simp [sendProbe, delaySetSeqnoSendTime, DelayObj.stamp]

/-- An iteration without an echo. -/
theorem Sending.next_none {done : List Iteration} {s : State} (h : Sending done s) {it : Iteration}
    (harrival : it.arrival = none) :
    Sending (done ++ [it]) (sendProbe s done.length it.sendTime) := by
  have harrivals : arrivals (done ++ [it]) = arrivals done := by
    simp [arrivals, harrival]
  refine ⟨by rw [harrivals, ← h.recvObjs]; rfl, h.sent_snoc it, fun k hk => ?_, fun k t ht => ?_⟩
  · rw [List.length_append, List.length_singleton] at hk
    rcases Nat.lt_succ_iff_lt_or_eq.1 hk with hlt | rfl
    · simp only [sendProbe]
      rw [Function.update_of_ne hlt.ne]
      exact h.slot_snoc it hlt
    · rw [holder_snoc_last, harrival, stamps_snoc]
      simp [sendProbe, delaySetSeqnoSendTime, DelayObj.stamp, length_stamps]
  · rw [harrivals] at ht
    obtain ⟨hlt, -⟩ := List.getElem?_eq_some_iff.1 ht
    have hk : k ≠ done.length := (hlt.trans_le (length_arrivals_le done)).ne
    simp only [sendProbe]
    rw [Function.update_of_ne hk]
    exact h.time k t ht

/-- An iteration with an echo. It is copied over the new probe, and its own slot gets the time. -/
theorem Sending.next_some {done : List Iteration} {s : State} (h : Sending done s) {it : Iteration}
    {now : Int} (harrival : it.arrival = some now) :
    ∃ s', receive (sendProbe s done.length it.sendTime) done.length now = some s' ∧
      Sending (done ++ [it]) s' := by
  have harrivals : arrivals (done ++ [it]) = arrivals done ++ [now] := by
    simp [arrivals, harrival]
  have hsent := h.sent_snoc it
  have hle : s.recvObjs ≤ done.length := by
    rw [h.recvObjs]
    exact length_arrivals_le done
  -- the echo that comes next was sent
  have hlt : s.recvObjs < (stamps (done ++ [it])).length := by
    rw [length_stamps, List.length_append, List.length_singleton]
    omega
  obtain ⟨stamp, s', hnext, hs', hreceived⟩ := received_receive done.length now hsent hlt
  have hprobe : ∀ k, k ≠ done.length → (sendProbe s done.length it.sendTime).objs k = s.objs k :=
    fun k hk => Function.update_of_ne hk _ _
  refine ⟨s', hs', ?_, ?_, fun k hk => ?_, fun k t ht => ?_⟩
  · rw [hreceived.recvObjs, harrivals, List.length_append, List.length_singleton, ← h.recvObjs]
    rfl
  · rw [hreceived.sent]
    exact hsent
  · rw [List.length_append, List.length_singleton] at hk
    rcases Nat.lt_succ_iff_lt_or_eq.1 hk with hlt' | rfl
    · rw [hreceived.stamps k hlt'.ne, hprobe k hlt'.ne]
      exact h.slot_snoc it hlt'
    · rw [hreceived.stamp, holder_snoc_last, harrival, Option.isSome_some, if_pos rfl, ← h.recvObjs]
      exact hnext.symm
  · rw [harrivals] at ht
    obtain ⟨hk, -⟩ := List.getElem?_eq_some_iff.1 ht
    rw [List.length_append, List.length_singleton] at hk
    rcases Nat.lt_succ_iff_lt_or_eq.1 hk with hlt' | rfl
    · -- an echo received before has its slot before both that are written
      have hslot : k ≠ done.length := (hlt'.trans_le (length_arrivals_le done)).ne
      have hnext : k ≠ s.recvObjs := by
        rw [h.recvObjs]
        exact hlt'.ne
      rw [hreceived.others k hslot hnext, hprobe k hslot]
      rw [List.getElem?_append_left hlt'] at ht
      exact h.time k t ht
    · rw [List.getElem?_concat_length, Option.some.injEq] at ht
      rw [← ht, ← h.recvObjs]
      exact hreceived.time

/-- The sending loop goes through all its iterations. -/
theorem Sending.loop (its : List Iteration) : ∀ {done : List Iteration} {s : State}, Sending done s →
    ∃ s', sendLoop its done.length s = some s' ∧ Sending (done ++ its) s' := by
  induction its with
  | nil =>
      intro done s h
      exact ⟨s, rfl, by rwa [List.append_nil]⟩
  | cons it its ih =>
      intro done s h
      have happend : done ++ it :: its = done ++ [it] ++ its := by simp
      have hlength : done.length + 1 = (done ++ [it]).length := by simp
      rw [happend]
      simp only [sendLoop]
      cases harrival : it.arrival with
      | none =>
          simp only
          rw [hlength]
          exact ih (h.next_none harrival)
      | some now =>
          obtain ⟨t, ht, hsending⟩ := h.next_some harrival
          simp only [ht, Option.bind_some]
          rw [hlength]
          exact ih hsending

/-! ## The waiting loop -/

/-- The state in the waiting loop, with the times `times` of all echoes received. -/
structure Waiting (sends : List Iteration) (times : List Int) (s : State) : Prop where
  recvObjs : s.recvObjs = times.length
  sent : s.sent.map DelayObj.stamp = stamps sends
  slot : ∀ k < (arrivals sends).length, some (s.objs k).stamp = (stamps sends)[holder sends k]?
  own : ∀ k, (arrivals sends).length ≤ k → k < times.length →
    some (s.objs k).stamp = (stamps sends)[k]?
  time : ∀ k t, times[k]? = some t → (s.objs k).recvTime = t

theorem Sending.waiting {sends : List Iteration} {s : State} (h : Sending sends s) :
    Waiting sends (arrivals sends) s :=
  ⟨h.recvObjs, h.sent, fun k hk => h.slot k (hk.trans_le (length_arrivals_le sends)),
    fun _ hle hlt => absurd hlt (Nat.not_lt.2 hle), h.time⟩

/-- An echo is copied into its own slot. -/
theorem Waiting.next {sends : List Iteration} {times : List Int} {s : State}
    (h : Waiting sends times s) (hle : (arrivals sends).length ≤ times.length)
    (hlt : times.length < sends.length) (now : Int) :
    ∃ s', receive s s.recvObjs now = some s' ∧ Waiting sends (times ++ [now]) s' := by
  have hstamp : s.recvObjs < (stamps sends).length := by
    rw [length_stamps, h.recvObjs]
    exact hlt
  obtain ⟨stamp, s', hecho, hs', hreceived⟩ := received_receive s.recvObjs now h.sent hstamp
  have hother : ∀ k < times.length, k ≠ s.recvObjs := by
    intro k hk
    rw [h.recvObjs]
    exact hk.ne
  refine ⟨s', hs', ?_, ?_, fun k hk => ?_, fun k hge hk => ?_, fun k t ht => ?_⟩
  · rw [hreceived.recvObjs, h.recvObjs, List.length_append, List.length_singleton]
  · rw [hreceived.sent]
    exact h.sent
  · rw [hreceived.stamps k (hother k (hk.trans_le hle))]
    exact h.slot k hk
  · rw [List.length_append, List.length_singleton] at hk
    rcases Nat.lt_succ_iff_lt_or_eq.1 hk with hk | rfl
    · rw [hreceived.stamps k (hother k hk)]
      exact h.own k hge hk
    · rw [← h.recvObjs, hreceived.stamp]
      exact hecho.symm
  · obtain ⟨hk, -⟩ := List.getElem?_eq_some_iff.1 ht
    rw [List.length_append, List.length_singleton] at hk
    rcases Nat.lt_succ_iff_lt_or_eq.1 hk with hk | rfl
    · rw [hreceived.others k (hother k hk) (hother k hk)]
      rw [List.getElem?_append_left hk] at ht
      exact h.time k t ht
    · rw [List.getElem?_concat_length, Option.some.injEq] at ht
      rw [← ht, ← h.recvObjs]
      exact hreceived.time

/-- When enough echoes arrive, the waiting loop ends with all of them received. -/
theorem Waiting.loop {sends : List Iteration} (waits : List (Option Int)) :
    ∀ {times : List Int} {s : State}, Waiting sends times s → (arrivals sends).length ≤ times.length →
      times.length ≤ sends.length → sends.length ≤ (times ++ waits.filterMap id).length →
        ∃ s', waitLoop sends.length waits s.recvObjs s = some s' ∧
          Waiting sends ((times ++ waits.filterMap id).take sends.length) s' := by
  induction waits with
  | nil =>
      intro times s h hle hshort henough
      simp only [List.filterMap_nil, List.append_nil] at henough ⊢
      have hend : ¬ s.recvObjs < sends.length := by
        rw [h.recvObjs]
        exact Nat.not_lt.2 henough
      refine ⟨s, by rw [waitLoop, if_neg hend], ?_⟩
      rwa [List.take_of_length_le hshort]
  | cons arrival waits ih =>
      intro times s h hle hshort henough
      simp only [waitLoop]
      split
      · next hmore =>
          rw [h.recvObjs] at hmore
          cases arrival with
          | none => exact ih h hle hshort henough
          | some now =>
              obtain ⟨t, ht, hwaiting⟩ := h.next hle hmore now
              have hlength : (times ++ [now]).length = times.length + 1 := by simp
              have hnext : s.recvObjs + 1 = t.recvObjs := by
                rw [hwaiting.recvObjs, hlength, h.recvObjs]
              have happend : times ++ (some now :: waits).filterMap id =
                  times ++ [now] ++ waits.filterMap id := by simp
              rw [happend] at henough ⊢
              simp only [ht, Option.bind_some, hnext]
              exact ih hwaiting (by omega) (by omega) henough
      · next hend =>
          -- all echoes have been received
          rw [h.recvObjs] at hend
          refine ⟨s, rfl, ?_⟩
          rwa [List.take_append_of_le_length (Nat.le_of_not_lt hend),
            List.take_of_length_le hshort]

/-! ## The table -/

/-- The last echoes received are the first of all that arrive. -/
theorem delayTest2_spec (junk : Nat → DelayObj) {sends : List Iteration} {waits : List (Option Int)}
    (hall : sends.length ≤ (receipts sends waits).length) :
    ∃ s, delayTest2 junk sends waits = some s.objs ∧
      Waiting sends ((receipts sends waits).take sends.length) s := by
  obtain ⟨t, ht, hsending⟩ := (sending_start junk).loop sends
  rw [List.nil_append] at hsending
  obtain ⟨s, hs, hwaiting⟩ := hsending.waiting.loop waits le_rfl (length_arrivals_le sends) hall
  refine ⟨s, ?_, hwaiting⟩
  rw [List.length_nil] at ht
  rw [delayTest2, ht, Option.bind_some, hs, Option.map_some]

/-- The probe whose stamp is in the slot `k` at the end. -/
def owner (sends : List Iteration) (k : Nat) : Nat :=
  if k < (arrivals sends).length then holder sends k else k

theorem owner_le (sends : List Iteration) (k : Nat) : owner sends k ≤ k := by
  rw [owner]
  split
  · exact holder_le sends k
  · exact le_rfl

theorem Waiting.stamp {sends : List Iteration} {times : List Int} {s : State}
    (h : Waiting sends times s) (hlength : times.length = sends.length) {k : Nat}
    (hk : k < sends.length) :
    (s.objs k).seqno = UInt16.ofNat (owner sends k) ∧
      some (s.objs k).sendTime = sends[owner sends k]?.map Iteration.sendTime := by
  have hstamp : some (s.objs k).stamp = (stamps sends)[owner sends k]? := by
    rw [owner]
    split
    · next hlt => exact h.slot k hlt
    · next hge => exact h.own k (Nat.le_of_not_lt hge) (hlength.symm ▸ hk)
  have howner := (owner_le sends k).trans_lt hk
  rw [stamps, List.getElem?_mapIdx, List.getElem?_eq_getElem howner, Option.map_some,
    Option.some.injEq] at hstamp
  rw [List.getElem?_eq_getElem howner, Option.map_some]
  exact ⟨congrArg Prod.fst hstamp, congrArg (fun x => some x.2) hstamp⟩

/-- Every slot is left to its own probe exactly when the echoes that overwrite slots are the right ones. -/
theorem owner_eq_self_iff (sends : List Iteration) :
    (∀ k < sends.length, owner sends k = k) ↔ ∀ i < (arrivals sends).length, ∀ it,
      sends[i]? = some it → it.arrival.isSome = true → earlier sends i = i := by
  constructor
  · intro hall i hi it hit harrival
    have hself := hall i (hi.trans_le (length_arrivals_le sends))
    simpa only [owner, if_pos hi, holder, hit, harrival, if_true] using hself
  · intro hright k _
    rw [owner]
    split
    · next hlt =>
        simp only [holder]
        split
        · rfl
        · next it hit =>
            split
            · next harrival => exact hright k hlt it hit harrival
            · rfl
    · rfl

/-- **The table of round-trip times.** For every number of probes and every pattern of iterations in which
the echoes arrive, as long as all of them do: the table is printed, and every slot holds the number of its
probe, its time of sending and the time at which its echo was received, if and only if there are at most
65536 probes, and every echo received in an iteration of the sending loop whose number is below the number
of all echoes received in that loop is the echo of the probe of the iteration. -/
theorem rtt_table_right_iff (junk : Nat → DelayObj) (sends : List Iteration) (waits : List (Option Int))
    (hall : sends.length ≤ (receipts sends waits).length) :
    ∃ objs, delayTest2 junk sends waits = some objs ∧ (TableRight sends waits objs ↔
      sends.length ≤ 65536 ∧ ∀ i < (arrivals sends).length, ∀ it, sends[i]? = some it →
        it.arrival.isSome = true → earlier sends i = i) := by
  obtain ⟨s, hs, h⟩ := delayTest2_spec junk hall
  have hlength : ((receipts sends waits).take sends.length).length = sends.length :=
    List.length_take_of_le hall
  refine ⟨s.objs, hs, ?_⟩
  rw [← owner_eq_self_iff]
  constructor
  · intro hright
    have hshort : sends.length ≤ 65536 := by
      by_contra hlong
      have hlast := (hright 65536 (by omega)).1
      have hbound := (s.objs 65536).seqno.toNat_lt
      omega
    refine ⟨hshort, fun k hk => ?_⟩
    -- the number in the slot is that of its owner, which is too small to wrap
    have hseqno := (hright k hk).1
    have hle := owner_le sends k
    rw [(h.stamp hlength hk).1, UInt16.toNat_ofNat'] at hseqno
    omega
  · rintro ⟨hshort, hself⟩ k hk
    obtain ⟨hseqno, hsendTime⟩ := h.stamp hlength hk
    rw [hself k hk] at hseqno hsendTime
    refine ⟨?_, hsendTime, ?_⟩
    · rw [hseqno, UInt16.toNat_ofNat']
      omega
    · have hget : ((receipts sends waits).take sends.length)[k]? = (receipts sends waits)[k]? :=
        List.getElem?_take_of_lt hk
      have hreceived : k < (receipts sends waits).length := hk.trans_le hall
      rw [List.getElem?_eq_getElem hreceived] at hget ⊢
      rw [h.time k _ hget]

/-- Control: the first echo arrives in the first iteration, the others while waiting. -/
theorem rtt_table_right_firstEcho :
    ∃ objs, delayTest2 (fun _ => ⟨0, 0, 0⟩) [⟨10, some 11⟩, ⟨20, none⟩, ⟨30, none⟩]
        [none, some 40, some 50] = some objs ∧
      TableRight [⟨10, some 11⟩, ⟨20, none⟩, ⟨30, none⟩] [none, some 40, some 50] objs := by
  obtain ⟨objs, hobjs, hiff⟩ := rtt_table_right_iff (fun _ => ⟨0, 0, 0⟩)
    [⟨10, some 11⟩, ⟨20, none⟩, ⟨30, none⟩] [none, some 40, some 50] (by decide)
  refine ⟨objs, hobjs, hiff.2 ⟨by decide, fun i hi it _ _ => ?_⟩⟩
  obtain rfl : i = 0 := Nat.lt_one_iff.1 hi
  rfl

/-- The echo 0 arrives in the iteration 1 and the echo 1 in the iteration 2. The slot 1 keeps the number
and the time of the probe 0, so a round-trip time of 25 is printed for the probe 1 instead of 15. -/
theorem rtt_table_wrong_lateEchoes :
    ∃ objs, delayTest2 (fun _ => ⟨0, 0, 0⟩) [⟨10, none⟩, ⟨20, some 25⟩, ⟨30, some 35⟩] [some 40] =
        some objs ∧
      delayPrintRttTime objs 3 = [(0, 0, 15), (1, 0, 25), (2, 2, 10)] ∧
      ¬ TableRight [⟨10, none⟩, ⟨20, some 25⟩, ⟨30, some 35⟩] [some 40] objs := by
  refine ⟨_, rfl, by decide, fun hright => ?_⟩
  obtain ⟨hseqno, -⟩ := hright 1 (by decide)
  revert hseqno
  decide

end CppMisc.KcpClient
