import CppMisc.ThreadPool.Workers

/-!
# What `thread_pool_remove_workers` removes

The call clamps its argument to one less than the number of workers that are not flagged yet, and then counts
it down to 0 in two loops over the worker list, the first for idle and the second for running workers. Each
loop flags the first candidates of the list, as many as are wanted (`flagLoop_spec`). The clamp has an upper
bound only: a negative argument never becomes 0 on the way down, and the two loops flag everybody, against
the comment that at least one worker is kept. `remove_workers_keeps_one_iff` says that negative arguments are
all that goes wrong.
-/

set_option autoImplicit false

namespace CppMisc.ThreadPool

open CppMisc.Library

/-- The `running` field of a thread. -/
def runningOf (threads : List Worker) (i : Nat) : Bool := (threads[i]?.map Worker.running).getD false

/-- The call as one step: the flags and the broadcast. -/
def removeWorkersAtOnce (tp : Pool) (workerNum : Int) : Option Pool :=
  (threadPoolRemoveWorkers tp workerNum).bind removeBroadcast

/-- The registered workers that are not flagged to terminate. -/
def unflaggedNum (tp : Pool) : Nat := tp.workers.countP fun i => !terminateOf tp.threads i

/-- The registered workers that have been flagged between two states. -/
def newlyFlagged (tp tp' : Pool) : List Nat :=
  tp.workers.filter fun i => terminateOf tp'.threads i && !terminateOf tp.threads i

/-- No call is under way, the list names different threads, and the counters agree with it. -/
structure Counted (tp : Pool) : Prop where
  free : tp.removing = none
  nodup : tp.workers.Nodup
  lt : ∀ i ∈ tp.workers, i < tp.threads.length
  counters : Bookkeeping tp

/-- What the call is for. -/
structure Removal (tp : Pool) (workerNum : Int) (tp' : Pool) : Prop where
  number : ((newlyFlagged tp tp').length : Int) = min (max workerNum 0) ((unflaggedNum tp : Int) - 1)
  kept : ∀ i, terminateOf tp.threads i = true → terminateOf tp'.threads i = true
  others : ∀ i, i ∉ tp.workers → terminateOf tp'.threads i = terminateOf tp.threads i
  idleFirst : ∀ i ∈ newlyFlagged tp tp', runningOf tp.threads i = true →
    ∀ j ∈ tp.workers, runningOf tp.threads j = false → terminateOf tp'.threads j = true
  counter : tp'.terminateWorkersNum = tp.terminateWorkersNum + (newlyFlagged tp tp').length
  keepsOne : ∃ i ∈ tp.workers, terminateOf tp'.threads i = false

/-! ## The two loops -/

/-- Exactly the threads of `flagged` have been flagged, each of them counted. -/
structure Flags (tp : Pool) (flagged : List Nat) (tp' : Pool) : Prop where
  terminate : ∀ i, terminateOf tp'.threads i = (terminateOf tp.threads i || decide (i ∈ flagged))
  running : ∀ i, runningOf tp'.threads i = runningOf tp.threads i
  length : tp'.threads.length = tp.threads.length
  counter : tp'.terminateWorkersNum = tp.terminateWorkersNum + flagged.length

theorem flags_nil (tp : Pool) : Flags tp [] tp where
  terminate i := by simp
  running _ := rfl
  length := rfl
  counter := by simp

theorem Flags.trans {tp tp₁ tp₂ : Pool} {l₁ l₂ : List Nat} (h₁ : Flags tp l₁ tp₁)
    (h₂ : Flags tp₁ l₂ tp₂) : Flags tp (l₁ ++ l₂) tp₂ where
  terminate i := by simp only [h₂.terminate, h₁.terminate, Bool.or_assoc, List.mem_append, Bool.decide_or]
  running i := (h₂.running i).trans (h₁.running i)
  length := h₂.length.trans h₁.length
  counter := by
    have hfirst := h₁.counter
    have hsecond := h₂.counter
    rw [List.length_append]
    push_cast
    omega

theorem runningOf_eq {threads : List Worker} {i : Nat} {w : Worker} (h : threads[i]? = some w) :
    runningOf threads i = w.running := by
  simp [runningOf, h]

theorem flags_flagWorker {tp : Pool} {i : Nat} {w : Worker} (h : tp.threads[i]? = some w) :
    Flags tp [i] (flagWorker tp i w) where
  terminate j := by
    simp only [flagWorker, terminateOf_set h, List.mem_singleton]
    by_cases hj : j = i
    · simp [hj]
    · simp [hj]
  running j := by
    by_cases hj : j = i
    · obtain ⟨hlt, rfl⟩ := List.getElem?_eq_some_iff.1 h
      simp [flagWorker, runningOf, hj, hlt]
    · simp [flagWorker, runningOf, List.getElem?_set_ne (Ne.symm hj)]
  length := by simp [flagWorker]
  counter := rfl

/-- A worker that a loop may flag. -/
def candidate (wanted : Bool) (tp : Pool) (i : Nat) : Bool :=
  !terminateOf tp.threads i && runningOf tp.threads i == wanted

/-- What a loop flags: the first `workerNum` candidates, or all of them if `workerNum` is negative. -/
def chosen (wanted : Bool) (tp : Pool) (workers : List Nat) (workerNum : Int) : List Nat :=
  if 0 ≤ workerNum then (workers.filter (candidate wanted tp)).take workerNum.toNat
  else workers.filter (candidate wanted tp)

/-- Flagging other threads does not change who is a candidate. -/
theorem filter_candidate_of_flags (wanted : Bool) (workers : List Nat) {tp tp' : Pool} {flagged : List Nat}
    (h : Flags tp flagged tp') (hout : ∀ i ∈ workers, i ∈ flagged → candidate wanted tp i = false) :
    workers.filter (candidate wanted tp') = workers.filter (candidate wanted tp) := by
  refine List.filter_congr fun i hi => ?_
  by_cases hflag : i ∈ flagged
  · rw [hout i hi hflag]
    simp [candidate, h.terminate, hflag]
  · simp [candidate, h.terminate, h.running, hflag]

theorem chosen_congr {wanted : Bool} {tp tp' : Pool} {workers : List Nat}
    (h : workers.filter (candidate wanted tp') = workers.filter (candidate wanted tp)) (workerNum : Int) :
    chosen wanted tp' workers workerNum = chosen wanted tp workers workerNum := by
  rw [chosen, chosen, h]

/-- A candidate at the front is chosen, and the number for the rest is lower by one. -/
theorem chosen_cons_of_candidate {wanted : Bool} {tp : Pool} {i : Nat} (workers : List Nat)
    (h : candidate wanted tp i = true) {n : Int} (hn : n ≠ 0) :
    chosen wanted tp (i :: workers) n = i :: chosen wanted tp workers (n - 1) := by
  rw [chosen, chosen, List.filter_cons_of_pos h]
  by_cases hpos : 0 ≤ n
  · rw [if_pos hpos, if_pos (by omega)]
    obtain ⟨k, hk⟩ : ∃ k, n.toNat = k + 1 := ⟨n.toNat - 1, by omega⟩
    have hk' : (n - 1).toNat = k := by omega
    rw [hk, hk', List.take_succ_cons]
  · -- below zero the number never runs out
    rw [if_neg hpos, if_neg (by omega)]

theorem chosen_cons_of_not_candidate {wanted : Bool} {tp : Pool} {i : Nat} (workers : List Nat)
    (h : candidate wanted tp i = false) (n : Int) :
    chosen wanted tp (i :: workers) n = chosen wanted tp workers n := by
  rw [chosen, chosen, List.filter_cons_of_neg (by simp [h])]

/-- A loop flags what it chooses and lowers its number by that many. The induction is on the list, with the
pool that the workers before have been flagged in. -/
theorem flagLoop_spec (wanted : Bool) (workers : List Nat) : ∀ (workerNum : Int) (tp : Pool),
    workers.Nodup → (∀ i ∈ workers, i < tp.threads.length) →
      (flagLoop wanted workers workerNum tp).1 =
        workerNum - (chosen wanted tp workers workerNum).length ∧
      Flags tp (chosen wanted tp workers workerNum) (flagLoop wanted workers workerNum tp).2 := by
  induction workers with
  | nil =>
      intro n tp _ _
      have hnone : chosen wanted tp [] n = [] := by simp [chosen]
      rw [hnone]
      exact ⟨by simp [flagLoop], flags_nil tp⟩
  | cons i workers ih =>
      intro n tp hnodup hlt
      obtain ⟨hfresh, hrest⟩ := List.nodup_cons.1 hnodup
      have hltRest : ∀ j ∈ workers, j < tp.threads.length :=
        fun j hj => hlt j (List.mem_cons_of_mem i hj)
      have hget : tp.threads[i]? = some (tp.threads.get ⟨i, hlt i List.mem_cons_self⟩) :=
        List.getElem?_eq_getElem _
      generalize tp.threads.get ⟨i, hlt i List.mem_cons_self⟩ = w at hget
      by_cases hzero : n = 0
      · -- the loop is left
        have hnone : chosen wanted tp (i :: workers) n = [] := by simp [chosen, hzero]
        rw [hnone, flagLoop, if_pos hzero]
        exact ⟨by simp, flags_nil tp⟩
      · rw [flagLoop, if_neg hzero, hget]
        by_cases hcand : w.terminate = false ∧ w.running = wanted
        · have hthis : candidate wanted tp i = true := by
            simp [candidate, terminateOf_eq hget, runningOf_eq hget, hcand]
          have hflags := flags_flagWorker hget
          obtain ⟨hnum, hfl⟩ := ih (n - 1) (flagWorker tp i w) hrest fun j hj => by
            rw [hflags.length]
            exact hltRest j hj
          -- nothing changes for the rest of the list
          have hsame : workers.filter (candidate wanted (flagWorker tp i w)) =
              workers.filter (candidate wanted tp) :=
            filter_candidate_of_flags wanted workers hflags fun j hj hji =>
              absurd (List.mem_singleton.1 hji ▸ hj) hfresh
          have hstep : chosen wanted tp (i :: workers) n =
              i :: chosen wanted (flagWorker tp i w) workers (n - 1) := by
            rw [chosen_congr hsame, chosen_cons_of_candidate workers hthis hzero]
          simp only [if_pos hcand]
          rw [hstep]
          refine ⟨?_, hflags.trans hfl⟩
          rw [hnum, List.length_cons]
          push_cast
          omega
        · have hthis : candidate wanted tp i = false := by
            rw [candidate, terminateOf_eq hget, runningOf_eq hget]
            cases ht : w.terminate with
            | true => rfl
            | false =>
                have hrun : w.running ≠ wanted := fun he => hcand ⟨ht, he⟩
                simpa using hrun
          simp only [if_neg hcand]
          rw [chosen_cons_of_not_candidate workers hthis]
          exact ih n tp hrest hltRest

theorem chosen_sublist (wanted : Bool) (tp : Pool) (workers : List Nat) (workerNum : Int) :
    (chosen wanted tp workers workerNum).Sublist (workers.filter (candidate wanted tp)) := by
  unfold chosen
  split
  · exact List.take_sublist _ _
  · exact List.Sublist.refl _

theorem candidate_of_mem_chosen {wanted : Bool} {tp : Pool} {workers : List Nat} {workerNum : Int} {i : Nat}
    (h : i ∈ chosen wanted tp workers workerNum) : i ∈ workers ∧ candidate wanted tp i = true :=
  List.mem_filter.1 ((chosen_sublist wanted tp workers workerNum).subset h)

theorem candidate_iff {wanted : Bool} {tp : Pool} {i : Nat} :
    candidate wanted tp i = true ↔ terminateOf tp.threads i = false ∧ runningOf tp.threads i = wanted := by
  simp [candidate]

/-- The idle and the running workers that a call flags. -/
def chosenBoth (tp : Pool) (target : Int) : List Nat :=
  chosen false tp tp.workers target ++
    chosen true tp tp.workers (target - (chosen false tp tp.workers target).length)

/-- Both loops of the call. -/
theorem flagWorkers_spec {tp : Pool} (h : Counted tp) (workerNum : Int) :
    Flags tp (chosenBoth tp (removeTarget tp workerNum)) (flagWorkers tp workerNum) := by
  obtain ⟨hnum, hidle⟩ := flagLoop_spec false tp.workers (removeTarget tp workerNum) tp h.nodup h.lt
  have hlt : ∀ i ∈ tp.workers,
      i < (flagLoop false tp.workers (removeTarget tp workerNum) tp).2.threads.length := by
    intro i hi
    rw [hidle.length]
    exact h.lt i hi
  have hbusy := (flagLoop_spec true tp.workers
    (flagLoop false tp.workers (removeTarget tp workerNum) tp).1 _ h.nodup hlt).2
  -- an idle worker is no candidate of the second loop
  have hsame := filter_candidate_of_flags true tp.workers hidle fun i _ hi => by
    have hidle := candidate_iff.1 (candidate_of_mem_chosen hi).2
    simp [candidate, hidle.2]
  rw [chosen, hsame] at hbusy
  rw [chosenBoth, ← hnum]
  exact hidle.trans hbusy

section Chosen

variable {tp : Pool}

theorem chosenBoth_nodup (h : Counted tp) (target : Int) : (chosenBoth tp target).Nodup := by
  refine List.nodup_append.2 ⟨?_, ?_, ?_⟩
  · exact (chosen_sublist _ _ _ _).nodup (h.nodup.filter _)
  · exact (chosen_sublist _ _ _ _).nodup (h.nodup.filter _)
  · rintro i hi j hj rfl
    have hidle := (candidate_iff.1 (candidate_of_mem_chosen hi).2).2
    have hbusy := (candidate_iff.1 (candidate_of_mem_chosen hj).2).2
    rw [hidle] at hbusy
    cases hbusy

theorem mem_of_mem_chosenBoth {target : Int} {i : Nat} (h : i ∈ chosenBoth tp target) :
    i ∈ tp.workers ∧ terminateOf tp.threads i = false := by
  rcases List.mem_append.1 h with h | h
  · exact ⟨(candidate_of_mem_chosen h).1, (candidate_iff.1 (candidate_of_mem_chosen h).2).1⟩
  · exact ⟨(candidate_of_mem_chosen h).1, (candidate_iff.1 (candidate_of_mem_chosen h).2).1⟩

/-- The newly flagged workers are those that the loops chose. -/
theorem perm_newlyFlagged (h : Counted tp) {target : Int} {tp' : Pool}
    (hflags : Flags tp (chosenBoth tp target) tp') :
    (newlyFlagged tp tp').Perm (chosenBoth tp target) := by
  refine (List.perm_ext_iff_of_nodup (h.nodup.filter _) (chosenBoth_nodup h target)).2 fun i => ?_
  rw [List.mem_filter, hflags.terminate]
  constructor
  · rintro ⟨-, hnew⟩
    cases hold : terminateOf tp.threads i with
    | true => simp [hold] at hnew
    | false => simpa [hold] using hnew
  · intro hi
    obtain ⟨hmem, hold⟩ := mem_of_mem_chosenBoth hi
    simp [hmem, hold, hi]

theorem unflaggedNum_eq (tp : Pool) :
    unflaggedNum tp = (tp.workers.filter (candidate false tp)).length +
      (tp.workers.filter (candidate true tp)).length := by
  unfold unflaggedNum
  induction tp.workers with
  | nil => rfl
  | cons i workers ih =>
      cases ht : terminateOf tp.threads i with
      | true => simp [candidate, ht, ih]
      | false =>
          cases hr : runningOf tp.threads i with
          | true => simp [candidate, ht, hr, ih, Nat.add_assoc]
          | false => simp [candidate, ht, hr, ih, Nat.add_right_comm]

theorem flaggedNum_add_unflaggedNum (tp : Pool) : flaggedNum tp + unflaggedNum tp = tp.workers.length := by
  have hsplit := List.length_eq_countP_add_countP (terminateOf tp.threads) (l := tp.workers)
  simpa [flaggedNum, unflaggedNum] using hsplit.symm

theorem length_chosen_of_nonneg (wanted : Bool) (tp : Pool) (workers : List Nat) {workerNum : Int}
    (h : 0 ≤ workerNum) : (chosen wanted tp workers workerNum).length =
      min workerNum.toNat (workers.filter (candidate wanted tp)).length := by
  rw [chosen, if_pos h, List.length_take]

/-- A target below the number of unflagged workers is met. -/
theorem length_chosenBoth {target : Int} (hpos : 0 ≤ target) (hlt : target < unflaggedNum tp) :
    ((chosenBoth tp target).length : Int) = target := by
  have hsum := unflaggedNum_eq tp
  have hidle := length_chosen_of_nonneg false tp tp.workers hpos
  have hbusy := length_chosen_of_nonneg true tp tp.workers
    (show 0 ≤ target - (chosen false tp tp.workers target).length by omega)
  rw [chosenBoth, List.length_append]
  push_cast
  omega

/-- A negative target is never reached, and everybody is flagged. -/
theorem length_chosenBoth_of_neg {target : Int} (hneg : target < 0) :
    (chosenBoth tp target).length = unflaggedNum tp := by
  rw [chosenBoth, List.length_append, unflaggedNum_eq, chosen, chosen, if_neg (by omega), if_neg (by omega)]

/-- A running worker is chosen only behind all idle ones. -/
theorem chosen_idle_of_busy {target : Int} (hpos : 0 ≤ target) {i : Nat}
    (hi : i ∈ chosen true tp tp.workers (target - (chosen false tp tp.workers target).length)) :
    chosen false tp tp.workers target = tp.workers.filter (candidate false tp) := by
  have hidle := length_chosen_of_nonneg false tp tp.workers hpos
  have hbusy := length_chosen_of_nonneg true tp tp.workers
    (show 0 ≤ target - (chosen false tp tp.workers target).length by omega)
  have hsome := List.length_pos_of_mem hi
  apply (chosen_sublist false tp tp.workers target).eq_of_length
  omega

end Chosen

/-! ## The call -/

theorem runningOf_broadcast (threads : List Worker) :
    runningOf (jobsCond.broadcast threads) = runningOf threads := by
  funext i
  cases hw : threads[i]? with
  | none => simp [runningOf, CondVar.broadcast, hw]
  | some w =>
      by_cases hb : w.pc = .blocked
      · simp [runningOf, CondVar.broadcast, hw, hb]
      · simp [runningOf, CondVar.broadcast, hw, hb]

/-- The call ends, and it has flagged what its loops chose. -/
theorem flags_removeWorkersAtOnce {tp : Pool} (h : Counted tp) (hsome : tp.workers ≠ []) (workerNum : Int) :
    ∃ tp', removeWorkersAtOnce tp workerNum = some tp' ∧
      Flags tp (chosenBoth tp (removeTarget tp workerNum)) tp' := by
  have hspec := flagWorkers_spec h workerNum
  have hcall : ∃ tp', removeWorkersAtOnce tp workerNum = some tp' ∧
      tp'.threads = jobsCond.broadcast (flagWorkers tp workerNum).threads ∧
      tp'.terminateWorkersNum = (flagWorkers tp workerNum).terminateWorkersNum := by
    simp [removeWorkersAtOnce, threadPoolRemoveWorkers, removeBroadcast, h.free, hsome]
  obtain ⟨tp', hdone, hthreads, hcounter⟩ := hcall
  refine ⟨tp', hdone, ?_, ?_, ?_, ?_⟩
  · intro i
    rw [hthreads, terminateOf_broadcast]
    exact hspec.terminate i
  · intro i
    rw [hthreads, runningOf_broadcast]
    exact hspec.running i
  · rw [hthreads]
    simpa [CondVar.broadcast] using hspec.length
  · rw [hcounter]
    exact hspec.counter

section Call

variable {tp tp' : Pool} {workerNum : Int}

/-- The clamp, in a state whose counters are right. -/
theorem removeTarget_eq (h : Counted tp) (workerNum : Int) :
    removeTarget tp workerNum =
      if workerNum ≥ unflaggedNum tp then (unflaggedNum tp : Int) - 1 else workerNum := by
  obtain ⟨htotal, hflagged, -, -⟩ := h.counters
  have hsum := flaggedNum_add_unflaggedNum tp
  have hcan : tp.totalWorkersNum - tp.terminateWorkersNum = unflaggedNum tp := by omega
  rw [removeTarget, hcan]

theorem removal_of_flags (h : Counted tp) {target : Int} (hpos : 0 ≤ target)
    (hlt : target < unflaggedNum tp) (htarget : target = min (max workerNum 0) ((unflaggedNum tp : Int) - 1))
    (hflags : Flags tp (chosenBoth tp target) tp') : Removal tp workerNum tp' := by
  have hperm := perm_newlyFlagged h hflags
  have hlen := length_chosenBoth hpos hlt
  refine ⟨by rw [hperm.length_eq, hlen, htarget], ?_, ?_, ?_, by rw [hperm.length_eq]; exact hflags.counter,
    ?_⟩
  · intro i hi
    rw [hflags.terminate, hi]
    rfl
  · intro i hi
    have hout : i ∉ chosenBoth tp target := fun hmem => hi (mem_of_mem_chosenBoth hmem).1
    rw [hflags.terminate]
    simp [hout]
  · intro i hi hrun j hj hidle
    rw [hflags.terminate, Bool.or_eq_true, decide_eq_true_eq]
    by_cases hold : terminateOf tp.threads j = true
    · exact .inl hold
    · right
      rcases List.mem_append.1 (hperm.mem_iff.1 hi) with hi | hi
      · have hnot := (candidate_iff.1 (candidate_of_mem_chosen hi).2).2
        rw [hrun] at hnot
        cases hnot
      · -- a running worker was chosen, so the idle ones have all been chosen before
        apply List.mem_append_left
        rw [chosen_idle_of_busy hpos hi]
        exact List.mem_filter.2 ⟨hj, candidate_iff.2 ⟨by simpa using hold, hidle⟩⟩
  · -- with nobody left, all the unflagged workers would have been chosen, which is one too many
    by_contra hnone
    have hsub : tp.workers.filter (fun i => !terminateOf tp.threads i) ⊆ chosenBoth tp target := by
      intro i hi
      obtain ⟨hmem, hfree⟩ := List.mem_filter.1 hi
      have hold : terminateOf tp.threads i = false := by simpa using hfree
      have hnew : terminateOf tp'.threads i = true := by
        by_contra hstill
        exact hnone ⟨i, hmem, by simpa using hstill⟩
      rw [hflags.terminate, hold] at hnew
      simpa using hnew
    have hle := ((h.nodup.filter _).subperm hsub).length_le
    rw [← List.countP_eq_length_filter] at hle
    have hcount : tp.workers.countP (fun i => !terminateOf tp.threads i) = unflaggedNum tp := rfl
    omega

/-- **What the call removes.** In every state whose counters agree with the worker list and in which some
registered worker is not flagged, `thread_pool_remove_workers` flags the right number of workers, idle ones
first, counts them and keeps one, exactly when its argument is not negative. -/
theorem remove_workers_keeps_one_iff (tp : Pool) (h : Counted tp)
    (hsome : ∃ i ∈ tp.workers, terminateOf tp.threads i = false) (workerNum : Int) :
    (∃ tp', removeWorkersAtOnce tp workerNum = some tp' ∧ Removal tp workerNum tp') ↔ 0 ≤ workerNum := by
  obtain ⟨i, hi, hfree⟩ := hsome
  have hunflagged : 0 < unflaggedNum tp := List.countP_pos_iff.2 ⟨i, hi, by simp [hfree]⟩
  have htarget := removeTarget_eq h workerNum
  obtain ⟨tp', hdone, hflags⟩ := flags_removeWorkersAtOnce h (List.ne_nil_of_mem hi) workerNum
  constructor
  · rintro ⟨tp'', hdone', hremoval⟩
    obtain rfl : tp' = tp'' := Option.some.inj (hdone.symm.trans hdone')
    by_contra hneg
    -- a negative target passes the clamp and never reaches zero, so both loops flag everybody
    rw [htarget, if_neg (by omega)] at hflags
    have hall := (perm_newlyFlagged h hflags).length_eq
    rw [length_chosenBoth_of_neg (by omega)] at hall
    have hnumber := hremoval.number
    omega
  · intro hpos
    refine ⟨tp', hdone, ?_⟩
    -- the clamp leaves at least one worker out
    rw [htarget] at hflags
    split at hflags
    · exact removal_of_flags h (by omega) (by omega) (by omega) hflags
    · exact removal_of_flags h (by omega) (by omega) (by omega) hflags

end Call

/-- Two registered workers, both idle. -/
def twoWorkers : Pool :=
  { initial with
    threads := [⟨.test, false, false⟩, ⟨.test, false, false⟩]
    workers := [1, 0]
    totalWorkersNum := 2 }

theorem twoWorkers_counted : Counted twoWorkers where
  free := rfl
  nodup := by decide
  lt := by decide
  counters := ⟨by decide, by decide, by decide, by decide⟩

theorem remove_workers_keeps_one_twoWorkers :
    ∃ tp', removeWorkersAtOnce twoWorkers 5 = some tp' ∧ Removal twoWorkers 5 tp' :=
  (remove_workers_keeps_one_iff twoWorkers twoWorkers_counted ⟨0, by decide, by decide⟩ 5).2 (by decide)

/-- Control: an argument of -1 flags both workers. -/
theorem remove_minus_one_flags_all :
    ¬ ∀ tp : Pool, Counted tp → (∃ i ∈ tp.workers, terminateOf tp.threads i = false) → ∀ workerNum : Int,
      ∃ tp', removeWorkersAtOnce tp workerNum = some tp' ∧ Removal tp workerNum tp' := by
  intro h
  obtain ⟨tp', hdone, hremoval⟩ := h twoWorkers twoWorkers_counted ⟨0, by decide, by decide⟩ (-1)
  have hboth : (removeWorkersAtOnce twoWorkers (-1)).map (fun t => (newlyFlagged twoWorkers t).length) =
      some 2 := rfl
  rw [hdone, Option.map_some, Option.some.injEq] at hboth
  have hnumber := hremoval.number
  rw [hboth] at hnumber
  exact absurd hnumber (by decide)

end CppMisc.ThreadPool
