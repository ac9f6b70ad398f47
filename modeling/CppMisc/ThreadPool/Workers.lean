import CppMisc.ThreadPool.Model

/-!
# Worker bookkeeping in `threadpool/thread_pool.c`

`total_workers_num` counts the workers on the list, and `terminate_workers_num` is meant to count
those of them whose `terminate` flag is set: `thread_pool_remove_workers` increments it for every flag
it sets, and every worker that leaves decrements it. `thread_pool_destroy` sets the flags and forgets
the counter. The counters are right in every state of a run exactly when no `thread_pool_destroy` finds
an unflagged worker on the list.

`Roster` is the part of the invariant that every run keeps: which threads are on the list, and that
only listed threads are flagged.
-/

set_option autoImplicit false

namespace CppMisc.ThreadPool

open CppMisc.Library

/-- The threads that wait to be registered, the registered ones, and their flags. -/
structure Roster (threads : List Worker) (pending workers : List Nat) : Prop where
  nodup : (pending ++ workers).Nodup
  lt : ∀ i ∈ pending ++ workers, i < threads.length
  unflagged : ∀ i ∈ pending, terminateOf threads i = false
  listed : ∀ (i : Nat) (w : Worker), threads[i]? = some w → w.terminate = true →
    w.pc ≠ .exited → i ∈ workers
  closing : ∀ (i : Nat) (w : Worker), threads[i]? = some w → w.pc = .closing → w.terminate = true

/-- The roster of a pool. -/
abbrev RosterOk (tp : Pool) : Prop := Roster tp.threads tp.pending tp.workers

/-- The registered workers whose `terminate` flag is set. -/
def flaggedNum (tp : Pool) : Nat := tp.workers.countP (terminateOf tp.threads)

/-- Both counters agree with the worker list, so `terminate_workers_num` is within its bounds. -/
def Bookkeeping (tp : Pool) : Prop :=
  tp.totalWorkersNum = tp.workers.length ∧ tp.terminateWorkersNum = flaggedNum tp ∧
    0 ≤ tp.terminateWorkersNum ∧ tp.terminateWorkersNum ≤ tp.totalWorkersNum

/-- `thread_pool_destroy` is called only when every worker on the list is flagged already. -/
def DestroyFlagsNobody (tp : Pool) : Act → Prop
  | .destroy => ∀ i ∈ tp.workers, terminateOf tp.threads i = true
  | _ => True

theorem roster_initial : RosterOk initial where
  nodup := List.nodup_nil
  lt := by simp [initial]
  unflagged := by simp [initial]
  listed := by simp [initial]
  closing := by simp [initial]

theorem terminateOf_eq {threads : List Worker} {i : Nat} {w : Worker} (h : threads[i]? = some w) :
    terminateOf threads i = w.terminate := by
  simp [terminateOf, h]

/-- Changes that clear no flag. -/
theorem terminateOf_of_kept {R : Worker → Worker → Prop}
    (hR : ∀ w w', R w w' → w.terminate = true → w'.terminate = true) {threads threads' : List Worker}
    (h : Kept R threads threads') {i : Nat} (hi : terminateOf threads i = true) :
    terminateOf threads' i = true := by
  cases hw : threads[i]? with
  | none => simp [terminateOf, hw] at hi
  | some w =>
      obtain ⟨w', hw', hchange⟩ := h i w hw
      rw [terminateOf_eq hw] at hi
      rw [terminateOf_eq hw']
      exact hR w w' hchange hi

/-- A write to one thread changes the flag of that thread only. -/
theorem terminateOf_set {threads : List Worker} {j : Nat} {w : Worker} (h : threads[j]? = some w)
    (w' : Worker) (i : Nat) :
    terminateOf (threads.set j w') i = if i = j then w'.terminate else terminateOf threads i := by
  obtain ⟨hlt, -⟩ := List.getElem?_eq_some_iff.1 h
  by_cases hij : i = j
  · subst hij
    simp [terminateOf, hlt]
  · simp [terminateOf, List.getElem?_set_ne (Ne.symm hij), hij]

theorem terminateOf_set_same {threads : List Worker} {j : Nat} {w v : Worker}
    (h : threads[j]? = some w) (hw : v.terminate = w.terminate) :
    terminateOf (threads.set j v) = terminateOf threads := by
  funext i
  rw [terminateOf_set h]
  by_cases hij : i = j
  · rw [if_pos hij, hw, hij, terminateOf_eq h]
  · rw [if_neg hij]

theorem terminateOf_broadcast (threads : List Worker) :
    terminateOf (jobsCond.broadcast threads) = terminateOf threads := by
  funext i
  cases hw : threads[i]? with
  | none => simp [terminateOf, CondVar.broadcast, hw]
  | some w =>
      by_cases hb : w.pc = .blocked
      · simp [terminateOf, CondVar.broadcast, hw, hb]
      · simp [terminateOf, CondVar.broadcast, hw, hb]

/-- A move of one thread that keeps its flag. -/
theorem roster_set {threads : List Worker} {pending workers : List Nat}
    (h : Roster threads pending workers) {j : Nat} {w v : Worker} (hw : threads[j]? = some w)
    (hflag : v.terminate = w.terminate) (hclosing : v.pc = .closing → v.terminate = true)
    (hexit : w.pc ≠ .exited) : Roster (threads.set j v) pending workers where
  nodup := h.nodup
  lt := fun i hi => by rw [List.length_set]; exact h.lt i hi
  unflagged := fun i hi => by rw [terminateOf_set_same hw hflag]; exact h.unflagged i hi
  listed := by
    intro i x hx hxf hxe
    rcases getElem?_set_cases hx with ⟨rfl, rfl⟩ | ⟨-, hx⟩
    · exact h.listed i w hw (hflag ▸ hxf) hexit
    · exact h.listed i x hx hxf hxe
  closing := by
    intro i x hx hxc
    rcases getElem?_set_cases hx with ⟨-, rfl⟩ | ⟨-, hx⟩
    · exact hclosing hxc
    · exact h.closing i x hx hxc

/-- Flagging a worker that is on the list. -/
theorem roster_flag {threads : List Worker} {pending workers : List Nat}
    (h : Roster threads pending workers) {j : Nat} {w : Worker} (hw : threads[j]? = some w)
    (hj : j ∈ workers) : Roster (threads.set j { w with terminate := true }) pending workers where
  nodup := h.nodup
  lt := fun i hi => by rw [List.length_set]; exact h.lt i hi
  unflagged := by
    -- a listed thread is not a pending one
    intro i hi
    have hne : i ≠ j := fun he => (List.disjoint_of_nodup_append h.nodup) hi (he ▸ hj)
    rw [terminateOf_set hw, if_neg hne]
    exact h.unflagged i hi
  listed := by
    intro i x hx hxf hxe
    rcases getElem?_set_cases hx with ⟨rfl, -⟩ | ⟨-, hx⟩
    · exact hj
    · exact h.listed i x hx hxf hxe
  closing := by
    intro i x hx hxc
    rcases getElem?_set_cases hx with ⟨-, rfl⟩ | ⟨-, hx⟩
    · rfl
    · exact h.closing i x hx hxc

theorem roster_flagAll {threads : List Worker} {pending workers : List Nat}
    (h : Roster threads pending workers) : Roster (flagAll workers threads) pending workers :=
  flagAll_induct workers threads (fun _ _ _ hr hi hw => roster_flag hr hw hi) h

theorem roster_broadcast {threads : List Worker} {pending workers : List Nat}
    (h : Roster threads pending workers) : Roster (jobsCond.broadcast threads) pending workers where
  nodup := h.nodup
  lt := fun i hi => by simpa [CondVar.broadcast] using h.lt i hi
  unflagged := by
    intro i hi
    rw [terminateOf_broadcast]
    exact h.unflagged i hi
  listed := by
    intro i x hx hxf hxe
    rcases getElem?_broadcast hx with ⟨w, hw, ⟨hb, rfl⟩ | ⟨-, rfl⟩⟩
    · exact h.listed i w hw hxf (by simp [hb])
    · exact h.listed i x hw hxf hxe
  closing := by
    intro i x hx hxc
    rcases getElem?_broadcast hx with ⟨w, hw, ⟨-, rfl⟩ | ⟨-, rfl⟩⟩
    · cases hxc
    · exact h.closing i x hw hxc

theorem roster_spawn {tp : Pool} (h : RosterOk tp) : RosterOk (spawnWorker tp) where
  nodup := by
    refine List.nodup_cons.2 ⟨fun hmem => ?_, h.nodup⟩
    exact lt_irrefl _ (h.lt _ hmem)
  lt := by
    intro i hi
    simp only [spawnWorker, List.length_append, List.length_singleton]
    rcases List.mem_cons.1 hi with rfl | hi
    · omega
    · have hlt := h.lt i hi
      omega
  unflagged := by
    intro i hi
    rcases List.mem_cons.1 hi with rfl | hi
    · simp [terminateOf, spawnWorker]
    · have hlt := h.lt i (List.mem_append_left _ hi)
      have heq := h.unflagged i hi
      simpa [terminateOf, spawnWorker, List.getElem?_append_left hlt] using heq
  listed := by
    intro i x hx hxf hxe
    rcases getElem?_snoc_cases hx with hx | ⟨-, rfl⟩
    · exact h.listed i x hx hxf hxe
    · cases hxf
  closing := by
    intro i x hx hxc
    rcases getElem?_snoc_cases hx with hx | ⟨-, rfl⟩
    · exact h.closing i x hx hxc
    · cases hxc

theorem roster_register {threads : List Worker} {pending workers : List Nat}
    (h : Roster threads pending workers) {i : Nat} (hi : i ∈ pending) :
    Roster threads (pending.erase i) (i :: workers) := by
  -- registering moves `i` from one list to the other
  have hperm : (pending.erase i ++ i :: workers).Perm (pending ++ workers) :=
    List.perm_middle.trans ((List.perm_cons_erase hi).symm.append_right workers)
  exact {
    nodup := hperm.nodup_iff.2 h.nodup
    lt := fun j hj => h.lt j (hperm.mem_iff.1 hj)
    unflagged := fun j hj => h.unflagged j (List.mem_of_mem_erase hj)
    listed := fun j w hw hf he => List.mem_cons_of_mem i (h.listed j w hw hf he)
    closing := h.closing }

theorem roster_close {threads : List Worker} {pending workers : List Nat}
    (h : Roster threads pending workers) {i : Nat} {w : Worker} (hw : threads[i]? = some w)
    (hpc : w.pc = .closing) :
    Roster (threads.set i { w with pc := .exited }) pending (workers.erase i) := by
  have hset := roster_set (v := { w with pc := .exited }) h hw rfl (by simp) (by simp [hpc])
  have hsub : (pending ++ workers.erase i).Sublist (pending ++ workers) :=
    (List.erase_sublist).append_left pending
  exact {
    nodup := hset.nodup.sublist hsub
    lt := fun j hj => hset.lt j (hsub.subset hj)
    unflagged := hset.unflagged
    listed := by
      intro j x hx hxf hxe
      rcases getElem?_set_cases hx with ⟨-, rfl⟩ | ⟨hne, -⟩
      · exact absurd rfl hxe
      · exact (List.mem_erase_of_ne hne).2 (hset.listed j x hx hxf hxe)
    closing := hset.closing }

theorem rosterOk_cycleMove {tp tp' : Pool} (h : RosterOk tp) {i : Nat} {w : Worker}
    (hw : tp.threads[i]? = some w) (hmove : CycleMove tp i w tp') : RosterOk tp' := by
  cases hmove with
  | test hpc =>
      refine roster_set h hw rfl ?_ (by simp [hpc])
      cases w.terminate <;> simp
  | sleep hpc _ => exact roster_set h hw rfl (by simp) (by simp [hpc])
  | take hpc =>
      have hne : w.pc ≠ .exited := by rcases hpc with hpc | hpc <;> simp [hpc]
      obtain ⟨pc, links, jobs, n, hpc', heq⟩ := takeJob_frame tp i w
      rw [heq]
      refine roster_set h hw rfl ?_ hne
      rcases hpc' with rfl | ⟨t, rfl⟩ <;> simp
  | mark t hpc => exact roster_set h hw rfl (by simp) (by simp [hpc])
  | count t hpc => exact roster_set h hw rfl (by simp) (by simp [hpc])
  | start t hpc => exact roster_set h hw rfl (by simp) (by simp [hpc])
  | finish t hpc => exact roster_set h hw rfl (by simp) (by simp [hpc])
  | uncount hpc => exact roster_set h hw rfl (by simp) (by simp [hpc])
  | close hpc _ => exact roster_close h hw hpc

theorem rosterOk_flagWorkers {tp : Pool} (h : RosterOk tp) (n : Int) :
    Roster (flagWorkers tp n).threads tp.pending tp.workers :=
  flagWorkers_induct (Q := fun tp' => Roster tp'.threads tp.pending tp.workers) tp n
    (fun _ _ _ hr hi hw _ => roster_flag hr hw hi) h

theorem rosterOk_step (tp : Pool) (a : Act) (tp' : Pool) (h : RosterOk tp)
    (hstep : step tp a = some tp') : RosterOk tp' := by
  cases move_of_step hstep with
  | addJob job wake threads _ hsig =>
      obtain ⟨rfl, -⟩ | ⟨i, w, hw, hb, rfl⟩ := signal_cases hsig
      · exact h
      · exact roster_set h hw rfl (by simp) (by simp [hb])
  | spawn => exact roster_spawn h
  | register i _ hi => exact roster_register h hi
  | removeWorkers n _ =>
      obtain ⟨threads, k, heq, -⟩ := flagWorkers_frame tp n
      have hr := rosterOk_flagWorkers h n
      simp only [heq] at hr ⊢
      exact hr
  | removeBroadcast flagged _ => exact roster_broadcast h
  | destroy => exact roster_broadcast (roster_flagAll h)
  | cycle i w _ hw hmove => exact rosterOk_cycleMove h hw hmove
  | spurious i w hw hb => exact roster_set h hw rfl (by simp) (by simp [hb])

theorem rosterOk_reaches {tp : Pool} (h : Reaches step initial tp) : RosterOk tp :=
  h.invariant rosterOk_step roster_initial

/-! ## The counters -/

/-- The invariant of the runs in which `thread_pool_destroy` flags nobody. -/
structure WorkersCounted (tp : Pool) : Prop where
  roster : RosterOk tp
  total : tp.totalWorkersNum = tp.workers.length
  flagged : tp.terminateWorkersNum = flaggedNum tp

theorem workersCounted_initial : WorkersCounted initial := ⟨roster_initial, rfl, rfl⟩

theorem WorkersCounted.bookkeeping {tp : Pool} (h : WorkersCounted tp) : Bookkeeping tp := by
  have hle : flaggedNum tp ≤ tp.workers.length := List.countP_le_length
  have ht := h.total
  have hf := h.flagged
  exact ⟨ht, hf, by omega, by omega⟩

/-- Each flag that `thread_pool_remove_workers` sets is counted. -/
theorem flaggedNum_flagWorkers {tp : Pool} (h : RosterOk tp)
    (hf : tp.terminateWorkersNum = flaggedNum tp) (n : Int) :
    (flagWorkers tp n).terminateWorkersNum =
      tp.workers.countP (terminateOf (flagWorkers tp n).threads) := by
  have hnodup : tp.workers.Nodup := (List.nodup_append.1 h.nodup).2.1
  refine flagWorkers_induct (Q := fun tp' => tp'.terminateWorkersNum =
    tp.workers.countP (terminateOf tp'.threads)) tp n (fun tp' i w hc hi hw hflag => ?_) hf
  -- the flag and the increment go together
  have hgain : tp.workers.countP (terminateOf (tp'.threads.set i { w with terminate := true })) =
      tp.workers.countP (terminateOf tp'.threads) + 1 := by
    refine countP_gain_of_mem hnodup hi ?_ ?_ fun j _ hj => ?_
    · rw [terminateOf_eq hw, hflag]
    · rw [terminateOf_set hw, if_pos rfl]
    · rw [terminateOf_set hw, if_neg hj]
  simp only [flagWorker, hgain, hc]
  omega

/-- A worker that leaves is on the list and flagged, so both numbers drop by one. -/
theorem close_counts {tp : Pool} (h : RosterOk tp) {i : Nat} {w : Worker}
    (hw : tp.threads[i]? = some w) (hpc : w.pc = .closing) :
    (tp.workers.erase i).length + 1 = tp.workers.length ∧
      (tp.workers.erase i).countP (terminateOf tp.threads) + 1 = flaggedNum tp := by
  have hflag : w.terminate = true := h.closing i w hw hpc
  have hmem : i ∈ tp.workers := h.listed i w hw hflag (by simp [hpc])
  have hperm := List.perm_cons_erase hmem
  have hlen := hperm.length_eq
  have hcount := hperm.countP_eq (terminateOf tp.threads)
  rw [List.length_cons] at hlen
  rw [List.countP_cons, terminateOf_eq hw, hflag, if_pos rfl] at hcount
  exact ⟨hlen.symm, hcount.symm⟩

/-- A move of one thread that keeps its flag keeps the number of flagged workers. -/
theorem workersCounted_set {tp : Pool} (h : WorkersCounted tp) {i : Nat} {w w' : Worker}
    (hw : tp.threads[i]? = some w) (hflag : w'.terminate = w.terminate) :
    tp.terminateWorkersNum = tp.workers.countP (terminateOf (tp.threads.set i w')) := by
  rw [terminateOf_set_same hw hflag]
  exact h.flagged

theorem workersCounted_cycleMove {tp tp' : Pool} (h : WorkersCounted tp) {i : Nat} {w : Worker}
    (hw : tp.threads[i]? = some w) (hmove : CycleMove tp i w tp') : WorkersCounted tp' := by
  refine ⟨rosterOk_cycleMove h.roster hw hmove, ?_, ?_⟩
  · cases hmove with
    | take _ =>
        obtain ⟨pc, links, jobs, n, -, heq⟩ := takeJob_frame tp i w
        rw [heq]
        exact h.total
    | close hpc _ =>
        have hlen := (close_counts h.roster hw hpc).1
        have ht := h.total
        simp only
        omega
    | _ => exact h.total
  · cases hmove with
    | take _ =>
        obtain ⟨pc, links, jobs, n, -, heq⟩ := takeJob_frame tp i w
        rw [heq]
        exact workersCounted_set h hw rfl
    | close hpc _ =>
        have hcount := (close_counts h.roster hw hpc).2
        have hf := h.flagged
        simp only [flaggedNum, terminateOf_set_same (v := { w with pc := .exited }) hw rfl]
        omega
    | _ => exact workersCounted_set h hw rfl

/-- A `thread_pool_destroy` that finds every listed worker flagged changes no flag. -/
theorem terminateOf_flagAll_of_flagged (is : List Nat) (threads : List Worker)
    (h : ∀ i ∈ is, terminateOf threads i = true) :
    terminateOf (flagAll is threads) = terminateOf threads := by
  refine flagAll_induct (Q := fun threads' => terminateOf threads' = terminateOf threads)
    is threads ?_ rfl
  intro threads' i w hsame hi hw
  have hflag : w.terminate = true := by
    rw [← terminateOf_eq hw, hsame, h i hi]
  exact (terminateOf_set_same hw hflag.symm).trans hsame

theorem workersCounted_step (tp : Pool) (a : Act) (tp' : Pool) (h : WorkersCounted tp)
    (hc : DestroyFlagsNobody tp a) (hstep : step tp a = some tp') : WorkersCounted tp' := by
  have hroster := rosterOk_step tp a tp' h.roster hstep
  cases move_of_step hstep with
  | addJob job wake threads _ hsig =>
      obtain ⟨rfl, -⟩ | ⟨i, w, hw, hb, rfl⟩ := signal_cases hsig
      · exact ⟨hroster, h.total, h.flagged⟩
      · exact ⟨hroster, h.total, workersCounted_set h hw rfl⟩
  | spawn =>
      refine ⟨hroster, h.total, ?_⟩
      have hsame : tp.workers.countP (terminateOf (spawnWorker tp).threads) = flaggedNum tp := by
        refine List.countP_congr fun i hi => ?_
        have hlt := h.roster.lt i (List.mem_append_right _ hi)
        simp [terminateOf, spawnWorker, List.getElem?_append_left hlt]
      have hf := h.flagged
      rw [← hsame] at hf
      exact hf
  | register i _ hi =>
      have hun := h.roster.unflagged i hi
      have ht := h.total
      have hf := h.flagged
      refine ⟨hroster, ?_, ?_⟩
      · simp only [List.length_cons]
        omega
      · simp only [flaggedNum] at hf
        simpa [flaggedNum, hun] using hf
  | removeWorkers n _ =>
      obtain ⟨threads, k, heq, -⟩ := flagWorkers_frame tp n
      have hcount := flaggedNum_flagWorkers h.roster h.flagged n
      simp only [heq] at hcount hroster ⊢
      exact ⟨hroster, h.total, hcount⟩
  | removeBroadcast flagged _ =>
      refine ⟨hroster, h.total, ?_⟩
      simp only [flaggedNum, terminateOf_broadcast]
      exact h.flagged
  | destroy =>
      refine ⟨hroster, h.total, ?_⟩
      simp only [flaggedNum, threadPoolDestroy, terminateOf_broadcast,
        terminateOf_flagAll_of_flagged tp.workers tp.threads hc]
      exact h.flagged
  | cycle i w _ hw hmove => exact workersCounted_cycleMove h hw hmove
  | spurious i w hw hb => exact ⟨hroster, h.total, workersCounted_set h hw rfl⟩

/-- After its loop over the list, `thread_pool_destroy` has flagged every thread on it. -/
theorem terminateOf_flagAll_of_mem (is : List Nat) : ∀ (threads : List Worker),
    (∀ i ∈ is, i < threads.length) → ∀ i ∈ is, terminateOf (flagAll is threads) i = true := by
  induction is with
  | nil =>
      intro threads _ i hi
      cases hi
  | cons j is ih =>
      intro threads hlt i hi
      have hj := hlt j List.mem_cons_self
      have hget : threads[j]? = some threads[j] := List.getElem?_eq_getElem hj
      simp only [flagAll, hget]
      have hrest : ∀ k ∈ is, k < (threads.set j { threads[j] with terminate := true }).length :=
        fun k hk => by rw [List.length_set]; exact hlt k (List.mem_cons_of_mem j hk)
      rcases List.mem_cons.1 hi with rfl | hi
      · -- later iterations keep a flag that is set
        refine flagAll_induct (Q := fun threads' => terminateOf threads' i = true) is _ ?_ ?_
        · intro threads' k w hset _ hw
          rw [terminateOf_set hw]
          split
          · rfl
          · exact hset
        · rw [terminateOf_set hget, if_pos rfl]
      · exact ih _ hrest i hi

/-- A `thread_pool_destroy` that flags somebody leaves the counter behind. -/
theorem not_bookkeeping_of_destroy (tp : Pool) (a : Act) (tp' : Pool) (h : WorkersCounted tp)
    (hc : ¬ DestroyFlagsNobody tp a) (hstep : step tp a = some tp') : ¬ Bookkeeping tp' := by
  intro hbook
  cases move_of_step hstep with
  | destroy =>
      have hlt : ∀ i ∈ tp.workers, i < tp.threads.length :=
        fun i hi => h.roster.lt i (List.mem_append_right _ hi)
      have hall : flaggedNum (threadPoolDestroy tp) = tp.workers.length := by
        refine List.countP_eq_length.2 fun i hi => ?_
        simp only [threadPoolDestroy, terminateOf_broadcast]
        exact terminateOf_flagAll_of_mem tp.workers tp.threads hlt i hi
      -- the counter still is what it was before the flags were set
      have hnot : flaggedNum tp ≠ tp.workers.length := by
        intro heq
        exact hc (List.countP_eq_length.1 heq)
      have hf := h.flagged
      have hf' : tp.terminateWorkersNum = flaggedNum (threadPoolDestroy tp) := hbook.2.1
      rw [hall] at hf'
      omega
  | _ => exact hc trivial

/-- **Worker bookkeeping.** In every state of a run `total_workers_num` is the number of registered
workers and `terminate_workers_num` the number of those whose `terminate` flag is set, exactly when
every `thread_pool_destroy` of the run finds all workers on the list flagged already. -/
theorem bookkeeping_iff (acts : List Act) :
    EveryState step Bookkeeping initial acts ↔ EveryStep step DestroyFlagsNobody initial acts :=
  everyState_iff_everyStep workersCounted_step (fun _ h => h.bookkeeping)
    not_bookkeeping_of_destroy acts initial workersCounted_initial

/-- One worker is registered, the pool is destroyed and the worker leaves. -/
def destroyOne : List Act := [.spawn, .register 0, .destroy, .cycle 0, .cycle 0]

/-- After `destroyOne` no worker is left and `terminate_workers_num` is negative. -/
theorem destroyOne_negative :
    ∃ tp, run step initial destroyOne = some tp ∧ tp.workers = [] ∧ tp.totalWorkersNum = 0 ∧
      tp.terminateWorkersNum = -1 ∧ ¬ Bookkeeping tp := by
  have hend : (run step initial destroyOne).map
      (fun tp => (tp.workers, tp.totalWorkersNum, tp.terminateWorkersNum)) = some ([], 0, -1) := rfl
  obtain ⟨tp, hrun, hfields⟩ := Option.map_eq_some_iff.1 hend
  simp only [Prod.mk.injEq] at hfields
  obtain ⟨hw, ht, hn⟩ := hfields
  refine ⟨tp, hrun, hw, ht, hn, fun hbook => ?_⟩
  have hpos := hbook.2.2.1
  omega

end CppMisc.ThreadPool
