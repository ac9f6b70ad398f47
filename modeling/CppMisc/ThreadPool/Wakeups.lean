import CppMisc.ThreadPool.Jobs

/-!
# Wake-ups in `threadpool/thread_pool.c`

`thread_pool_add_job` signals once for each job. The counting invariant is that, as long as some worker
is blocked, the waiting jobs are covered by workers that were woken and have not yet got `jobs_mtx`
back. A woken worker takes a job whatever its `terminate` flag says, a worker that steals a job leaves
one more wake-up than needed, and a worker goes to sleep only when no job waits.
-/

set_option autoImplicit false

namespace CppMisc.ThreadPool

open CppMisc.Library

/-- While a worker is blocked, every waiting job has a woken worker. -/
abbrev Covered (tp : Pool) : Prop := jobsCond.Covered tp.waitingJobsNum tp.threads

/-- After the wait a worker takes the head job, if there is one, and is then outside the condition
variable. -/
theorem takeJob_cases {tp : Pool} {l : List JobPtr} (h : JobsOk (jobView tp) l) (i : Nat)
    (w : Worker) :
    ∃ pc : Pc, pc ≠ .blocked ∧ pc ≠ .woken ∧
      (takeJob tp i w).threads = tp.threads.set i { w with pc := pc } ∧
      ((tp.waitingJobsNum = 0 ∧ (takeJob tp i w).waitingJobsNum = 0) ∨
        (0 < tp.waitingJobsNum ∧ (takeJob tp i w).waitingJobsNum = tp.waitingJobsNum - 1)) := by
  have hwait : tp.waitingJobsNum = l.length := h.waiting
  have hchain : IsChain (fun a => (tp.links a).next) tp.jobs l := h.stack.chain
  cases hj : tp.jobs with
  | none =>
      rw [hj] at hchain
      have hl := isChain_none_iff.1 hchain
      subst hl
      exact ⟨.test, by simp, by simp, by simp [takeJob, hj], .inl ⟨hwait, by simpa [takeJob, hj]⟩⟩
  | some job =>
      rw [hj] at hchain
      obtain ⟨rest, rfl, -⟩ := isChain_some_iff.1 hchain
      refine ⟨.took (tp.stamp job), by simp, by simp, by simp [takeJob, hj],
        .inr ⟨?_, by simp [takeJob, hj]⟩⟩
      rw [hwait, List.length_cons]
      omega

theorem covered_cycleMove {tp tp' : Pool} {l : List JobPtr} (hj : JobsOk (jobView tp) l)
    (h : Covered tp) {i : Nat} {w : Worker} (hw : tp.threads[i]? = some w)
    (hmove : CycleMove tp i w tp') : Covered tp' := by
  -- the moves that touch neither the condition variable nor the queue
  have hsame : ∀ w' : Worker, w.pc ≠ .blocked → w.pc ≠ .woken → w'.pc ≠ .blocked →
      jobsCond.Covered tp.waitingJobsNum (tp.threads.set i w') := by
    intro w' hb hk hb'
    exact CondVar.covered_move h hw (by simp [hb]) (by simp [hb']) le_rfl (by simp [hk])
  cases hmove with
  | test hpc => cases w.terminate <;> exact hsame _ (by simp [hpc]) (by simp [hpc]) (by simp)
  -- a worker sleeps only when no job waits
  | sleep hpc hzero => exact CondVar.covered_of_nonpos hzero.le
  | take hpc =>
      obtain ⟨pc, hb', -, hthreads, hcase⟩ := takeJob_cases hj i w
      have hb : w.pc ≠ .blocked := by rcases hpc with hpc | hpc <;> simp [hpc]
      rw [Covered, hthreads]
      rcases hcase with ⟨-, hzero⟩ | ⟨-, hless⟩
      · exact CondVar.covered_of_nonpos hzero.le
      · -- a woken worker no longer counts, but it takes a job off the queue
        exact CondVar.covered_move h hw (by simp [hb]) (by simp [hb']) (by omega)
          fun _ _ => hless.le
  | mark t hpc => exact hsame _ (by simp [hpc]) (by simp [hpc]) (by simp)
  | count t hpc => exact hsame _ (by simp [hpc]) (by simp [hpc]) (by simp)
  | start t hpc => exact hsame _ (by simp [hpc]) (by simp [hpc]) (by simp)
  | finish t hpc => exact hsame _ (by simp [hpc]) (by simp [hpc]) (by simp)
  | uncount hpc => exact hsame _ (by simp [hpc]) (by simp [hpc]) (by simp)
  | close hpc _ => exact hsame _ (by simp [hpc]) (by simp [hpc]) (by simp)

/-- Setting flags wakes nobody. -/
theorem covered_flagWorkers {tp : Pool} (h : Covered tp) (n : Int) : Covered (flagWorkers tp n) := by
  obtain ⟨threads, k, heq, hpc⟩ := flagWorkers_frame tp n
  have hblocked : jobsCond.blockedNum threads = jobsCond.blockedNum tp.threads :=
    countP_of_map_pc hpc fun pc => decide (pc = .blocked)
  have hwoken : jobsCond.wokenNum threads = jobsCond.wokenNum tp.threads :=
    countP_of_map_pc hpc fun pc => decide (pc = .woken)
  simpa only [heq, Covered, CondVar.Covered, hblocked, hwoken] using h

theorem covered_step {tp tp' : Pool} {a : Act} {l : List JobPtr} (hj : JobsOk (jobView tp) l)
    (h : Covered tp) (hstep : step tp a = some tp') : Covered tp' := by
  cases move_of_step hstep with
  | addJob job wake threads hjob hsig => exact CondVar.covered_signal h hsig
  | spawn =>
      simpa [Covered, CondVar.Covered, spawnWorker, CondVar.blockedNum, CondVar.wokenNum,
        List.countP_append] using h
  | register i _ _ => exact h
  | removeWorkers n _ => exact covered_flagWorkers h n
  | removeBroadcast flagged _ => exact CondVar.covered_broadcast
  | destroy => exact CondVar.covered_broadcast
  | cycle i w _ hw hmove => exact covered_cycleMove hj h hw hmove
  | spurious i w hw hb =>
      exact (CondVar.covered_wake h hw (by simp [hb])).mono (Int.le_add_one le_rfl)

theorem covered_reaches {tp : Pool} (h : Reaches step initial tp) : Covered tp := by
  have hboth : (∃ l, JobsOk (jobView tp) l) ∧ Covered tp := by
    refine h.invariant (P := fun tp => (∃ l, JobsOk (jobView tp) l) ∧ Covered tp) ?_
      ⟨⟨[], jobsOk_initial⟩, CondVar.covered_of_nonpos le_rfl⟩
    rintro s a t ⟨⟨l, hj⟩, hc⟩ hstep
    exact ⟨jobsOk_step s a t ⟨l, hj⟩ hstep, covered_step hj hc hstep⟩
  exact hboth.2

/-- **No job is stranded.** In every reachable state, if a worker is blocked in `pthread_cond_wait`
then `waiting_jobs_num` is at most the number of woken workers that have not yet re-acquired
`jobs_mtx`. So when a job waits and the workers without a `terminate` flag, of which there is one, all
sleep, a wake-up is under way. -/
theorem no_job_stranded {tp : Pool} (h : Reaches step initial tp) :
    ((∃ w ∈ tp.threads, w.pc = .blocked) → tp.waitingJobsNum ≤ jobsCond.wokenNum tp.threads) ∧
      (0 < tp.waitingJobsNum → (∃ w ∈ tp.threads, w.terminate = false) →
        (∀ w ∈ tp.threads, w.terminate = false → w.pc = .blocked) →
        ∃ w ∈ tp.threads, w.pc = .woken) := by
  have hcovered : (∃ w ∈ tp.threads, w.pc = .blocked) →
      tp.waitingJobsNum ≤ jobsCond.wokenNum tp.threads := by
    rintro ⟨w, hw, hb⟩
    exact covered_reaches h (List.countP_pos_iff.2 ⟨w, hw, by simp [hb]⟩)
  refine ⟨hcovered, fun hpos ⟨w, hw, hflag⟩ hall => ?_⟩
  have hle := hcovered ⟨w, hw, hall w hw hflag⟩
  have hwoken : 0 < jobsCond.wokenNum tp.threads := by omega
  obtain ⟨w', hw', hk⟩ := List.countP_pos_iff.1 hwoken
  exact ⟨w', hw', by simpa using hk⟩

/-- Two workers fall asleep and a job is added, which wakes the second one. -/
def oneOfTwoWoken : List Act :=
  [.spawn, .register 0, .spawn, .register 1, .cycle 0, .cycle 0, .cycle 1, .cycle 1,
    .addJob 100 (some 1)]

/-- Control: after `oneOfTwoWoken` a worker is blocked, a job waits, and it is covered. -/
theorem no_job_stranded_oneOfTwoWoken :
    ∃ tp, run step initial oneOfTwoWoken = some tp ∧ tp.waitingJobsNum = 1 ∧
      tp.threads.map Worker.pc = [.blocked, .woken] ∧
      tp.waitingJobsNum ≤ jobsCond.wokenNum tp.threads := by
  have hend : (run step initial oneOfTwoWoken).map
      (fun tp => (tp.waitingJobsNum, tp.threads.map Worker.pc)) =
        some (1, [.blocked, .woken]) := rfl
  obtain ⟨tp, hrun, hfields⟩ := Option.map_eq_some_iff.1 hend
  obtain ⟨hwait, hpcs⟩ := Prod.mk.inj hfields
  refine ⟨tp, hrun, hwait, hpcs, (no_job_stranded ⟨oneOfTwoWoken, hrun⟩).1 ?_⟩
  have hmem : Pc.blocked ∈ tp.threads.map Worker.pc := by
    rw [hpcs]
    exact List.mem_cons_self
  obtain ⟨w, hw, hb⟩ := List.mem_map.1 hmem
  exact ⟨w, hw, hb⟩

end CppMisc.ThreadPool
