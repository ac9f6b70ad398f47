import CppMisc.ThreadPool.Wakeups
import CppMisc.ThreadPool.Workers

/-!
# Termination wake-ups in `threadpool/thread_pool.c`

`thread_pool_destroy` and `thread_pool_remove_workers` set `terminate` flags and then broadcast. A
worker tests its flag outside `jobs_mtx`, so a worker that has passed the test and not yet reached the
mutex (`Pc.enter`) misses both: it goes to sleep after the broadcast. That window is the only one. Once
such a call has returned, no worker it flagged is ever found blocked if and only if none of them stood
in the window at the broadcast.

One direction is an invariant of a flagged worker outside the window. For the other the waiting jobs
are taken by fresh workers (`drain`), after which the worker in the window finds no job and blocks.
-/

set_option autoImplicit false

namespace CppMisc.ThreadPool

open CppMisc.Library

/-- What a step may do to one thread: a flag that is set stays set, and a flagged thread that neither
sleeps nor stands in the window does not get there. -/
structure Calm (w w' : Worker) : Prop where
  keeps : w.terminate = true → w'.terminate = true
  stays : w.terminate = true → w.pc ≠ .enter → w.pc ≠ .blocked → w'.pc ≠ .enter ∧ w'.pc ≠ .blocked

theorem Calm.refl (w : Worker) : Calm w w := ⟨id, fun _ he hb => ⟨he, hb⟩⟩

theorem Calm.trans {w w' w'' : Worker} (h : Calm w w') (h' : Calm w' w'') : Calm w w'' := by
  refine ⟨fun hf => h'.keeps (h.keeps hf), fun hf he hb => ?_⟩
  obtain ⟨he', hb'⟩ := h.stays hf he hb
  exact h'.stays (h.keeps hf) he' hb'

/-- Every thread is still there and has changed calmly. -/
def Evolves (threads threads' : List Worker) : Prop :=
  ∀ (i : Nat) (w : Worker), threads[i]? = some w → ∃ w', threads'[i]? = some w' ∧ Calm w w'

theorem Evolves.refl (threads : List Worker) : Evolves threads threads := kept_refl Calm.refl threads

theorem Evolves.trans {a b c : List Worker} (h : Evolves a b) (h' : Evolves b c) : Evolves a c :=
  Kept.trans (R := Calm) (fun _ _ _ => Calm.trans) h h'

theorem evolves_set {threads : List Worker} {j : Nat} {w w' : Worker} (hw : threads[j]? = some w)
    (hc : Calm w w') : Evolves threads (threads.set j w') := kept_set Calm.refl hw hc

/-- A move that keeps the flag and leads neither into the window nor to sleep. -/
theorem calm_move {w w' : Worker} (hf : w'.terminate = w.terminate) (he : w'.pc ≠ .enter)
    (hb : w'.pc ≠ .blocked) : Calm w w' :=
  ⟨fun h => hf.trans h, fun _ _ _ => ⟨he, hb⟩⟩

theorem calm_flag (w : Worker) : Calm w { w with terminate := true } :=
  ⟨fun _ => rfl, fun _ he hb => ⟨he, hb⟩⟩

/-- Waking a thread. -/
theorem calm_woken (w : Worker) : Calm w (jobsCond.wake w) := calm_move rfl (by simp) (by simp)

theorem evolves_broadcast (threads : List Worker) : Evolves threads (jobsCond.broadcast threads) :=
  CondVar.kept_broadcast Calm.refl (fun w _ => calm_woken w) threads

theorem evolves_flagAll (is : List Nat) (threads : List Worker) :
    Evolves threads (flagAll is threads) :=
  flagAll_induct (Q := Evolves threads) is threads
    (fun _ _ w he _ hw => he.trans (evolves_set hw (calm_flag w))) (Evolves.refl threads)

theorem evolves_flagWorkers (tp : Pool) (n : Int) :
    Evolves tp.threads (flagWorkers tp n).threads :=
  flagWorkers_induct (Q := fun tp' => Evolves tp.threads tp'.threads) tp n
    (fun _ _ w he _ hw _ => he.trans (evolves_set hw (calm_flag w))) (Evolves.refl tp.threads)

theorem evolves_cycleMove {tp tp' : Pool} {i : Nat} {w : Worker} (hw : tp.threads[i]? = some w)
    (hmove : CycleMove tp i w tp') : Evolves tp.threads tp'.threads := by
  cases hmove with
  | test hpc =>
      -- the test sends a flagged worker out of the loop
      refine evolves_set hw ⟨id, fun hf _ _ => ?_⟩
      simp [hf]
  | sleep hpc _ => exact evolves_set hw ⟨id, fun _ he _ => absurd hpc he⟩
  | take _ =>
      obtain ⟨pc, links, jobs, n, hpc, heq⟩ := takeJob_frame tp i w
      rw [heq]
      refine evolves_set hw (calm_move rfl ?_ ?_)
      · rcases hpc with rfl | ⟨t, rfl⟩ <;> simp
      · rcases hpc with rfl | ⟨t, rfl⟩ <;> simp
  | _ => exact evolves_set hw (calm_move rfl (by simp) (by simp))

theorem evolves_step {tp tp' : Pool} {a : Act} (hstep : step tp a = some tp') :
    Evolves tp.threads tp'.threads := by
  cases move_of_step hstep with
  | addJob job wake threads _ hsig => exact CondVar.kept_signal Calm.refl (fun w _ => calm_woken w) hsig
  | spawn => exact kept_snoc Calm.refl tp.threads ⟨.test, false, false⟩
  | register j _ _ => exact Evolves.refl _
  | removeWorkers n _ => exact evolves_flagWorkers tp n
  | removeBroadcast flagged _ => exact evolves_broadcast tp.threads
  | destroy => exact (evolves_flagAll tp.workers tp.threads).trans (evolves_broadcast _)
  | cycle j w _ hw hmove => exact evolves_cycleMove hw hmove
  | spurious j w hw hb => exact evolves_set hw (calm_woken w)

theorem evolves_reaches {tp tp' : Pool} (h : Reaches step tp tp') :
    Evolves tp.threads tp'.threads :=
  h.invariant (P := fun t => Evolves tp.threads t.threads)
    (fun _ _ _ he hstep => he.trans (evolves_step hstep)) (Evolves.refl _)

/-! ## The workers a call flags -/

/-- The program counter of a thread. -/
def pcOf (threads : List Worker) (i : Nat) : Option Pc := threads[i]?.map Worker.pc

/-- The workers flagged by the call that returns with the action. -/
def flaggedBy (tp : Pool) : Act → List Nat
  | .destroy => tp.workers
  | .removeBroadcast => tp.removing.getD []
  | _ => []

/-- Between its flag loops and its broadcast, `thread_pool_remove_workers` has flagged `removing`. -/
def RemovingFlagged (tp : Pool) : Prop :=
  ∀ flagged, tp.removing = some flagged → ∀ i ∈ flagged, terminateOf tp.threads i = true

theorem terminateOf_of_evolves {threads threads' : List Worker} (h : Evolves threads threads')
    {i : Nat} (hi : terminateOf threads i = true) : terminateOf threads' i = true :=
  terminateOf_of_kept (R := Calm) (fun _ _ hc => hc.keeps) h hi

theorem removing_step {tp tp' : Pool} {a : Act} (hstep : step tp a = some tp') :
    tp'.removing = tp.removing ∨ tp'.removing = none ∨
      ∃ n, a = .removeWorkers n ∧ tp'.removing = some (tp.workers.filter fun i =>
        terminateOf tp'.threads i && !terminateOf tp.threads i) := by
  cases move_of_step hstep with
  | removeWorkers n _ => exact .inr (.inr ⟨n, rfl, rfl⟩)
  | removeBroadcast flagged _ => exact .inr (.inl rfl)
  | cycle j w _ hw hmove =>
      left
      cases hmove with
      | take _ =>
          obtain ⟨pc, links, jobs, n, -, heq⟩ := takeJob_frame tp j w
          rw [heq]
      | _ => rfl
  | _ => exact .inl rfl

theorem removingFlagged_step (tp : Pool) (a : Act) (tp' : Pool) (h : RemovingFlagged tp)
    (hstep : step tp a = some tp') : RemovingFlagged tp' := by
  intro flagged hflagged i hi
  rcases removing_step hstep with hsame | hnone | ⟨n, -, hset⟩
  · exact terminateOf_of_evolves (evolves_step hstep) (h flagged (hsame ▸ hflagged) i hi)
  · rw [hnone] at hflagged
    cases hflagged
  · -- the call has just recorded the workers it flagged
    rw [hset] at hflagged
    cases hflagged
    have hboth := (List.mem_filter.1 hi).2
    exact (Bool.and_eq_true_iff.1 hboth).1

theorem removingFlagged_reaches {tp : Pool} (h : Reaches step initial tp) : RemovingFlagged tp := by
  refine h.invariant removingFlagged_step ?_
  intro flagged hflagged
  cases hflagged

/-- A broadcast leaves nobody asleep and moves nobody into the window. -/
theorem pcOf_broadcast (threads : List Worker) (i : Nat) :
    pcOf (jobsCond.broadcast threads) i ≠ some .blocked ∧
      (pcOf (jobsCond.broadcast threads) i = some .enter ↔ pcOf threads i = some .enter) := by
  cases hw : threads[i]? with
  | none => simp [pcOf, CondVar.broadcast, hw]
  | some w =>
      by_cases hb : w.pc = .blocked
      · simp [pcOf, CondVar.broadcast, hw, hb]
      · simp [pcOf, CondVar.broadcast, hw, hb]

theorem pcOf_flagAll (is : List Nat) (threads : List Worker) (i : Nat) :
    pcOf (flagAll is threads) i = pcOf threads i := by
  have hmap := congrArg (fun l : List Pc => l[i]?) (map_pc_flagAll is threads)
  simpa [pcOf, List.getElem?_map] using hmap

/-- When the call returns, the workers it flagged are flagged and awake, and those in the window are
the ones that stood there before its last step. -/
theorem flaggedBy_step {tp tp' : Pool} {a : Act} (h : Reaches step initial tp)
    (hstep : step tp a = some tp') {i : Nat} (hi : i ∈ flaggedBy tp a) :
    terminateOf tp'.threads i = true ∧ pcOf tp'.threads i ≠ some .blocked ∧
      (pcOf tp'.threads i = some .enter ↔ pcOf tp.threads i = some .enter) := by
  cases move_of_step hstep with
  | removeBroadcast flagged hflagged =>
      simp only [flaggedBy, hflagged, Option.getD_some] at hi
      refine ⟨?_, pcOf_broadcast tp.threads i⟩
      rw [terminateOf_broadcast]
      exact removingFlagged_reaches h flagged hflagged i hi
  | destroy =>
      have hlt : ∀ j ∈ tp.workers, j < tp.threads.length :=
        fun j hj => (rosterOk_reaches h).lt j (List.mem_append_right _ hj)
      obtain ⟨hawake, hwindow⟩ := pcOf_broadcast (flagAll tp.workers tp.threads) i
      rw [pcOf_flagAll] at hwindow
      refine ⟨?_, hawake, hwindow⟩
      simp only [threadPoolDestroy, terminateOf_broadcast]
      exact terminateOf_flagAll_of_mem tp.workers tp.threads hlt i hi
  | _ => simp [flaggedBy] at hi

/-- A flagged worker that neither sleeps nor stands in the window is never found asleep. -/
theorem pcOf_reaches {tp tp' : Pool} (h : Reaches step tp tp') {i : Nat}
    (hflag : terminateOf tp.threads i = true) (hawake : pcOf tp.threads i ≠ some .blocked)
    (hwindow : pcOf tp.threads i ≠ some .enter) : pcOf tp'.threads i ≠ some .blocked := by
  cases hw : tp.threads[i]? with
  | none => simp [terminateOf, hw] at hflag
  | some w =>
      obtain ⟨w', hw', hcalm⟩ := evolves_reaches h i w hw
      rw [terminateOf_eq hw] at hflag
      simp only [pcOf, hw, Option.map_some, ne_eq, Option.some.injEq] at hawake hwindow
      simp only [pcOf, hw', Option.map_some, ne_eq, Option.some.injEq]
      exact (hcalm.stays hflag hwindow hawake).2

/-! ## The window -/

/-- A fresh worker takes one of the waiting jobs while thread `i` does nothing. -/
theorem take_one {tp : Pool} {l : List JobPtr} (hj : JobsOk (jobView tp) l)
    (hpos : 0 < tp.waitingJobsNum) {i : Nat} {w : Worker} (hw : tp.threads[i]? = some w) :
    ∃ tp', Reaches step tp tp' ∧ tp'.waitingJobsNum = tp.waitingJobsNum - 1 ∧
      tp'.threads[i]? = some w := by
  obtain ⟨hlt, -⟩ := List.getElem?_eq_some_iff.1 hw
  have hne : tp.threads.length ≠ i := by omega
  -- the fresh worker has passed its test
  let ready : Pool := { spawnWorker tp with
    threads := tp.threads ++ [⟨.enter, false, false⟩] }
  have hready : Reaches step tp ready := by
    refine ⟨[.spawn, .cycle tp.threads.length], ?_⟩
    simp [run, step, spawnWorker, threadPoolCycle, cycleStep, ready]
  have hget : ready.threads[tp.threads.length]? = some ⟨.enter, false, false⟩ := by simp [ready]
  obtain ⟨l', hjr⟩ := hready.invariant jobsOk_step ⟨l, hj⟩
  obtain ⟨pc, -, -, hthreads, hcase⟩ := takeJob_cases hjr tp.threads.length ⟨.enter, false, false⟩
  have hwait : ready.waitingJobsNum = tp.waitingJobsNum := rfl
  have hcycle : step ready (.cycle tp.threads.length) =
      some (takeJob ready tp.threads.length ⟨.enter, false, false⟩) := by
    have hnz : ready.waitingJobsNum ≠ 0 := by omega
    simp only [step, threadPoolCycle, hget, Option.bind_some, cycleStep, if_neg hnz]
  refine ⟨_, hready.tail hcycle, ?_, ?_⟩
  · rcases hcase with ⟨hzero, -⟩ | ⟨-, htook⟩
    · omega
    · exact htook
  · rw [hthreads, List.getElem?_set_ne hne]
    simp only [ready, List.getElem?_append_left hlt]
    exact hw

/-- The waiting jobs can all be taken by fresh workers while thread `i` does nothing. -/
theorem drain {i : Nat} {w : Worker} (n : Nat) :
    ∀ tp : Pool, (∃ l, JobsOk (jobView tp) l) → tp.waitingJobsNum = n →
      tp.threads[i]? = some w →
      ∃ tp', Reaches step tp tp' ∧ tp'.waitingJobsNum = 0 ∧ tp'.threads[i]? = some w := by
  induction n with
  | zero =>
      intro tp _ hn hw
      exact ⟨tp, Reaches.refl tp, by simpa using hn, hw⟩
  | succ n ih =>
      rintro tp ⟨l, hj⟩ hn hw
      obtain ⟨tp', hreach, hwait, hw'⟩ := take_one hj (by omega) hw
      obtain ⟨tp'', hreach', hzero, hw''⟩ :=
        ih tp' (hreach.invariant jobsOk_step ⟨l, hj⟩) (by omega) hw'
      exact ⟨tp'', hreach.trans hreach', hzero, hw''⟩

/-- A worker in the window can go to sleep. -/
theorem sleeps_of_enter {tp : Pool} (hj : ∃ l, JobsOk (jobView tp) l) {i : Nat}
    (hwindow : pcOf tp.threads i = some .enter) :
    ∃ tp', Reaches step tp tp' ∧ pcOf tp'.threads i = some .blocked := by
  obtain ⟨w, hw, hpc⟩ := Option.map_eq_some_iff.1 hwindow
  obtain ⟨l, hjobs⟩ := hj
  have hwait : tp.waitingJobsNum = l.length := hjobs.waiting
  -- others take the waiting jobs first, so that the worker finds none
  obtain ⟨tp', hreach, hzero, hw'⟩ := drain l.length tp ⟨l, hjobs⟩ hwait hw
  obtain ⟨hlt, -⟩ := List.getElem?_eq_some_iff.1 hw'
  refine ⟨{ tp' with threads := tp'.threads.set i { w with pc := .blocked } }, hreach.tail
    (a := .cycle i) ?_, by simp [pcOf, hlt]⟩
  simp only [step, threadPoolCycle, hw', Option.bind_some, cycleStep, hpc, hzero, if_true]

/-- **Lost termination wake-ups.** Take the step with which a `thread_pool_destroy` or a
`thread_pool_remove_workers` call returns. From then on no worker that the call flagged is found
blocked in `pthread_cond_wait`, in any continuation, exactly when at that step none of them stands
between its test of `terminate` and `jobs_mtx`. A worker found blocked has had no wake-up since it went
to sleep, since a signal or broadcast that reaches it makes it `woken`. -/
theorem no_lost_termination_iff {tp tp' : Pool} {a : Act} (h : Reaches step initial tp)
    (hstep : step tp a = some tp') :
    (∀ tp'', Reaches step tp' tp'' → ∀ i ∈ flaggedBy tp a, pcOf tp''.threads i ≠ some .blocked) ↔
      ∀ i ∈ flaggedBy tp a, pcOf tp.threads i ≠ some .enter := by
  constructor
  · -- a worker in the window still is there after the broadcast, and can be made to sleep
    intro hnever i hi hwindow
    obtain ⟨-, -, hiff⟩ := flaggedBy_step h hstep hi
    obtain ⟨tp'', hreach, hasleep⟩ :=
      sleeps_of_enter (jobsOk_reaches (h.tail hstep)) (hiff.2 hwindow)
    exact hnever tp'' hreach i hi hasleep
  · intro hnone tp'' hreach i hi
    obtain ⟨hflag, hawake, hiff⟩ := flaggedBy_step h hstep hi
    exact pcOf_reaches hreach hflag hawake fun hwindow => hnone i hi (hiff.1 hwindow)

/-- The only worker is asleep when the pool is destroyed. -/
def destroyAsleep : List Act := [.spawn, .register 0, .cycle 0, .cycle 0]

/-- Control: a worker that sleeps when the pool is destroyed is never found asleep again. -/
theorem no_lost_termination_destroyAsleep :
    ∃ tp tp', run step initial destroyAsleep = some tp ∧ step tp .destroy = some tp' ∧
      pcOf tp.threads 0 = some .blocked ∧
      ∀ tp'', Reaches step tp' tp'' → pcOf tp''.threads 0 ≠ some .blocked := by
  have hend : (run step initial destroyAsleep).map (fun tp => (tp.workers, tp.threads.map Worker.pc)) =
      some ([0], [.blocked]) := rfl
  obtain ⟨tp, hrun, hfields⟩ := Option.map_eq_some_iff.1 hend
  obtain ⟨hworkers, hpcs⟩ := Prod.mk.inj hfields
  have hpc : pcOf tp.threads 0 = some .blocked := by
    rw [pcOf, ← List.getElem?_map, hpcs]
    rfl
  have hflagged : ∀ i ∈ flaggedBy tp .destroy, pcOf tp.threads i ≠ some .enter := by
    intro i hi
    simp only [flaggedBy, hworkers, List.mem_singleton] at hi
    rw [hi, hpc]
    simp
  have hmem : 0 ∈ flaggedBy tp .destroy := by simp [flaggedBy, hworkers]
  have hreach : Reaches step initial tp := ⟨destroyAsleep, hrun⟩
  have hiff := no_lost_termination_iff (a := .destroy) hreach rfl
  refine ⟨tp, threadPoolDestroy tp, hrun, rfl, hpc, fun tp'' hreach => ?_⟩
  exact hiff.2 hflagged tp'' hreach 0 hmem

/-- The worker has passed its test of `terminate` when the pool is destroyed. -/
def destroyInWindow : List Act := [.spawn, .register 0, .cycle 0]

/-- The worker of `destroyInWindow` then enters `jobs_mtx`, finds no job and sleeps, flagged. -/
theorem destroyInWindow_sleeps :
    ∃ tp tp' tp'', run step initial destroyInWindow = some tp ∧ step tp .destroy = some tp' ∧
      step tp' (.cycle 0) = some tp'' ∧ 0 ∈ flaggedBy tp .destroy ∧
      tp''.threads = [⟨.blocked, false, true⟩] :=
  ⟨_, _, _, rfl, rfl, rfl, List.mem_cons_self, rfl⟩

end CppMisc.ThreadPool
