import CppMisc.Library.Runs
import CppMisc.Library.CondVar
import CppMisc.ThreadPool.ListMacros

/-!
# The thread pool of `threadpool/thread_pool.c`

A pool has two mutexes and one condition variable. Workers loop in `thread_pool_cycle`: they test
their `terminate` flag outside any lock, take a job or sleep under `jobs_mtx`, run the job, and
unregister under `workers_mtx` when they leave. Callers add jobs and workers, ask some workers to
stop, or ask all of them.

The state holds every thread created so far, named by its position, with a program counter for the
places where another thread may act in between. Each section under a mutex is one step, with one
exception: `thread_pool_remove_workers` sets its flags in one step and broadcasts in a second one
(`removing`), because workers take `jobs_mtx` in between. While `removing` is set `workers_mtx` is
held and no other section under it can run.

The job list is kept as the source keeps it, a head pointer and link fields changed by the list
macros. The worker list is an abstract list of threads, newest first.

`stamp`, `issued`, `started` and `finished` record history. The calls of `thread_pool_add_job` are
numbered, and a job object carries the number of the call that added it last, so an object that is
added again after it was taken counts as a new job.
-/

set_option autoImplicit false

namespace CppMisc.ThreadPool

open CppMisc.Library

/-- Address of a `job_t`. -/
abbrev JobPtr := Nat

/-- Number of a call of `thread_pool_add_job`. -/
abbrev Ticket := Nat

/-- Where a worker stands in `thread_pool_cycle`. -/
inductive Pc where
  /-- About to test `worker->terminate == 0`. -/
  | test
  /-- Read `terminate == 0`; about to lock `jobs_mtx`. -/
  | enter
  /-- Asleep in `pthread_cond_wait`. -/
  | blocked
  /-- Woken, but `jobs_mtx` not yet acquired again. -/
  | woken
  /-- Left `jobs_mtx` with a job; about to set `running = 1`. -/
  | took (t : Ticket)
  /-- About to increment `running_workers_num`. -/
  | marked (t : Ticket)
  /-- About to call `job->func(job)`. -/
  | counted (t : Ticket)
  | inFunc (t : Ticket)
  /-- The job has returned and `running` is 0; about to decrement `running_workers_num`. -/
  | ended
  /-- Left the loop; about to unregister. -/
  | closing
  /-- Unregistered and freed. -/
  | exited
deriving DecidableEq

/-- A `worker_t` and its thread. -/
structure Worker where
  pc : Pc
  running : Bool
  terminate : Bool
deriving DecidableEq

/-- A `thread_pool_t` with its threads. -/
structure Pool where
  threads : List Worker
  /-- Threads whose `thread_pool_add_worker` call has not yet put them on the list. -/
  pending : List Nat
  workers : List Nat
  jobs : Option JobPtr
  links : JobPtr → Link JobPtr
  waitingJobsNum : Int
  totalWorkersNum : Int
  runningWorkersNum : Int
  terminateWorkersNum : Int
  /-- The workers that a `thread_pool_remove_workers` call has flagged, before its broadcast. -/
  removing : Option (List Nat)
  stamp : JobPtr → Ticket
  issued : Nat
  started : List Ticket
  finished : List Ticket

/-- The pool after the `memset` of `thread_pool_create`, before its workers are added. -/
def initial : Pool where
  threads := []
  pending := []
  workers := []
  jobs := none
  links := fun _ => ⟨none, none⟩
  waitingJobsNum := 0
  totalWorkersNum := 0
  runningWorkersNum := 0
  terminateWorkersNum := 0
  removing := none
  stamp := fun _ => 0
  issued := 0
  started := []
  finished := []

/-- The waits on `jobs_cond`. -/
def jobsCond : CondVar Worker where
  blocked w := w.pc = .blocked
  woken w := w.pc = .woken
  wake w := { w with pc := .woken }
  blocked_wake := by simp
  woken_wake := by simp
  not_woken := by simp +contextual

@[simp] theorem jobsCond_blocked (w : Worker) : jobsCond.blocked w = decide (w.pc = .blocked) := rfl

@[simp] theorem jobsCond_woken (w : Worker) : jobsCond.woken w = decide (w.pc = .woken) := rfl

@[simp] theorem jobsCond_wake (w : Worker) : jobsCond.wake w = { w with pc := .woken } := rfl

/-- `thread_pool_add_job`. Adding an object that still waits is the caller's error. -/
def threadPoolAddJob (tp : Pool) (job : JobPtr) (wake : Option Nat) : Option Pool :=
  if job ∈ follow (fun a => (tp.links a).next) tp.waitingJobsNum.toNat tp.jobs then none
  else
    (jobsCond.signal tp.threads wake).map fun threads =>
      { tp with
        waitingJobsNum := tp.waitingJobsNum + 1
        links := (listAdd tp.links tp.jobs job).1
        jobs := (listAdd tp.links tp.jobs job).2
        threads := threads
        stamp := Function.update tp.stamp job tp.issued
        issued := tp.issued + 1 }

/-- `pthread_create` in `thread_pool_add_worker`: the new thread runs at once. -/
def spawnWorker (tp : Pool) : Pool :=
  { tp with
    threads := tp.threads ++ [⟨.test, false, false⟩]
    pending := tp.threads.length :: tp.pending }

/-- The section of `thread_pool_add_worker` under `workers_mtx`. -/
def registerWorker (tp : Pool) (i : Nat) : Option Pool :=
  if tp.removing.isSome then none
  else if i ∈ tp.pending then
    some { tp with
      pending := tp.pending.erase i
      workers := i :: tp.workers
      totalWorkersNum := tp.totalWorkersNum + 1 }
  else none

/-- `worker->terminate = 1; worker->tp->terminate_workers_num++;` -/
def flagWorker (tp : Pool) (i : Nat) (w : Worker) : Pool :=
  { tp with
    threads := tp.threads.set i { w with terminate := true }
    terminateWorkersNum := tp.terminateWorkersNum + 1 }

/-- One of the two loops of `thread_pool_remove_workers`: flag the unflagged workers whose `running`
field is `wanted` until `workerNum` is 0. -/
def flagLoop (wanted : Bool) : List Nat → Int → Pool → Int × Pool
  | [], workerNum, tp => (workerNum, tp)
  | i :: rest, workerNum, tp =>
      if workerNum = 0 then (workerNum, tp)
      else
        match tp.threads[i]? with
        | none => flagLoop wanted rest workerNum tp
        | some w =>
            if w.terminate = false ∧ w.running = wanted then
              flagLoop wanted rest (workerNum - 1) (flagWorker tp i w)
            else flagLoop wanted rest workerNum tp

/-- The number of workers that `thread_pool_remove_workers` sets out to stop. -/
def removeTarget (tp : Pool) (workerNum : Int) : Int :=
  if workerNum ≥ tp.totalWorkersNum - tp.terminateWorkersNum then
    tp.totalWorkersNum - tp.terminateWorkersNum - 1
  else workerNum

/-- The idle workers first, then the running ones. -/
def flagWorkers (tp : Pool) (workerNum : Int) : Pool :=
  let idle := flagLoop false tp.workers (removeTarget tp workerNum) tp
  (flagLoop true tp.workers idle.1 idle.2).2

/-- The `terminate` field of a thread. -/
def terminateOf (threads : List Worker) (i : Nat) : Bool :=
  (threads[i]?.map Worker.terminate).getD false

/-- `thread_pool_remove_workers` up to its broadcast. The `printf` reads `tp->workers->next`, so with
no worker on the list there is no next state. -/
def threadPoolRemoveWorkers (tp : Pool) (workerNum : Int) : Option Pool :=
  if tp.removing.isSome then none
  else if tp.workers = [] then none
  else
    let tp' := flagWorkers tp workerNum
    some { tp' with
      removing := some (tp.workers.filter fun i =>
        terminateOf tp'.threads i && !terminateOf tp.threads i) }

/-- The broadcast of `thread_pool_remove_workers`, with which the call ends. -/
def removeBroadcast (tp : Pool) : Option Pool :=
  match tp.removing with
  | none => none
  | some _ => some { tp with threads := jobsCond.broadcast tp.threads, removing := none }

/-- The loop of `thread_pool_destroy` over the worker list. -/
def flagAll : List Nat → List Worker → List Worker
  | [], threads => threads
  | i :: rest, threads =>
      match threads[i]? with
      | none => flagAll rest threads
      | some w => flagAll rest (threads.set i { w with terminate := true })

/-- `thread_pool_destroy`. -/
def threadPoolDestroy (tp : Pool) : Pool :=
  { tp with threads := jobsCond.broadcast (flagAll tp.workers tp.threads) }

/-- The part of the section under `jobs_mtx` after the wait: take the job at the head of the list, or
go round the loop when there is none. -/
def takeJob (tp : Pool) (i : Nat) (w : Worker) : Pool :=
  match tp.jobs with
  -- `continue`
  | none => { tp with threads := tp.threads.set i { w with pc := .test } }
  | some job =>
      { tp with
        links := (listRemove tp.links tp.jobs job).1
        jobs := (listRemove tp.links tp.jobs job).2
        waitingJobsNum := tp.waitingJobsNum - 1
        threads := tp.threads.set i { w with pc := .took (tp.stamp job) } }

/-- The next step of the worker `i` with fields `w`. -/
def cycleStep (tp : Pool) (i : Nat) (w : Worker) : Option Pool :=
  match w.pc with
  | .test =>
      some { tp with
        threads := tp.threads.set i { w with pc := if w.terminate then .closing else .enter } }
  | .enter =>
      if tp.waitingJobsNum = 0 then
        some { tp with threads := tp.threads.set i { w with pc := .blocked } }
      else some (takeJob tp i w)
  | .blocked => none
  -- the wait is in an `if`, so neither `waiting_jobs_num` nor `terminate` is looked at again
  | .woken => some (takeJob tp i w)
  | .took t =>
      some { tp with threads := tp.threads.set i { w with pc := .marked t, running := true } }
  | .marked t =>
      if tp.removing.isSome then none
      else
        some { tp with
          runningWorkersNum := tp.runningWorkersNum + 1
          threads := tp.threads.set i { w with pc := .counted t } }
  | .counted t =>
      some { tp with
        threads := tp.threads.set i { w with pc := .inFunc t }
        started := t :: tp.started }
  | .inFunc t =>
      some { tp with
        threads := tp.threads.set i { w with pc := .ended, running := false }
        finished := t :: tp.finished }
  | .ended =>
      if tp.removing.isSome then none
      else
        some { tp with
          runningWorkersNum := tp.runningWorkersNum - 1
          threads := tp.threads.set i { w with pc := .test } }
  | .closing =>
      if tp.removing.isSome then none
      else
        -- the worker counts itself off as a terminating one, whoever flagged it
        some { tp with
          workers := tp.workers.erase i
          totalWorkersNum := tp.totalWorkersNum - 1
          terminateWorkersNum := tp.terminateWorkersNum - 1
          threads := tp.threads.set i { w with pc := .exited } }
  | .exited => none

/-- `thread_pool_cycle`, one step of the worker `i`. -/
def threadPoolCycle (tp : Pool) (i : Nat) : Option Pool :=
  tp.threads[i]?.bind (cycleStep tp i)

/-- A spurious wake-up of the worker `i`. -/
def wakeSpuriously (tp : Pool) (i : Nat) : Option Pool :=
  match tp.threads[i]? with
  | none => none
  | some w =>
      if w.pc = .blocked then
        some { tp with threads := tp.threads.set i { w with pc := .woken } }
      else none

/-- The actions of callers and workers. -/
inductive Act where
  | addJob (job : JobPtr) (wake : Option Nat)
  | spawn
  | register (i : Nat)
  | removeWorkers (workerNum : Int)
  | removeBroadcast
  | destroy
  | cycle (i : Nat)
  | spurious (i : Nat)

/-- One step of the pool. -/
def step (tp : Pool) : Act → Option Pool
  | .addJob job wake => threadPoolAddJob tp job wake
  | .spawn => some (spawnWorker tp)
  | .register i => registerWorker tp i
  | .removeWorkers workerNum => threadPoolRemoveWorkers tp workerNum
  | .removeBroadcast => removeBroadcast tp
  | .destroy => some (threadPoolDestroy tp)
  | .cycle i => threadPoolCycle tp i
  | .spurious i => wakeSpuriously tp i

/-! ## What a step can do -/

/-- The moves of a worker. -/
inductive CycleMove (tp : Pool) (i : Nat) (w : Worker) : Pool → Prop
  | test : w.pc = .test →
      CycleMove tp i w { tp with
        threads := tp.threads.set i { w with pc := if w.terminate then .closing else .enter } }
  | sleep : w.pc = .enter → tp.waitingJobsNum = 0 →
      CycleMove tp i w { tp with threads := tp.threads.set i { w with pc := .blocked } }
  | take : w.pc = .enter ∨ w.pc = .woken → CycleMove tp i w (takeJob tp i w)
  | mark (t : Ticket) : w.pc = .took t →
      CycleMove tp i w { tp with
        threads := tp.threads.set i { w with pc := .marked t, running := true } }
  | count (t : Ticket) : w.pc = .marked t →
      CycleMove tp i w { tp with
        runningWorkersNum := tp.runningWorkersNum + 1
        threads := tp.threads.set i { w with pc := .counted t } }
  | start (t : Ticket) : w.pc = .counted t →
      CycleMove tp i w { tp with
        threads := tp.threads.set i { w with pc := .inFunc t }
        started := t :: tp.started }
  | finish (t : Ticket) : w.pc = .inFunc t →
      CycleMove tp i w { tp with
        threads := tp.threads.set i { w with pc := .ended, running := false }
        finished := t :: tp.finished }
  | uncount : w.pc = .ended →
      CycleMove tp i w { tp with
        runningWorkersNum := tp.runningWorkersNum - 1
        threads := tp.threads.set i { w with pc := .test } }
  | close : w.pc = .closing → tp.removing = none →
      CycleMove tp i w { tp with
        workers := tp.workers.erase i
        totalWorkersNum := tp.totalWorkersNum - 1
        terminateWorkersNum := tp.terminateWorkersNum - 1
        threads := tp.threads.set i { w with pc := .exited } }

/-- The moves of the pool. -/
inductive Move (tp : Pool) : Act → Pool → Prop
  | addJob (job : JobPtr) (wake : Option Nat) (threads : List Worker) :
      job ∉ follow (fun a => (tp.links a).next) tp.waitingJobsNum.toNat tp.jobs →
      jobsCond.signal tp.threads wake = some threads →
      Move tp (.addJob job wake) { tp with
        waitingJobsNum := tp.waitingJobsNum + 1
        links := (listAdd tp.links tp.jobs job).1
        jobs := (listAdd tp.links tp.jobs job).2
        threads := threads
        stamp := Function.update tp.stamp job tp.issued
        issued := tp.issued + 1 }
  | spawn : Move tp .spawn (spawnWorker tp)
  | register (i : Nat) : tp.removing = none → i ∈ tp.pending →
      Move tp (.register i) { tp with
        pending := tp.pending.erase i
        workers := i :: tp.workers
        totalWorkersNum := tp.totalWorkersNum + 1 }
  | removeWorkers (n : Int) : tp.removing = none →
      Move tp (.removeWorkers n) { flagWorkers tp n with
        removing := some (tp.workers.filter fun i =>
          terminateOf (flagWorkers tp n).threads i && !terminateOf tp.threads i) }
  | removeBroadcast (flagged : List Nat) : tp.removing = some flagged →
      Move tp .removeBroadcast { tp with threads := jobsCond.broadcast tp.threads, removing := none }
  | destroy : Move tp .destroy (threadPoolDestroy tp)
  | cycle (i : Nat) (w : Worker) (tp' : Pool) : tp.threads[i]? = some w → CycleMove tp i w tp' →
      Move tp (.cycle i) tp'
  | spurious (i : Nat) (w : Worker) : tp.threads[i]? = some w → w.pc = .blocked →
      Move tp (.spurious i) { tp with threads := tp.threads.set i { w with pc := .woken } }

theorem cycleMove_of_cycleStep {tp tp' : Pool} {i : Nat} {w : Worker}
    (h : cycleStep tp i w = some tp') : CycleMove tp i w tp' := by
  -- the sections under `workers_mtx` wait for a `thread_pool_remove_workers` call to end
  have hnone : ∀ {x : Pool}, (if tp.removing.isSome then none else some x) = some tp' →
      tp.removing = none ∧ x = tp' := by
    intro x hx
    split at hx
    · cases hx
    · next hr =>
        cases hx
        exact ⟨by simpa using hr, rfl⟩
  unfold cycleStep at h
  cases hpc : w.pc with
  | test =>
      simp only [hpc, Option.some.injEq] at h
      exact h ▸ .test hpc
  | enter =>
      simp only [hpc] at h
      split at h
      · next hzero =>
          cases h
          exact .sleep hpc hzero
      · cases h
        exact .take (.inl hpc)
  | blocked => simp [hpc] at h
  | woken =>
      simp only [hpc, Option.some.injEq] at h
      exact h ▸ .take (.inr hpc)
  | took t =>
      simp only [hpc, Option.some.injEq] at h
      exact h ▸ .mark t hpc
  | marked t =>
      simp only [hpc] at h
      exact (hnone h).2 ▸ .count t hpc
  | counted t =>
      simp only [hpc, Option.some.injEq] at h
      exact h ▸ .start t hpc
  | inFunc t =>
      simp only [hpc, Option.some.injEq] at h
      exact h ▸ .finish t hpc
  | ended =>
      simp only [hpc] at h
      exact (hnone h).2 ▸ .uncount hpc
  | closing =>
      simp only [hpc] at h
      obtain ⟨hr, rfl⟩ := hnone h
      exact .close hpc hr
  | exited => simp [hpc] at h

/-- Every step is one of the moves. -/
theorem move_of_step {tp tp' : Pool} {a : Act} (h : step tp a = some tp') : Move tp a tp' := by
  cases a with
  | addJob job wake =>
      simp only [step, threadPoolAddJob] at h
      split at h
      · cases h
      · next hjob =>
          obtain ⟨threads, hsig, rfl⟩ := Option.map_eq_some_iff.1 h
          exact .addJob job wake threads hjob hsig
  | spawn =>
      simp only [step, Option.some.injEq] at h
      exact h ▸ .spawn
  | register i =>
      simp only [step, registerWorker] at h
      split at h
      · cases h
      · next hr =>
          split at h
          · next hi =>
              cases h
              exact .register i (by simpa using hr) hi
          · cases h
  | removeWorkers n =>
      simp only [step, threadPoolRemoveWorkers] at h
      split at h
      · cases h
      · next hr =>
          split at h
          · cases h
          · cases h
            exact .removeWorkers n (by simpa using hr)
  | removeBroadcast =>
      simp only [step, removeBroadcast] at h
      split at h
      · cases h
      · next flagged hf =>
          cases h
          exact .removeBroadcast flagged hf
  | destroy =>
      simp only [step, Option.some.injEq] at h
      exact h ▸ .destroy
  | cycle i =>
      obtain ⟨w, hw, hcycle⟩ := Option.bind_eq_some_iff.1 h
      exact .cycle i w tp' hw (cycleMove_of_cycleStep hcycle)
  | spurious i =>
      simp only [step, wakeSpuriously] at h
      split at h
      · cases h
      · next w hw =>
          split at h
          · next hb =>
              cases h
              exact .spurious i w hw hb
          · cases h

/-- A signal wakes one blocked worker, or nobody was blocked. -/
theorem signal_cases {threads threads' : List Worker} {wake : Option Nat}
    (h : jobsCond.signal threads wake = some threads') :
    (threads' = threads ∧ ∀ w ∈ threads, w.pc ≠ .blocked) ∨
      ∃ i w, threads[i]? = some w ∧ w.pc = .blocked ∧
        threads' = threads.set i { w with pc := .woken } := by
  simpa using CondVar.signal_cases h

/-- After a broadcast a thread is as it was, except that a blocked one is woken. -/
theorem getElem?_broadcast {threads : List Worker} {i : Nat} {x : Worker}
    (h : (jobsCond.broadcast threads)[i]? = some x) :
    ∃ w, threads[i]? = some w ∧
      ((w.pc = .blocked ∧ x = { w with pc := .woken }) ∨ (w.pc ≠ .blocked ∧ x = w)) := by
  simpa using CondVar.getElem?_broadcast h

/-! ## Frame facts -/

/-- Taking a job changes the queue and moves the worker to `test` or to `took`. -/
theorem takeJob_frame (tp : Pool) (i : Nat) (w : Worker) :
    ∃ (pc : Pc) (links : JobPtr → Link JobPtr) (jobs : Option JobPtr) (n : Int),
      (pc = .test ∨ ∃ t, pc = .took t) ∧
      takeJob tp i w = { tp with
        links := links
        jobs := jobs
        waitingJobsNum := n
        threads := tp.threads.set i { w with pc := pc } } := by
  cases hj : tp.jobs with
  | none => exact ⟨.test, tp.links, tp.jobs, tp.waitingJobsNum, .inl rfl, by simp [takeJob, hj]⟩
  | some job =>
      refine ⟨.took (tp.stamp job), (listRemove tp.links tp.jobs job).1,
        (listRemove tp.links tp.jobs job).2, tp.waitingJobsNum - 1, .inr ⟨_, rfl⟩, ?_⟩
      simp only [takeJob, hj]

/-- What holds before a flag loop and is kept by flagging a listed, unflagged worker holds after it. -/
theorem flagLoop_induct {Q : Pool → Prop} {workers : List Nat} (wanted : Bool)
    (hflag : ∀ (tp : Pool) (i : Nat) (w : Worker), Q tp → i ∈ workers → tp.threads[i]? = some w →
      w.terminate = false → Q (flagWorker tp i w)) :
    ∀ (is : List Nat) (n : Int) (tp : Pool), (∀ i ∈ is, i ∈ workers) → Q tp →
      Q (flagLoop wanted is n tp).2 := by
  intro is
  induction is with
  | nil =>
      intro n tp _ h
      exact h
  | cons i is ih =>
      intro n tp his h
      have hrest : ∀ j ∈ is, j ∈ workers := fun j hj => his j (List.mem_cons_of_mem i hj)
      simp only [flagLoop]
      split
      · exact h
      · split
        · exact ih n tp hrest h
        · next w hw =>
            split
            · next hcond =>
                exact ih (n - 1) (flagWorker tp i w) hrest
                  (hflag tp i w h (his i List.mem_cons_self) hw hcond.1)
            · exact ih n tp hrest h

/-- The same rule for both loops of `thread_pool_remove_workers`. -/
theorem flagWorkers_induct {Q : Pool → Prop} (tp : Pool) (n : Int)
    (hflag : ∀ (tp' : Pool) (i : Nat) (w : Worker), Q tp' → i ∈ tp.workers →
      tp'.threads[i]? = some w → w.terminate = false → Q (flagWorker tp' i w)) (h : Q tp) :
    Q (flagWorkers tp n) :=
  flagLoop_induct true hflag tp.workers _ _ (fun _ hi => hi)
    (flagLoop_induct false hflag tp.workers _ _ (fun _ hi => hi) h)

/-- The same rule for the loop of `thread_pool_destroy`. -/
theorem flagAll_induct {Q : List Worker → Prop} :
    ∀ (is : List Nat) (threads : List Worker),
      (∀ (threads' : List Worker) (i : Nat) (w : Worker), Q threads' → i ∈ is →
        threads'[i]? = some w → Q (threads'.set i { w with terminate := true })) →
      Q threads → Q (flagAll is threads) := by
  intro is
  induction is with
  | nil =>
      intro threads _ h
      exact h
  | cons i is ih =>
      intro threads hflag h
      have hrest : ∀ (threads' : List Worker) (j : Nat) (w : Worker), Q threads' → j ∈ is →
          threads'[j]? = some w → Q (threads'.set j { w with terminate := true }) :=
        fun threads' j w hQ hj => hflag threads' j w hQ (List.mem_cons_of_mem i hj)
      simp only [flagAll]
      split
      · exact ih threads hrest h
      · next w hw => exact ih _ hrest (hflag threads i w h List.mem_cons_self hw)

/-- The flag loops change flags and the number of flagged workers only. -/
theorem flagWorkers_frame (tp : Pool) (n : Int) : ∃ (threads : List Worker) (k : Int),
    flagWorkers tp n = { tp with threads := threads, terminateWorkersNum := k } ∧
      threads.map Worker.pc = tp.threads.map Worker.pc := by
  -- the flag loops go through states that differ from `tp` in these two fields only
  refine flagWorkers_induct (Q := fun tp' => ∃ (threads : List Worker) (k : Int),
    tp' = { tp with threads := threads, terminateWorkersNum := k } ∧
      threads.map Worker.pc = tp.threads.map Worker.pc) tp n ?_
    ⟨tp.threads, tp.terminateWorkersNum, rfl, rfl⟩
  rintro tp' i w ⟨threads, k, rfl, hpc⟩ - hw -
  have hset : (threads.set i { w with terminate := true }).map Worker.pc = threads.map Worker.pc :=
    map_set_of_eq Worker.pc hw rfl
  exact ⟨threads.set i { w with terminate := true }, k + 1, rfl, hset.trans hpc⟩

theorem map_pc_flagAll (is : List Nat) (threads : List Worker) :
    (flagAll is threads).map Worker.pc = threads.map Worker.pc := by
  refine flagAll_induct (Q := fun threads' => threads'.map Worker.pc = threads.map Worker.pc)
    is threads ?_ rfl
  intro threads' i w hpc _ hw
  have hset : (threads'.set i { w with terminate := true }).map Worker.pc =
      threads'.map Worker.pc := map_set_of_eq Worker.pc hw rfl
  exact hset.trans hpc

/-- Lists of workers with the same program counters agree on every count of program counters. -/
theorem countP_of_map_pc {threads threads' : List Worker}
    (h : threads'.map Worker.pc = threads.map Worker.pc) (f : Pc → Bool) :
    threads'.countP (fun w => f w.pc) = threads.countP fun w => f w.pc := by
  have hmap := congrArg (List.countP f) h
  rwa [List.countP_map, List.countP_map] at hmap

end CppMisc.ThreadPool
