import CppMisc.Library.Runs
import CppMisc.Library.CondVar
import CppMisc.ThreadPool.ListMacros

/-!
# The thread pool of `threadpool/tp.c`

Workers loop in `ntyWorkerThread`: under `jobs_mtx` they wait until a job waits or their `terminate`
flag is set, take the job at the head of `waiting_jobs`, and call its function. A worker that finds its
flag set leaves the loop and frees its own `nWorker`. `ntyThreadPoolShutdown` walks the worker list
and sets every flag without a lock, and then empties both lists and broadcasts under `jobs_mtx`.

The threads are named by their position in the order of creation, and so are their `nWorker` objects.
Each section under `jobs_mtx` is one step. Nothing shared is touched between the section in which a
worker takes a job and the call of `job_function`, so that section also starts the job. The loop of
`ntyThreadPoolShutdown` takes one step for each flag it writes and one for each `next` field it reads,
because workers run in between: the field of a worker that its thread has freed reads as anything.

`stamp`, `issued`, `started` and `discarded` record history. The calls of `ntyThreadPoolQueue` are
numbered, and a job object carries the number of the call that queued it last.
-/

set_option autoImplicit false

namespace CppMisc.NtyThreadPool

open CppMisc.Library
open CppMisc.ThreadPool (Link Stack llAdd llRemove)

/-- Address of an `nJob`. -/
abbrev JobPtr := Nat

/-- Number of a call of `ntyThreadPoolQueue`. -/
abbrev Ticket := Nat

/-- Where a worker stands in `ntyWorkerThread`. -/
inductive Pc where
  /-- About to lock `jobs_mtx`. -/
  | lock
  /-- Asleep in `pthread_cond_wait`. -/
  | blocked
  /-- Woken, but `jobs_mtx` not yet acquired again. -/
  | woken
  | inJob (t : Ticket)
  /-- Left the loop; about to call `free(worker)`. -/
  | leaving
  | freed
deriving DecidableEq

/-- An `nWorker` and its thread. -/
structure NWorker where
  pc : Pc
  terminate : Bool
deriving DecidableEq

/-- Where the call of `ntyThreadPoolShutdown` stands. -/
inductive Shutdown where
  | idle
  /-- About to test `worker != NULL`. -/
  | loopTest (worker : Option Nat)
  /-- The flag of `worker` is set; about to read `worker->next`. -/
  | loopNext (worker : Nat)
  | returned
deriving DecidableEq

/-- An `nWorkQueue` with its threads. -/
structure WorkQueue where
  threads : List NWorker
  workers : Option Nat
  workerLinks : Nat → Link Nat
  waitingJobs : Option JobPtr
  jobLinks : JobPtr → Link JobPtr
  shutdown : Shutdown
  stamp : JobPtr → Ticket
  issued : Nat
  started : List Ticket
  discarded : List Ticket

/-- The queue after the `memset` of `ntyThreadPoolCreate`. -/
def blank : WorkQueue where
  threads := []
  workers := none
  workerLinks := fun _ => ⟨none, none⟩
  waitingJobs := none
  jobLinks := fun _ => ⟨none, none⟩
  shutdown := .idle
  stamp := fun _ => 0
  issued := 0
  started := []
  discarded := []

/-- One worker more: its thread is started and it is put on the list. -/
def addWorker (q : WorkQueue) : WorkQueue :=
  { q with
    threads := q.threads ++ [⟨.lock, false⟩]
    workers := (llAdd q.workerLinks q.workers q.threads.length).2
    workerLinks := (llAdd q.workerLinks q.workers q.threads.length).1 }

/-- The loop of `ntyThreadPoolCreate`; `works i` tells whether `malloc` and `pthread_create` succeed
in iteration `i`. -/
def createLoop (works : Nat → Bool) : Nat → Nat → WorkQueue → Int × WorkQueue
  | 0, _, q => (0, q)
  | n + 1, i, q => if works i then createLoop works n (i + 1) (addWorker q) else (1, q)

/-- `ntyThreadPoolCreate`: the return value and the queue. -/
def ntyThreadPoolCreate (works : Nat → Bool) (numWorkers : Int) : Int × WorkQueue :=
  createLoop works (if numWorkers < 1 then 1 else numWorkers.toNat) 0 blank

/-- The waiting objects. At most `issued` objects can wait. -/
def waiting (q : WorkQueue) : List JobPtr :=
  follow (fun a => (q.jobLinks a).next) q.issued q.waitingJobs

/-- The waits on `jobs_cond`. -/
def jobsCond : CondVar NWorker where
  blocked w := w.pc = .blocked
  woken w := w.pc = .woken
  wake w := { w with pc := .woken }
  blocked_wake := by simp
  woken_wake := by simp
  not_woken := by simp +contextual

@[simp] theorem jobsCond_blocked (w : NWorker) :
    jobsCond.blocked w = decide (w.pc = .blocked) := rfl

@[simp] theorem jobsCond_woken (w : NWorker) : jobsCond.woken w = decide (w.pc = .woken) := rfl

@[simp] theorem jobsCond_wake (w : NWorker) : jobsCond.wake w = { w with pc := .woken } := rfl

/-- `ntyThreadPoolQueue`. Queueing an object that still waits is the caller's error. -/
def ntyThreadPoolQueue (q : WorkQueue) (job : JobPtr) (wake : Option Nat) : Option WorkQueue :=
  if job ∈ waiting q then none
  else
    (jobsCond.signal q.threads wake).map fun threads =>
      { q with
        jobLinks := (llAdd q.jobLinks q.waitingJobs job).1
        waitingJobs := (llAdd q.jobLinks q.waitingJobs job).2
        threads := threads
        stamp := Function.update q.stamp job q.issued
        issued := q.issued + 1 }

/-- The section of `ntyWorkerThread` under `jobs_mtx`, from its lock or from the return of
`pthread_cond_wait` up to the next wait or the unlock. -/
def workerSection (q : WorkQueue) (i : Nat) (w : NWorker) : WorkQueue :=
  -- the loop `while (waiting_jobs == NULL)`, which tests the flag before it waits
  if q.waitingJobs = none ∧ w.terminate = false then
    { q with threads := q.threads.set i { w with pc := .blocked } }
  else if w.terminate then { q with threads := q.threads.set i { w with pc := .leaving } }
  else
    match q.waitingJobs with
    -- `if (job == NULL) continue;`, which the loop condition excludes
    | none => { q with threads := q.threads.set i { w with pc := .lock } }
    | some job =>
        { q with
          jobLinks := (llRemove q.jobLinks q.waitingJobs job).1
          waitingJobs := (llRemove q.jobLinks q.waitingJobs job).2
          threads := q.threads.set i { w with pc := .inJob (q.stamp job) }
          started := q.stamp job :: q.started }

/-- The next step of the worker `i` with fields `w`. -/
def workerStep (q : WorkQueue) (i : Nat) (w : NWorker) : Option WorkQueue :=
  match w.pc with
  | .lock => some (workerSection q i w)
  | .blocked => none
  | .woken => some (workerSection q i w)
  | .inJob _ => some { q with threads := q.threads.set i { w with pc := .lock } }
  | .leaving => some { q with threads := q.threads.set i { w with pc := .freed } }
  | .freed => none

/-- `ntyWorkerThread`, one step of the worker `i`. -/
def ntyWorkerThread (q : WorkQueue) (i : Nat) : Option WorkQueue :=
  q.threads[i]?.bind (workerStep q i)

/-- A spurious wake-up of the worker `i`. -/
def wakeSpuriously (q : WorkQueue) (i : Nat) : Option WorkQueue :=
  match q.threads[i]? with
  | none => none
  | some w =>
      if w.pc = .blocked then
        some { q with threads := q.threads.set i { w with pc := .woken } }
      else none

/-- `worker->terminate = 1;`. Nobody sees a flag written to freed memory, and a pointer to no worker
at all has no next state. -/
def setTerminate (q : WorkQueue) (i : Nat) : Option WorkQueue :=
  match q.threads[i]? with
  | none => none
  | some w =>
      some { q with
        threads := if w.pc = .freed then q.threads else q.threads.set i { w with terminate := true }
        shutdown := .loopNext i }

/-- `worker = worker->next`, with `junk` for what freed memory holds. -/
def readNext (q : WorkQueue) (i : Nat) (junk : Option Nat) : WorkQueue :=
  { q with
    shutdown := .loopTest
      (if q.threads[i]?.map NWorker.pc = some .freed then junk else (q.workerLinks i).next) }

/-- The section of `ntyThreadPoolShutdown` under `jobs_mtx`, with which the call ends. -/
def shutdownSection (q : WorkQueue) : WorkQueue :=
  { q with
    workers := none
    waitingJobs := none
    threads := jobsCond.broadcast q.threads
    shutdown := .returned
    discarded := (waiting q).map q.stamp ++ q.discarded }

/-- `ntyThreadPoolShutdown`, one step of its caller. -/
def ntyThreadPoolShutdown (q : WorkQueue) (junk : Option Nat) : Option WorkQueue :=
  match q.shutdown with
  | .idle => some { q with shutdown := .loopTest q.workers }
  | .loopTest (some i) => setTerminate q i
  | .loopTest none => some (shutdownSection q)
  | .loopNext i => some (readNext q i junk)
  | .returned => none

/-- The actions of callers and workers. -/
inductive Act where
  | queue (job : JobPtr) (wake : Option Nat)
  | shutdown (junk : Option Nat)
  | work (i : Nat)
  | spurious (i : Nat)

/-- One step of the pool. -/
def step (q : WorkQueue) : Act → Option WorkQueue
  | .queue job wake => ntyThreadPoolQueue q job wake
  | .shutdown junk => ntyThreadPoolShutdown q junk
  | .work i => ntyWorkerThread q i
  | .spurious i => wakeSpuriously q i

/-! ## What a step can do -/

/-- The moves of a worker. -/
inductive WorkerMove (q : WorkQueue) (i : Nat) (w : NWorker) : WorkQueue → Prop
  | sleep : w.pc = .lock ∨ w.pc = .woken → q.waitingJobs = none → w.terminate = false →
      WorkerMove q i w { q with threads := q.threads.set i { w with pc := .blocked } }
  | leave : w.pc = .lock ∨ w.pc = .woken → w.terminate = true →
      WorkerMove q i w { q with threads := q.threads.set i { w with pc := .leaving } }
  | take (job : JobPtr) : w.pc = .lock ∨ w.pc = .woken → q.waitingJobs = some job →
      w.terminate = false →
      WorkerMove q i w { q with
        jobLinks := (llRemove q.jobLinks (some job) job).1
        waitingJobs := (llRemove q.jobLinks (some job) job).2
        threads := q.threads.set i { w with pc := .inJob (q.stamp job) }
        started := q.stamp job :: q.started }
  | finish (t : Ticket) : w.pc = .inJob t →
      WorkerMove q i w { q with threads := q.threads.set i { w with pc := .lock } }
  | free : w.pc = .leaving →
      WorkerMove q i w { q with threads := q.threads.set i { w with pc := .freed } }

/-- The moves of the pool. -/
inductive Move (q : WorkQueue) : Act → WorkQueue → Prop
  | queue (job : JobPtr) (wake : Option Nat) (threads : List NWorker) : job ∉ waiting q →
      jobsCond.signal q.threads wake = some threads →
      Move q (.queue job wake) { q with
        jobLinks := (llAdd q.jobLinks q.waitingJobs job).1
        waitingJobs := (llAdd q.jobLinks q.waitingJobs job).2
        threads := threads
        stamp := Function.update q.stamp job q.issued
        issued := q.issued + 1 }
  | start (junk : Option Nat) : q.shutdown = .idle →
      Move q (.shutdown junk) { q with shutdown := .loopTest q.workers }
  | flag (junk : Option Nat) (i : Nat) (w : NWorker) : q.shutdown = .loopTest (some i) →
      q.threads[i]? = some w → w.pc ≠ .freed →
      Move q (.shutdown junk) { q with
        threads := q.threads.set i { w with terminate := true }
        shutdown := .loopNext i }
  | flagFreed (junk : Option Nat) (i : Nat) (w : NWorker) : q.shutdown = .loopTest (some i) →
      q.threads[i]? = some w → w.pc = .freed →
      Move q (.shutdown junk) { q with shutdown := .loopNext i }
  | next (junk : Option Nat) (i : Nat) : q.shutdown = .loopNext i →
      Move q (.shutdown junk) (readNext q i junk)
  | close (junk : Option Nat) : q.shutdown = .loopTest none →
      Move q (.shutdown junk) (shutdownSection q)
  | work (i : Nat) (w : NWorker) (q' : WorkQueue) : q.threads[i]? = some w →
      WorkerMove q i w q' → Move q (.work i) q'
  | spurious (i : Nat) (w : NWorker) : q.threads[i]? = some w → w.pc = .blocked →
      Move q (.spurious i) { q with threads := q.threads.set i { w with pc := .woken } }

theorem workerMove_section {q : WorkQueue} {i : Nat} {w : NWorker}
    (hpc : w.pc = .lock ∨ w.pc = .woken) : WorkerMove q i w (workerSection q i w) := by
  unfold workerSection
  split
  · next h => exact .sleep hpc h.1 h.2
  · next hnot =>
      split
      · next hflag => exact .leave hpc hflag
      · next hflag =>
          have hclear : w.terminate = false := by simpa using hflag
          cases hj : q.waitingJobs with
          | none => exact absurd ⟨hj, hclear⟩ hnot
          | some job => exact .take job hpc hj hclear

theorem workerMove_of_workerStep {q q' : WorkQueue} {i : Nat} {w : NWorker}
    (h : workerStep q i w = some q') : WorkerMove q i w q' := by
  unfold workerStep at h
  cases hpc : w.pc with
  | lock =>
      simp only [hpc, Option.some.injEq] at h
      exact h ▸ workerMove_section (.inl hpc)
  | blocked => simp [hpc] at h
  | woken =>
      simp only [hpc, Option.some.injEq] at h
      exact h ▸ workerMove_section (.inr hpc)
  | inJob t =>
      simp only [hpc, Option.some.injEq] at h
      exact h ▸ .finish t hpc
  | leaving =>
      simp only [hpc, Option.some.injEq] at h
      exact h ▸ .free hpc
  | freed => simp [hpc] at h

theorem move_of_shutdown {q q' : WorkQueue} {junk : Option Nat}
    (h : ntyThreadPoolShutdown q junk = some q') : Move q (.shutdown junk) q' := by
  unfold ntyThreadPoolShutdown at h
  cases hs : q.shutdown with
  | idle =>
      simp only [hs, Option.some.injEq] at h
      exact h ▸ .start junk hs
  | loopTest worker =>
      cases worker with
      | none =>
          simp only [hs, Option.some.injEq] at h
          exact h ▸ .close junk hs
      | some i =>
          simp only [hs, setTerminate] at h
          split at h
          · cases h
          · next w hw =>
              by_cases hf : w.pc = .freed
              · simp only [hf, if_true, Option.some.injEq] at h
                exact h ▸ .flagFreed junk i w hs hw hf
              · simp only [hf, if_false, Option.some.injEq] at h
                exact h ▸ .flag junk i w hs hw hf
  | loopNext i =>
      simp only [hs, Option.some.injEq] at h
      exact h ▸ .next junk i hs
  | returned => simp [hs] at h

/-- Every step is one of the moves. -/
theorem move_of_step {q q' : WorkQueue} {a : Act} (h : step q a = some q') : Move q a q' := by
  cases a with
  | queue job wake =>
      simp only [step, ntyThreadPoolQueue] at h
      split at h
      · cases h
      · next hjob =>
          obtain ⟨threads, hsig, rfl⟩ := Option.map_eq_some_iff.1 h
          exact .queue job wake threads hjob hsig
  | shutdown junk => exact move_of_shutdown h
  | work i =>
      obtain ⟨w, hw, hwork⟩ := Option.bind_eq_some_iff.1 h
      exact .work i w q' hw (workerMove_of_workerStep hwork)
  | spurious i =>
      simp only [step, wakeSpuriously] at h
      split at h
      · cases h
      · next w hw =>
          split at h
          · next hb =>
              cases h
              exact .spurious i w hw hb
          · cases h

end CppMisc.NtyThreadPool
