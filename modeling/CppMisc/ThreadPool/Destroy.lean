import CppMisc.ThreadPool.Workers

/-!
# `thread_pool_destroy` among its workers

`thread_pool_destroy` walks the worker list under `jobs_mtx` and flags every worker. The workers unlink
and free themselves under `workers_mtx`, and test their flag under no mutex at all, so the walk and the
workers do run side by side. `LinkedPool` puts under the pool of `CppMisc.ThreadPool.Model` what this is
about: the worker list as the source keeps it, a head pointer and link fields changed by the list
macros; the objects that were freed; and the place where the call of `thread_pool_destroy` stands. The
walk takes one step for each flag and one for each `next` field, and the field of a freed worker reads
as anything. While it lasts, `jobs_mtx` is held and no section under that mutex can run.

A worker is named by the place of its object. `malloc` may hand the memory of a freed worker out again,
and the object of a new worker then stands where pointers to the old one still lead.

The list of the pool holds the workers that were registered and have neither unregistered nor been
freed. The pointers agree with it until a worker leaves from the middle: `LIST_ADD` has not set its
`prev` field, so `LIST_REMOVE` does not unlink it from the worker in front of it, and the pointers lead
to a dead object from then on, or to the worker that gets its memory.

Every step is a move of the caller of `thread_pool_destroy` (`CallMove`) or of somebody else
(`OtherMove`). `Goes` is what a step may do to one thread.
-/

set_option autoImplicit false

namespace CppMisc.ThreadPool.Destroy

open CppMisc.Library
open CppMisc.ThreadPool

/-- Where the call of `thread_pool_destroy` stands. -/
inductive Call where
  | idle
  /-- `jobs_mtx` is held; about to test `worker != NULL`. -/
  | loopTest (worker : Option Nat)
  /-- The flag of `worker` is set; about to read `worker->next`. -/
  | loopNext (worker : Nat)
  | returned
deriving DecidableEq

/-- A pool with the pointers of its worker list. -/
structure LinkedPool where
  pool : Pool
  workers : Option Nat
  workerLinks : Nat → Link Nat
  /-- The workers whose thread has called `free(worker)`, until `malloc` hands their memory out again. -/
  freed : List Nat
  call : Call
  /-- The flagged workers that were freed since the call of `thread_pool_destroy` began. -/
  left : List Nat

/-- The pool after the `memset` of `thread_pool_create`. -/
def start : LinkedPool where
  pool := initial
  workers := none
  workerLinks := fun _ => ⟨none, none⟩
  freed := []
  call := .idle
  left := []

/-- The call of `thread_pool_destroy` holds `jobs_mtx`. -/
def locked (s : LinkedPool) : Bool :=
  match s.call with
  | .loopTest _ => true
  | .loopNext _ => true
  | .idle => false
  | .returned => false

/-- The `next` field of a worker, as long as the worker is not freed. -/
abbrev next (s : LinkedPool) (i : Nat) : Option Nat := (s.workerLinks i).next

/-- `thread_pool_add_job`. -/
def addJob (s : LinkedPool) (job : JobPtr) (wake : Option Nat) : Option LinkedPool :=
  if locked s then none
  else (threadPoolAddJob s.pool job wake).map fun tp => { s with pool := tp }

/-- What `thread_pool_add_worker` writes to the object of a new worker. -/
def newWorker : Worker := ⟨.test, false, false⟩

/-- `malloc`, `memset` and `pthread_create` in `thread_pool_add_worker`. The object lies in fresh memory,
or in the memory `chunk` of a freed worker. -/
def spawn (s : LinkedPool) (chunk : Option Nat) : Option LinkedPool :=
  match chunk with
  | none =>
      some { s with
        pool := spawnWorker s.pool
        workerLinks := Function.update s.workerLinks s.pool.threads.length ⟨none, none⟩ }
  | some i =>
      if i ∈ s.freed then
        some { s with
          pool := { s.pool with
            threads := s.pool.threads.set i newWorker
            pending := i :: s.pool.pending }
          workerLinks := Function.update s.workerLinks i ⟨none, none⟩
          freed := s.freed.filter (· ≠ i) }
      else none

/-- The section of `thread_pool_add_worker` under `workers_mtx`. There is no next state when the worker
is freed before its call comes to this section. -/
def register (s : LinkedPool) (i : Nat) : Option LinkedPool :=
  if i ∈ s.freed then none
  else
    (registerWorker s.pool i).map fun tp =>
      { s with
        pool := tp
        workers := (listAdd s.workerLinks s.workers i).2
        workerLinks := (listAdd s.workerLinks s.workers i).1 }

/-- One of the two loops of `thread_pool_remove_workers`, along the pointers: flag the unflagged workers
whose `running` field is `wanted` until `workerNum` is 0. A loop that comes to a freed worker has no next
state, and neither has one that comes to no end; it has none when there is work left after as many
workers as there are. -/
def removeLoop (s : LinkedPool) (wanted : Bool) : Nat → Option Nat → Int → Pool → Option (Int × Pool)
  | 0, worker, workerNum, tp =>
      if worker = none ∨ workerNum = 0 then some (workerNum, tp) else none
  | _ + 1, none, workerNum, tp => some (workerNum, tp)
  | n + 1, some i, workerNum, tp =>
      if workerNum = 0 then some (workerNum, tp)
      else if i ∈ s.freed then none
      else
        match tp.threads[i]? with
        | none => none
        | some w =>
            if w.terminate = false ∧ w.running = wanted then
              removeLoop s wanted n (next s i) (workerNum - 1) (flagWorker tp i w)
            else removeLoop s wanted n (next s i) workerNum tp

/-- Both loops: the idle workers first, then the running ones. -/
def removeLoops (s : LinkedPool) (workerNum : Int) : Option (Int × Pool) :=
  (removeLoop s false s.pool.threads.length s.workers (removeTarget s.pool workerNum) s.pool).bind
    fun idle => removeLoop s true s.pool.threads.length s.workers idle.1 idle.2

/-- `thread_pool_remove_workers` up to its broadcast. The `printf` reads `tp->workers->next`. -/
def removeWorkers (s : LinkedPool) (workerNum : Int) : Option LinkedPool :=
  match s.workers with
  | none => none
  | some i =>
      if s.pool.removing.isSome ∨ i ∈ s.freed then none
      else
        (removeLoops s workerNum).map fun all =>
          { s with pool := { all.2 with
              removing := some ((List.range s.pool.threads.length).filter fun i =>
                terminateOf all.2.threads i && !terminateOf s.pool.threads i) } }

/-- The worker `i` needs `jobs_mtx` for its next step. -/
def atLock (w : Worker) : Bool := w.pc = .enter ∨ w.pc = .woken

/-- The pointers after a step of a worker: unregistering is `LIST_REMOVE`. -/
def unlink (s : LinkedPool) (i : Nat) (w : Worker) : (Nat → Link Nat) × Option Nat :=
  if w.pc = .closing then listRemove s.workerLinks s.workers i else (s.workerLinks, s.workers)

/-- `thread_pool_cycle` up to its `free(worker)`, one step of the worker `i`. -/
def cycle (s : LinkedPool) (i : Nat) : Option LinkedPool :=
  match s.pool.threads[i]? with
  | none => none
  | some w =>
      if locked s ∧ atLock w then none
      else
        (cycleStep s.pool i w).map fun tp =>
          { s with pool := tp, workerLinks := (unlink s i w).1, workers := (unlink s i w).2 }

/-- `free(worker)` at the end of `thread_pool_cycle`. -/
def freeWorker (s : LinkedPool) (i : Nat) : Option LinkedPool :=
  match s.pool.threads[i]? with
  | none => none
  | some w =>
      if w.pc = .exited ∧ i ∉ s.freed then
        some { s with
          pool := { s.pool with workers := s.pool.workers.filter (· ≠ i) }
          freed := i :: s.freed
          left := if w.terminate then i :: s.left else s.left }
      else none

/-- `worker->terminate = 1;`. Nobody sees a flag written to freed memory, and a pointer to no worker at
all has no next state. -/
def setTerminate (s : LinkedPool) (i : Nat) : Option LinkedPool :=
  match s.pool.threads[i]? with
  | none => none
  | some w =>
      some { s with
        pool := { s.pool with
          threads := if i ∈ s.freed then s.pool.threads
            else s.pool.threads.set i { w with terminate := true } }
        call := .loopNext i }

/-- `pthread_mutex_lock(&tp->jobs_mtx)` and the start of the loop of `thread_pool_destroy`. -/
def lockJobs (s : LinkedPool) : LinkedPool := { s with call := .loopTest s.workers, left := [] }

/-- `thread_pool_destroy`, one step of its caller, with `junk` for what freed memory holds. -/
def threadPoolDestroy (s : LinkedPool) (junk : Option Nat) : Option LinkedPool :=
  match s.call with
  | .idle => some (lockJobs s)
  | .loopTest (some i) => setTerminate s i
  | .loopTest none =>
      some { s with
        pool := { s.pool with threads := jobsCond.broadcast s.pool.threads }
        call := .returned }
  | .loopNext i => some { s with call := .loopTest (if i ∈ s.freed then junk else next s i) }
  | .returned => none

/-- The actions of callers and workers. -/
inductive Act where
  | addJob (job : JobPtr) (wake : Option Nat)
  | spawn (chunk : Option Nat)
  | register (i : Nat)
  | removeWorkers (workerNum : Int)
  | removeBroadcast
  | destroy (junk : Option Nat)
  | cycle (i : Nat)
  | free (i : Nat)
  | spurious (i : Nat)

/-- One step of the pool. -/
def step (s : LinkedPool) : Act → Option LinkedPool
  | .addJob job wake => addJob s job wake
  | .spawn chunk => spawn s chunk
  | .register i => register s i
  | .removeWorkers workerNum => removeWorkers s workerNum
  | .removeBroadcast => (removeBroadcast s.pool).map fun tp => { s with pool := tp }
  | .destroy junk => threadPoolDestroy s junk
  | .cycle i => cycle s i
  | .free i => freeWorker s i
  | .spurious i => (wakeSpuriously s.pool i).map fun tp => { s with pool := tp }

/-- The loop of `thread_pool_destroy` reads the `next` field of a worker whose thread has not freed
it. -/
def NextOfLive (s : LinkedPool) : Act → Prop
  | .destroy _ => ∀ i, s.call = .loopNext i → i ∉ s.freed
  | _ => True

/-- The worker has its flag, or had it when it was freed. -/
def Flagged (s : LinkedPool) (i : Nat) : Prop := terminateOf s.pool.threads i = true ∨ i ∈ s.left

/-- Once the call has returned, the workers `l` have got their flag. -/
def FlaggedAtReturn (l : List Nat) (s : LinkedPool) : Prop := s.call = .returned → ∀ i ∈ l, Flagged s i

/-- A call of `thread_pool_destroy` that starts in `s` walks through live workers only and flags every
worker on the list, however its workers and other callers go on. -/
def WalksLive (s : LinkedPool) : Prop :=
  ∀ t, Reaches step (lockJobs s) t →
    (∀ a u, step t a = some u → NextOfLive t a) ∧ FlaggedAtReturn s.pool.workers t

/-- The worker stands at `jobs_mtx`. -/
def AtMutex (w : Worker) : Prop := w.pc = .enter ∨ w.pc = .blocked ∨ w.pc = .woken

theorem AtMutex.pc_ne {w : Worker} (h : AtMutex w) : w.pc ≠ .closing ∧ w.pc ≠ .exited := by
  rcases h with h | h | h <;> simp [h]

/-- The thread `i` stands at `jobs_mtx`. -/
def AtMutexAt (threads : List Worker) (i : Nat) : Prop := ∃ w, threads[i]? = some w ∧ AtMutex w

/-- The pointers lead to the worker `i`. -/
def LeadTo (s : LinkedPool) (i : Nat) : Prop := ∃ front, IsSegment (next s) s.workers front (some i)

/-- The pointers lead only to workers that are registered and stand at `jobs_mtx`, and where they come to
an end, they have led through every worker on the list that has no flag. -/
structure Parked (s : LinkedPool) : Prop where
  atMutex : ∀ i, LeadTo s i → i ∉ s.pool.pending ∧ AtMutexAt s.pool.threads i
  covers : ∀ l, IsChain (next s) s.workers l →
    ∀ i ∈ s.pool.workers, i ∈ l ∨ terminateOf s.pool.threads i = true

/-! ## What a step may do to one thread -/

/-- The worker has left its loop. -/
def Leaver (w : Worker) : Prop := w.pc = .closing ∨ w.pc = .exited

/-- A flag stays, only flagged workers leave, and while `jobs_mtx` is held by somebody else a worker that
stands there stays. -/
structure Goes (held : Bool) (w w' : Worker) : Prop where
  flag : w.terminate = true → w'.terminate = true
  leaver : Leaver w' → Leaver w ∨ w'.terminate = true
  exited : w.pc = .exited → w'.pc = .exited
  stays : held = true → AtMutex w → AtMutex w'

theorem Goes.refl (held : Bool) (w : Worker) : Goes held w w := ⟨id, .inl, id, fun _ h => h⟩

theorem Goes.trans {held : Bool} {w w' w'' : Worker} (h : Goes held w w') (h' : Goes held w' w'') :
    Goes held w w'' where
  flag hf := h'.flag (h.flag hf)
  leaver hl := by
    rcases h'.leaver hl with hl | hf
    · rcases h.leaver hl with hl | hf
      · exact .inl hl
      · exact .inr (h'.flag hf)
    · exact .inr hf
  exited he := h'.exited (h.exited he)
  stays hh hm := h'.stays hh (h.stays hh hm)

/-- Waking a thread. -/
theorem goes_woken (held : Bool) (w : Worker) (hb : w.pc = .blocked) :
    Goes held w { w with pc := .woken } where
  flag := id
  leaver hl := by rcases hl with hl | hl <;> cases hl
  exited he := by simp [hb] at he
  stays _ _ := .inr (.inr rfl)

/-- Setting a flag. -/
theorem goes_flag (held : Bool) (w : Worker) : Goes held w { w with terminate := true } :=
  ⟨fun _ => rfl, fun _ => .inr rfl, id, fun _ hm => hm⟩

/-- The same threads, each of them changed in this way. -/
structure AllGo (held : Bool) (threads threads' : List Worker) : Prop where
  length : threads'.length = threads.length
  kept : Kept (Goes held) threads threads'

theorem AllGo.refl (held : Bool) (threads : List Worker) : AllGo held threads threads :=
  ⟨rfl, kept_refl (Goes.refl held) threads⟩

theorem AllGo.trans {held : Bool} {threads threads' threads'' : List Worker}
    (h : AllGo held threads threads') (h' : AllGo held threads' threads'') :
    AllGo held threads threads'' :=
  ⟨h'.length.trans h.length, Kept.trans (R := Goes held) (fun _ _ _ => Goes.trans) h.kept h'.kept⟩

theorem AllGo.back {held : Bool} {threads threads' : List Worker} (h : AllGo held threads threads')
    {i : Nat} {w' : Worker} (hw : threads'[i]? = some w') :
    ∃ w, threads[i]? = some w ∧ Goes held w w' :=
  h.kept.back h.length hw

theorem allGo_set {held : Bool} {threads : List Worker} {j : Nat} {w v : Worker}
    (hw : threads[j]? = some w) (h : Goes held w v) : AllGo held threads (threads.set j v) :=
  ⟨List.length_set, kept_set (Goes.refl held) hw h⟩

theorem allGo_broadcast (held : Bool) (threads : List Worker) :
    AllGo held threads (jobsCond.broadcast threads) := by
  refine ⟨CondVar.length_broadcast threads, CondVar.kept_broadcast (Goes.refl held) ?_ threads⟩
  intro w hb
  exact goes_woken held w (by simpa using hb)

theorem allGo_signal {held : Bool} {threads threads' : List Worker} {wake : Option Nat}
    (h : jobsCond.signal threads wake = some threads') : AllGo held threads threads' := by
  refine ⟨CondVar.length_signal h, CondVar.kept_signal (Goes.refl held) ?_ h⟩
  intro w hb
  exact goes_woken held w (by simpa using hb)

/-- A worker that can move does not stand at a mutex that is held. -/
theorem allGo_cycleMove {held : Bool} {tp tp' : Pool} {i : Nat} {w : Worker}
    (hw : tp.threads[i]? = some w) (hfree : held = true → ¬ AtMutex w)
    (hmove : CycleMove tp i w tp') : AllGo held tp.threads tp'.threads := by
  have hset : ∀ v : Worker, v.terminate = w.terminate → w.pc ≠ .exited →
      (Leaver v → Leaver w ∨ v.terminate = true) → AllGo held tp.threads (tp.threads.set i v) := by
    intro v hv hexit hleave
    apply allGo_set hw
    exact ⟨fun hf => hv.trans hf, hleave, fun he => absurd he hexit, fun hh hm => absurd hm (hfree hh)⟩
  cases hmove with
  | test hpc =>
      refine hset _ rfl (by simp [hpc]) fun hl => .inr ?_
      -- the loop is left with the flag set
      cases hf : w.terminate with
      | true => rfl
      | false => rcases hl with hl | hl <;> simp [hf] at hl
  | take hpc =>
      obtain ⟨pc, links, jobs, n, hpc', heq⟩ := takeJob_frame tp i w
      rw [heq]
      refine hset _ rfl ?_ fun hl => ?_
      · rcases hpc with hpc | hpc <;> simp [hpc]
      · rcases hpc' with rfl | ⟨t, rfl⟩ <;> rcases hl with hl | hl <;> cases hl
  | close hpc _ => exact hset _ rfl (by simp [hpc]) fun _ => .inl (.inl hpc)
  | sleep hpc _ => exact hset _ rfl (by simp [hpc]) fun hl => by rcases hl with hl | hl <;> cases hl
  | mark t hpc => exact hset _ rfl (by simp [hpc]) fun hl => by rcases hl with hl | hl <;> cases hl
  | count t hpc => exact hset _ rfl (by simp [hpc]) fun hl => by rcases hl with hl | hl <;> cases hl
  | start t hpc => exact hset _ rfl (by simp [hpc]) fun hl => by rcases hl with hl | hl <;> cases hl
  | finish t hpc => exact hset _ rfl (by simp [hpc]) fun hl => by rcases hl with hl | hl <;> cases hl
  | uncount hpc => exact hset _ rfl (by simp [hpc]) fun hl => by rcases hl with hl | hl <;> cases hl

/-- The pool after some flags of `thread_pool_remove_workers`. -/
def FlagsSet (tp tp' : Pool) : Prop :=
  ∃ (threads : List Worker) (k : Int), tp' = { tp with threads := threads, terminateWorkersNum := k } ∧
    ∀ held, AllGo held tp.threads threads

theorem FlagsSet.flagWorker {tp tp' : Pool} (h : FlagsSet tp tp') {i : Nat} {w : Worker}
    (hw : tp'.threads[i]? = some w) : FlagsSet tp (flagWorker tp' i w) := by
  obtain ⟨threads, k, rfl, hgo⟩ := h
  exact ⟨_, _, rfl, fun held => (hgo held).trans (allGo_set hw (goes_flag held w))⟩

theorem flagsSet_removeLoop {s : LinkedPool} {wanted : Bool} {tp : Pool} : ∀ (n : Nat)
    (worker : Option Nat) (workerNum : Int) (tp' : Pool) (r : Int × Pool), FlagsSet tp tp' →
      removeLoop s wanted n worker workerNum tp' = some r → FlagsSet tp r.2 := by
  intro n
  induction n with
  | zero =>
      intro worker workerNum tp' r h hr
      simp only [removeLoop] at hr
      split at hr
      · cases hr
        exact h
      · cases hr
  | succ n ih =>
      intro worker workerNum tp' r h hr
      cases worker with
      | none =>
          simp only [removeLoop, Option.some.injEq] at hr
          exact hr ▸ h
      | some i =>
          simp only [removeLoop] at hr
          split at hr
          · cases hr
            exact h
          · split at hr
            · cases hr
            · split at hr
              · cases hr
              · next w hw =>
                  split at hr
                  · exact ih _ _ _ r (h.flagWorker hw) hr
                  · exact ih _ _ _ r h hr

theorem flagsSet_removeLoops {s : LinkedPool} {workerNum : Int} {r : Int × Pool}
    (h : removeLoops s workerNum = some r) : FlagsSet s.pool r.2 := by
  obtain ⟨idle, hidle, hrest⟩ := Option.bind_eq_some_iff.1 h
  have hfirst : FlagsSet s.pool idle.2 :=
    flagsSet_removeLoop _ _ _ _ idle ⟨_, _, rfl, fun held => .refl held _⟩ hidle
  exact flagsSet_removeLoop _ _ _ _ r hfirst hrest

/-! ## What a step can do -/

/-- The moves of the caller of `thread_pool_destroy`. -/
inductive CallMove (s : LinkedPool) (junk : Option Nat) : LinkedPool → Prop
  | lock : s.call = .idle → CallMove s junk (lockJobs s)
  | flag (i : Nat) (w : Worker) : s.call = .loopTest (some i) → s.pool.threads[i]? = some w →
      i ∉ s.freed →
      CallMove s junk { s with
        pool := { s.pool with threads := s.pool.threads.set i { w with terminate := true } }
        call := .loopNext i }
  | flagFreed (i : Nat) : s.call = .loopTest (some i) → i ∈ s.freed →
      CallMove s junk { s with call := .loopNext i }
  | next (i : Nat) : s.call = .loopNext i →
      CallMove s junk { s with call := .loopTest (if i ∈ s.freed then junk else next s i) }
  | close : s.call = .loopTest none →
      CallMove s junk { s with
        pool := { s.pool with threads := jobsCond.broadcast s.pool.threads }
        call := .returned }

/-- The moves of everybody else. -/
inductive OtherMove (s : LinkedPool) : LinkedPool → Prop
  | addJob (job : JobPtr) (wake : Option Nat) (tp : Pool) :
      ThreadPool.Move s.pool (.addJob job wake) tp → OtherMove s { s with pool := tp }
  | spawn :
      OtherMove s { s with
        pool := spawnWorker s.pool
        workerLinks := Function.update s.workerLinks s.pool.threads.length ⟨none, none⟩ }
  | reuse (i : Nat) : i ∈ s.freed →
      OtherMove s { s with
        pool := { s.pool with
          threads := s.pool.threads.set i newWorker
          pending := i :: s.pool.pending }
        workerLinks := Function.update s.workerLinks i ⟨none, none⟩
        freed := s.freed.filter (· ≠ i) }
  | register (i : Nat) : s.pool.removing = none → i ∈ s.pool.pending → i ∉ s.freed →
      OtherMove s { s with
        pool := { s.pool with
          pending := s.pool.pending.erase i
          workers := i :: s.pool.workers
          totalWorkersNum := s.pool.totalWorkersNum + 1 }
        workers := some i
        workerLinks := (listAdd s.workerLinks s.workers i).1 }
  | removeWorkers (tp : Pool) (removing : Option (List Nat)) : FlagsSet s.pool tp →
      OtherMove s { s with pool := { tp with removing := removing } }
  | removeBroadcast :
      OtherMove s { s with
        pool := { s.pool with threads := jobsCond.broadcast s.pool.threads, removing := none } }
  | cycle (i : Nat) (w : Worker) (tp : Pool) : s.pool.threads[i]? = some w →
      (locked s = true → ¬ AtMutex w) → w.pc ≠ .closing → CycleMove s.pool i w tp →
      OtherMove s { s with pool := tp }
  | close (i : Nat) (w : Worker) : s.pool.threads[i]? = some w → w.pc = .closing →
      OtherMove s { s with
        pool := { s.pool with
          workers := s.pool.workers.erase i
          totalWorkersNum := s.pool.totalWorkersNum - 1
          terminateWorkersNum := s.pool.terminateWorkersNum - 1
          threads := s.pool.threads.set i { w with pc := .exited } }
        workers := (listRemove s.workerLinks s.workers i).2
        workerLinks := (listRemove s.workerLinks s.workers i).1 }
  | free (i : Nat) (w : Worker) : s.pool.threads[i]? = some w → w.pc = .exited →
      OtherMove s { s with
        pool := { s.pool with workers := s.pool.workers.filter (· ≠ i) }
        freed := i :: s.freed
        left := if w.terminate then i :: s.left else s.left }
  | spurious (i : Nat) (w : Worker) : s.pool.threads[i]? = some w → w.pc = .blocked →
      OtherMove s { s with
        pool := { s.pool with threads := s.pool.threads.set i { w with pc := .woken } } }

theorem callMove_of_step {s s' : LinkedPool} {junk : Option Nat}
    (h : threadPoolDestroy s junk = some s') : CallMove s junk s' := by
  unfold threadPoolDestroy at h
  cases hc : s.call with
  | idle =>
      simp only [hc, Option.some.injEq] at h
      exact h ▸ .lock hc
  | loopTest worker =>
      cases worker with
      | none =>
          simp only [hc, Option.some.injEq] at h
          exact h ▸ .close hc
      | some i =>
          simp only [hc, setTerminate] at h
          split at h
          · cases h
          · next w hw =>
              by_cases hf : i ∈ s.freed
              · simp only [hf, if_true, Option.some.injEq] at h
                exact h ▸ .flagFreed i hc hf
              · simp only [hf, if_false, Option.some.injEq] at h
                exact h ▸ .flag i w hc hw hf
  | loopNext i =>
      simp only [hc, Option.some.injEq] at h
      exact h ▸ .next i hc
  | returned => simp [hc] at h

theorem otherMove_of_cycle {s s' : LinkedPool} {i : Nat} (h : cycle s i = some s') :
    OtherMove s s' := by
  simp only [cycle] at h
  split at h
  · cases h
  · next w hw =>
      split at h
      · cases h
      · next hfree =>
          obtain ⟨tp, htp, rfl⟩ := Option.map_eq_some_iff.1 h
          have hmove := cycleMove_of_cycleStep htp
          have haway : locked s = true → ¬ AtMutex w := by
            rintro hl (he | hb | hk)
            · exact hfree ⟨hl, by simp [atLock, he]⟩
            · simp [cycleStep, hb] at htp
            · exact hfree ⟨hl, by simp [atLock, hk]⟩
          by_cases hc : w.pc = .closing
          · -- unregistering
            cases hmove with
            | close _ _ =>
                simp only [unlink, if_pos hc]
                exact .close i w hw hc
            | take hpc => rcases hpc with hpc | hpc <;> simp [hpc] at hc
            | _ => simp_all
          · simp only [unlink, if_neg hc]
            exact .cycle i w tp hw haway hc hmove

theorem otherMove_of_spawn {s s' : LinkedPool} {chunk : Option Nat} (h : spawn s chunk = some s') :
    OtherMove s s' := by
  cases chunk with
  | none =>
      simp only [spawn, Option.some.injEq] at h
      exact h ▸ .spawn
  | some i =>
      simp only [spawn] at h
      split at h
      · next hf =>
          cases h
          exact .reuse i hf
      · cases h

theorem otherMove_of_register {s s' : LinkedPool} {i : Nat} (h : register s i = some s') :
    OtherMove s s' := by
  simp only [register] at h
  split at h
  · cases h
  · next hf =>
      obtain ⟨tp, htp, rfl⟩ := Option.map_eq_some_iff.1 h
      have hmove : ThreadPool.Move s.pool (.register i) tp := ThreadPool.move_of_step htp
      cases hmove with
      | register _ hr hi => exact .register i hr hi hf

theorem otherMove_of_removeWorkers {s s' : LinkedPool} {workerNum : Int}
    (h : removeWorkers s workerNum = some s') : OtherMove s s' := by
  simp only [removeWorkers] at h
  split at h
  · cases h
  · split at h
    · cases h
    · obtain ⟨r, hr, rfl⟩ := Option.map_eq_some_iff.1 h
      exact .removeWorkers r.2 _ (flagsSet_removeLoops hr)

/-- Every step is one of the moves. -/
theorem move_of_step {s s' : LinkedPool} {a : Act} (h : step s a = some s') :
    (∃ junk, a = .destroy junk ∧ CallMove s junk s') ∨ OtherMove s s' := by
  cases a with
  | destroy junk => exact .inl ⟨junk, rfl, callMove_of_step h⟩
  | addJob job wake =>
      refine .inr ?_
      simp only [step, addJob] at h
      split at h
      · cases h
      · obtain ⟨tp, htp, rfl⟩ := Option.map_eq_some_iff.1 h
        exact .addJob job wake tp (ThreadPool.move_of_step htp)
  | spawn chunk => exact .inr (otherMove_of_spawn h)
  | register i => exact .inr (otherMove_of_register h)
  | removeWorkers n => exact .inr (otherMove_of_removeWorkers h)
  | removeBroadcast =>
      refine .inr ?_
      obtain ⟨tp, htp, rfl⟩ := Option.map_eq_some_iff.1 h
      have hmove : ThreadPool.Move s.pool .removeBroadcast tp := ThreadPool.move_of_step htp
      cases hmove with
      | removeBroadcast flagged _ => exact .removeBroadcast
  | cycle i => exact .inr (otherMove_of_cycle h)
  | free i =>
      refine .inr ?_
      simp only [step, freeWorker] at h
      split at h
      · cases h
      · next w hw =>
          split at h
          · next hpc =>
              cases h
              exact .free i w hw hpc.1
          · cases h
  | spurious i =>
      refine .inr ?_
      obtain ⟨tp, htp, rfl⟩ := Option.map_eq_some_iff.1 h
      have hmove : ThreadPool.Move s.pool (.spurious i) tp := ThreadPool.move_of_step htp
      cases hmove with
      | spurious _ w hw hb => exact .spurious i w hw hb

end CppMisc.ThreadPool.Destroy
