import CppMisc.NtyThreadPool.Shutdown
import CppMisc.ThreadPool.DeadWorkers

/-!
# Walking the worker list of a pool that is torn down

Both pools are torn down by a loop that flags one worker after another and steps from each worker to the
next through a field of its object. A flagged worker may leave and free that object.

In `threadpool/tp.c` nothing keeps it from doing so. The walk of `ntyThreadPoolShutdown` is safe in the
runs in which no worker calls `free` between the two statements of the loop that concern it, and only an
empty list makes it safe whatever the workers do: wherever the first worker stands, it can be flagged,
leave and be gone before its `next` field is read. In `threadpool/thread_pool.c` the loop holds
`jobs_mtx`, and the walk of `thread_pool_destroy` is safe exactly when every worker that the pointers
lead to is registered and stands at that mutex, and the pointers do not miss a worker on the list.
-/

set_option autoImplicit false

namespace CppMisc.NtyThreadPool

open CppMisc.Library
open CppMisc.ThreadPool (Link)

/-- A worker calls `free(worker)` at a time when the loop of `ntyThreadPoolShutdown` does not stand between
the flag and the `next` field of that worker. -/
def FreesBehind (q : WorkQueue) : Act → Prop
  | .work i => q.threads[i]?.map NWorker.pc = some .leaving → q.shutdown ≠ .loopNext i
  | _ => True

instance (q : WorkQueue) : ∀ a : Act, Decidable (FreesBehind q a)
  | .work i => inferInstanceAs
      (Decidable (q.threads[i]?.map NWorker.pc = some .leaving → q.shutdown ≠ .loopNext i))
  | .queue _ _ => isTrue trivial
  | .shutdown _ => isTrue trivial
  | .spurious _ => isTrue trivial

/-- Once the call has returned, every worker has its flag. All of them are on the list, which nobody
changes between creation and shutdown. -/
def AllFlagged (q : WorkQueue) : Prop :=
  q.shutdown = .returned → ∀ w ∈ q.threads, w.terminate = true

/-- A call of `ntyThreadPoolShutdown` that starts in `q` walks through live workers only and flags every
worker, however its workers and other callers go on. -/
def WalksLive (q : WorkQueue) : Prop :=
  ∀ t, Reaches step { q with shutdown := .loopTest q.workers } t →
    (∀ a u, step t a = some u → NextOfLive t a) ∧ AllFlagged t

/-! ## Runs in which workers free themselves behind the walk -/

/-- The workers of a list are not flagged. -/
def Clear (threads : List NWorker) (l : List Nat) : Prop :=
  ∀ i ∈ l, ∀ w, threads[i]? = some w → w.terminate = false

/-- The walk has not touched the workers ahead of it, and stands on a worker that is not freed. -/
def Untouched (q : WorkQueue) : Prop :=
  match q.shutdown with
  | .idle => Unflagged q.threads
  | .loopTest worker => ∃ l, IsChain (fun i => (q.workerLinks i).next) worker l ∧ Clear q.threads l
  | .loopNext i =>
      q.threads[i]?.map NWorker.pc ≠ some .freed ∧
        ∃ l, IsChain (fun i => (q.workerLinks i).next) (q.workerLinks i).next l ∧ Clear q.threads l
  | .returned => True

/-- A step that sets no flag, and does not free the worker on which the walk stands. -/
theorem untouched_of_threads {q : WorkQueue} (h : Untouched q) {threads : List NWorker}
    (hthreads : ∀ (j : Nat) (w' : NWorker), threads[j]? = some w' → ∃ w, q.threads[j]? = some w ∧
      w'.terminate = w.terminate ∧ (q.shutdown = .loopNext j → w'.pc = .freed → w.pc = .freed))
    {q' : WorkQueue} (heq : q'.threads = threads) (hlinks : q'.workerLinks = q.workerLinks)
    (hshutdown : q'.shutdown = q.shutdown) : Untouched q' := by
  have hclear : ∀ l, Clear q.threads l → Clear threads l := by
    intro l hl i hi w' hw'
    obtain ⟨w, hw, hflag, -⟩ := hthreads i w' hw'
    exact hflag.trans (hl i hi w hw)
  simp only [Untouched] at h ⊢
  rw [hshutdown, hlinks, heq]
  cases hs : q.shutdown with
  | idle =>
      simp only [hs] at h ⊢
      intro i w' hw'
      obtain ⟨w, hw, hflag, -⟩ := hthreads i w' hw'
      exact hflag.trans (h i w hw)
  | loopTest worker =>
      simp only [hs] at h ⊢
      obtain ⟨l, hl, hc⟩ := h
      exact ⟨l, hl, hclear l hc⟩
  | loopNext i =>
      simp only [hs] at h ⊢
      obtain ⟨hlive, l, hl, hc⟩ := h
      refine ⟨fun hfreed => hlive ?_, l, hl, hclear l hc⟩
      obtain ⟨w', hw', hpc⟩ := Option.map_eq_some_iff.1 hfreed
      obtain ⟨w, hw, -, hback⟩ := hthreads i w' hw'
      rw [hw, Option.map_some, hback hs hpc]
  | returned => trivial

/-- A move of one thread to another place. -/
theorem untouched_set {q q' : WorkQueue} (h : Untouched q) {j : Nat} {w : NWorker} {pc : Pc}
    (heq : q'.threads = q.threads.set j { w with pc := pc }) (hlinks : q'.workerLinks = q.workerLinks)
    (hshutdown : q'.shutdown = q.shutdown) (hw : q.threads[j]? = some w)
    (hfreed : q.shutdown = .loopNext j → pc ≠ .freed) : Untouched q' := by
  refine untouched_of_threads h (fun i x hx => ?_) heq hlinks hshutdown
  rcases getElem?_set_cases hx with ⟨rfl, rfl⟩ | ⟨-, hx⟩
  · exact ⟨w, hw, rfl, fun hs hpc => absurd hpc (hfreed hs)⟩
  · exact ⟨x, hx, rfl, fun _ hpc => hpc⟩

theorem untouched_workerMove {q q' : WorkQueue} (h : Untouched q) {i : Nat} {w : NWorker}
    (hw : q.threads[i]? = some w) (hbehind : FreesBehind q (.work i)) (hmove : WorkerMove q i w q') :
    Untouched q' := by
  cases hmove with
  | free hpc =>
      -- the walk does not stand on a worker that frees itself
      refine untouched_set h rfl rfl rfl hw fun hs => ?_
      exact absurd hs (hbehind (by rw [hw, Option.map_some, hpc]))
  | _ => exact untouched_set h rfl rfl rfl hw (by simp)

theorem untouched_step {q q' : WorkQueue} {a : Act} (ht : Teardown q) (h : Untouched q)
    (hbehind : FreesBehind q a) (hstep : step q a = some q') : Untouched q' := by
  cases move_of_step hstep with
  | queue job wake threads _ hsig =>
      rcases CondVar.signal_cases hsig with ⟨rfl, -⟩ | ⟨i, w, hw, -, rfl⟩
      · exact untouched_of_threads h (fun _ w hw => ⟨w, hw, rfl, fun _ hpc => hpc⟩) rfl rfl rfl
      · exact untouched_set h rfl rfl rfl hw (by simp)
  | start junk hs =>
      -- before the walk nobody is flagged
      have hphase := ht.phase
      simp only [Phase, hs] at hphase
      simp only [Untouched, hs] at h ⊢
      obtain ⟨l, hl, -⟩ := hphase
      exact ⟨l, hl, fun i _ w hw => h i w hw⟩
  | flag junk i w hs hw hlive =>
      simp only [Untouched, hs] at h ⊢
      obtain ⟨l, hl, hclear⟩ := h
      obtain ⟨rest, rfl, hrest⟩ := isChain_some_iff.1 hl
      obtain ⟨hlt, -⟩ := List.getElem?_eq_some_iff.1 hw
      refine ⟨by simp [hlt, hlive], rest, hrest, fun j hj x hx => ?_⟩
      have hji : j ≠ i := fun he => (List.nodup_cons.1 hl.nodup).1 (he ▸ hj)
      rw [List.getElem?_set_ne hji.symm] at hx
      exact hclear j (List.mem_cons_of_mem i hj) x hx
  | flagFreed junk i w hs hw hf =>
      -- a freed worker is flagged, and the worker ahead of the walk is not
      simp only [Untouched, hs] at h
      obtain ⟨l, hl, hclear⟩ := h
      obtain ⟨rest, rfl, -⟩ := isChain_some_iff.1 hl
      have hflag := ht.gone i w hw (.inr hf)
      rw [hclear i List.mem_cons_self w hw] at hflag
      cases hflag
  | next junk i hs =>
      simp only [Untouched, hs, readNext] at h ⊢
      obtain ⟨hlive, l, hl, hclear⟩ := h
      rw [if_neg hlive]
      exact ⟨l, hl, hclear⟩
  | close junk _ => trivial
  | work i w _ hw hmove => exact untouched_workerMove h hw hbehind hmove
  | spurious i w hw _ => exact untouched_set h rfl rfl rfl hw (by simp)

theorem Untouched.nextOfLive {q : WorkQueue} (h : Untouched q) (a : Act) : NextOfLive q a := by
  cases a with
  | shutdown junk =>
      cases hs : q.shutdown with
      | loopNext i =>
          simp only [Untouched, hs] at h
          simp only [NextOfLive, hs]
          exact h.1
      | _ => simp [NextOfLive, hs]
  | _ => trivial

theorem Teardown.allFlagged {q : WorkQueue} (h : Teardown q) : AllFlagged q := by
  intro hret w hw
  obtain ⟨i, hi⟩ := List.mem_iff_getElem?.1 hw
  have hphase := h.phase
  simp only [Phase, hret] at hphase
  exact (hphase i w hi).1

/-- The invariant of the runs in which workers free themselves behind the walk. -/
def Calm (q : WorkQueue) : Prop := Teardown q ∧ Untouched q

theorem calm_step (q : WorkQueue) (a : Act) (q' : WorkQueue) (h : Calm q) (hbehind : FreesBehind q a)
    (hstep : step q a = some q') : Calm q' :=
  ⟨teardown_step q a q' h.1 (h.2.nextOfLive a) hstep, untouched_step h.1 h.2 hbehind hstep⟩

theorem Fresh.calm {q : WorkQueue} {l : List Nat} (h : Fresh q l) : Calm q := by
  refine ⟨h.teardown, ?_⟩
  simp only [Untouched, h.shutdown]
  exact (h.served.opened h.shutdown).1

/-! ## The walk from a given state -/

/-- Before the call: no flag is set, the pointers lead through all workers, and the head is one of them. -/
structure BeforeCall (q : WorkQueue) : Prop where
  unflagged : Unflagged q.threads
  ahead : Ahead q.threads q.workerLinks q.workers
  head : ∀ i, q.workers = some i → i < q.threads.length

theorem beforeCall_step (q : WorkQueue) (a : Act) (q' : WorkQueue)
    (h : q.shutdown = .idle → BeforeCall q) (hstep : step q a = some q') :
    q'.shutdown = .idle → BeforeCall q' := by
  intro hidle
  have hsteady : ∀ q' : WorkQueue, BeforeCall q → AllSteady q.threads q'.threads →
      q'.workers = q.workers → q'.workerLinks = q.workerLinks →
      q'.threads.length = q.threads.length → BeforeCall q' := by
    intro q' hb hs hworkers hlinks hlen
    refine ⟨unflagged_of_steady hb.unflagged hs, ?_, ?_⟩
    · rw [hworkers, hlinks]
      exact ahead_of_steady hb.ahead hs
    · rw [hworkers, hlen]
      exact hb.head
  cases move_of_step hstep with
  | queue job wake threads _ hsig =>
      exact hsteady _ (h hidle) (allSteady_signal hsig) rfl rfl (CondVar.length_signal hsig)
  | work i w _ hw hmove =>
      have hs := allSteady_workerMove hw hmove
      cases hmove with
      | _ => exact hsteady _ (h hidle) hs rfl rfl List.length_set
  | spurious i w hw _ =>
      exact hsteady _ (h hidle) (allSteady_set hw (steady_woken w)) rfl rfl List.length_set
  -- the other steps are steps of the shutdown
  | _ => cases hidle

theorem Fresh.beforeCall {q : WorkQueue} {l : List Nat} (h : Fresh q l) : BeforeCall q := by
  have hphase := h.teardown.phase
  simp only [Phase, h.shutdown] at hphase
  refine ⟨(h.served.opened h.shutdown).1, hphase, fun i hi => ?_⟩
  have hchain := h.chain
  rw [hi] at hchain
  obtain ⟨rest, rfl, -⟩ := isChain_some_iff.1 hchain
  exact (h.listed i).2 List.mem_cons_self

/-- The worker `i` may be freed while the walk still stands on it. -/
def MayBeFreed (q : WorkQueue) (i : Nat) : Prop :=
  ∃ t, Reaches step q t ∧ t.shutdown = .loopNext i ∧ t.threads[i]?.map NWorker.pc = some .freed

theorem MayBeFreed.of_step {q q' : WorkQueue} {a : Act} {i : Nat} (hstep : step q a = some q')
    (h : MayBeFreed q' i) : MayBeFreed q i := by
  obtain ⟨t, ht, hrest⟩ := h
  exact ⟨t, Reaches.trans (.single hstep) ht, hrest⟩

theorem mayBeFreed_of_leaving {q : WorkQueue} {i : Nat} {w : NWorker} (hs : q.shutdown = .loopNext i)
    (hw : q.threads[i]? = some w) (hpc : w.pc = .leaving) : MayBeFreed q i := by
  obtain ⟨hlt, -⟩ := List.getElem?_eq_some_iff.1 hw
  have hstep : step q (.work i) =
      some { q with threads := q.threads.set i { w with pc := .freed } } := by
    simp [step, ntyWorkerThread, hw, workerStep, hpc]
  exact ⟨_, .single hstep, hs, by simp [hlt]⟩

theorem mayBeFreed_of_lock {q : WorkQueue} {i : Nat} {w : NWorker} (hs : q.shutdown = .loopNext i)
    (hw : q.threads[i]? = some w) (hflag : w.terminate = true) (hpc : w.pc = .lock ∨ w.pc = .woken) :
    MayBeFreed q i := by
  obtain ⟨hlt, -⟩ := List.getElem?_eq_some_iff.1 hw
  have hstep : step q (.work i) =
      some { q with threads := q.threads.set i { w with pc := .leaving } } := by
    rcases hpc with hpc | hpc <;>
      simp [step, ntyWorkerThread, hw, workerStep, hpc, workerSection, hflag]
  apply MayBeFreed.of_step hstep
  exact mayBeFreed_of_leaving (w := { w with pc := .leaving }) hs (List.getElem?_set_self hlt) rfl

/-- A flagged worker can leave and free itself, wherever it stands. -/
theorem mayBeFreed_of_flag {q : WorkQueue} {i : Nat} {w : NWorker} (hs : q.shutdown = .loopNext i)
    (hw : q.threads[i]? = some w) (hflag : w.terminate = true) : MayBeFreed q i := by
  obtain ⟨hlt, -⟩ := List.getElem?_eq_some_iff.1 hw
  cases hpc : w.pc with
  | lock => exact mayBeFreed_of_lock hs hw hflag (.inl hpc)
  | woken => exact mayBeFreed_of_lock hs hw hflag (.inr hpc)
  | blocked =>
      -- a wake-up without a signal
      have hstep : step q (.spurious i) =
          some { q with threads := q.threads.set i { w with pc := .woken } } := by
        simp [step, wakeSpuriously, hw, hpc]
      apply MayBeFreed.of_step hstep
      exact mayBeFreed_of_lock (w := { w with pc := .woken }) hs (List.getElem?_set_self hlt) hflag
        (.inr rfl)
  | inJob t =>
      have hstep : step q (.work i) =
          some { q with threads := q.threads.set i { w with pc := .lock } } := by
        simp [step, ntyWorkerThread, hw, workerStep, hpc]
      apply MayBeFreed.of_step hstep
      exact mayBeFreed_of_lock (w := { w with pc := .lock }) hs (List.getElem?_set_self hlt) hflag
        (.inl rfl)
  | leaving => exact mayBeFreed_of_leaving hs hw hpc
  | freed => exact ⟨q, .refl q, hs, by rw [hw, Option.map_some, hpc]⟩

/-- The worker at the head of the list can be gone before its `next` field is read. -/
theorem not_walksLive_of_head {q : WorkQueue} (h : BeforeCall q) {i : Nat}
    (hi : q.workers = some i) : ¬ WalksLive q := by
  intro hwalk
  obtain ⟨w, hw⟩ : ∃ w, q.threads[i]? = some w := ⟨_, List.getElem?_eq_getElem (h.head i hi)⟩
  obtain ⟨hlt, -⟩ := List.getElem?_eq_some_iff.1 hw
  have hgone : MayBeFreed { q with shutdown := .loopTest q.workers } i := by
    by_cases hf : w.pc = .freed
    · have hstep : step { q with shutdown := .loopTest q.workers } (.shutdown none) =
          some { q with shutdown := .loopNext i } := by
        simp [step, ntyThreadPoolShutdown, hi, setTerminate, hw, hf]
      exact MayBeFreed.of_step hstep ⟨_, .refl _, rfl, by rw [hw, Option.map_some, hf]⟩
    · have hstep : step { q with shutdown := .loopTest q.workers } (.shutdown none) =
          some { q with
            threads := q.threads.set i { w with terminate := true }
            shutdown := .loopNext i } := by
        simp [step, ntyThreadPoolShutdown, hi, setTerminate, hw, hf]
      apply MayBeFreed.of_step hstep
      exact mayBeFreed_of_flag (w := { w with terminate := true }) rfl (List.getElem?_set_self hlt) rfl
  obtain ⟨t, ht, hstill, hfreed⟩ := hgone
  have hread : step t (.shutdown none) = some (readNext t i none) := by
    simp [step, ntyThreadPoolShutdown, hstill]
  have hlive := (hwalk t ht).1 (.shutdown none) _ hread
  simp only [NextOfLive, hstill] at hlive
  exact hlive hfreed

/-- Without workers the call returns at once. -/
theorem walksLive_of_empty {q : WorkQueue} (h : BeforeCall q) (hnone : q.workers = none) :
    WalksLive q := by
  have hempty : q.threads = [] := by
    refine List.eq_nil_iff_forall_not_mem.2 fun w hw => ?_
    obtain ⟨i, hi⟩ := List.mem_iff_getElem?.1 hw
    obtain ⟨l, hl, hall⟩ := h.ahead
    rw [hnone] at hl
    obtain rfl := isChain_none_iff.1 hl
    have hflag := (hall i w hi).resolve_right (by simp)
    rw [h.unflagged i w hi] at hflag
    cases hflag
  intro t ht
  have hinv := ht.invariant (P := fun t : WorkQueue => t.threads = [] ∧
    (t.shutdown = .loopTest none ∨ t.shutdown = .returned)) ?_ ⟨hempty, .inl (by rw [hnone])⟩
  · obtain ⟨hthreads, hcall⟩ := hinv
    refine ⟨fun a u _ => ?_, fun _ w hw => by simp [hthreads] at hw⟩
    cases a with
    | shutdown junk => rcases hcall with hcall | hcall <;> simp [NextOfLive, hcall]
    | _ => trivial
  · rintro s a s' ⟨hthreads, hcall⟩ hstep
    cases move_of_step hstep with
    | queue job wake threads _ hsig =>
        refine ⟨List.length_eq_zero_iff.1 ?_, hcall⟩
        rw [CondVar.length_signal hsig, hthreads, List.length_nil]
    | close junk _ => exact ⟨by simp [shutdownSection, CondVar.broadcast, hthreads], .inr rfl⟩
    | work i w _ hw _ => simp [hthreads] at hw
    | spurious i w hw _ => simp [hthreads] at hw
    | start junk hs => rcases hcall with hcall | hcall <;> simp [hs] at hcall
    | flag junk i w hs => rcases hcall with hcall | hcall <;> simp [hs] at hcall
    | flagFreed junk i w hs => rcases hcall with hcall | hcall <;> simp [hs] at hcall
    | next junk i hs => rcases hcall with hcall | hcall <;> simp [hs] at hcall

/-- A call of `ntyThreadPoolShutdown` is safe from the workers exactly when there are none. -/
theorem walksLive_iff_empty {q : WorkQueue} (h : BeforeCall q) : WalksLive q ↔ q.workers = none := by
  constructor
  · intro hwalk
    cases hi : q.workers with
    | none => rfl
    | some i => exact absurd hwalk (not_walksLive_of_head h hi)
  · exact walksLive_of_empty h

/-! ## Both pools -/

/-- **Teardown and dead workers.** For `tp.c`: in every run after `ntyThreadPoolCreate` in which no worker
frees itself while the walk stands on it, the walk of `ntyThreadPoolShutdown` reads live workers only, and
every worker has its flag when the call returns; and a call that starts in a given state is safe in all
interleavings exactly when the worker list is empty. For `thread_pool.c`: a call of `thread_pool_destroy`
that starts in a given state, reached by any calls of the pool and any steps of its workers, is safe in
all interleavings exactly when the pointers of the worker list lead only to registered workers that stand
at `jobs_mtx`, and where they come to an end, to all workers on the list without a flag. -/
theorem teardown_reads_live (works : Nat → Bool) (numWorkers : Int) (acts : List Act) (q : WorkQueue)
    (s : ThreadPool.Destroy.LinkedPool) :
    (EveryStep step FreesBehind (ntyThreadPoolCreate works numWorkers).2 acts →
      EveryStep step NextOfLive (ntyThreadPoolCreate works numWorkers).2 acts ∧
        EveryState step AllFlagged (ntyThreadPoolCreate works numWorkers).2 acts) ∧
    (Reaches step (ntyThreadPoolCreate works numWorkers).2 q → q.shutdown = .idle →
      (WalksLive q ↔ q.workers = none)) ∧
    (Reaches ThreadPool.Destroy.step ThreadPool.Destroy.start s → s.call = .idle →
      (ThreadPool.Destroy.WalksLive s ↔ ThreadPool.Destroy.Parked s)) := by
  obtain ⟨l, hfresh⟩ := fresh_create works numWorkers
  refine ⟨fun hbehind => ⟨?_, ?_⟩, fun hq hidle => ?_, fun hs _ => ?_⟩
  · exact hbehind.of_invariant calm_step (fun q a _ h _ => h.2.nextOfLive a) hfresh.calm
  · exact everyState_of_everyStep calm_step (fun _ h => h.1.allFlagged) acts _ hfresh.calm hbehind
  · have hbefore := hq.invariant (P := fun q => q.shutdown = .idle → BeforeCall q) beforeCall_step
      (fun _ => hfresh.beforeCall)
    exact walksLive_iff_empty (hbefore hidle)
  · exact ThreadPool.Destroy.walksLive_iff_parked hs

/-- One worker is created and goes to sleep. -/
def sleepingWorker : List ThreadPool.Destroy.Act :=
  [.spawn none, .register 0, .cycle 0, .cycle 0]

/-- Control: `calmShutdown` frees nobody, a pool of `tp.c` whose first thread could not be created has
nobody to flag, and a sleeping worker of `thread_pool.c` cannot get away. -/
theorem teardown_reads_live_calm :
    EveryState step AllFlagged (ntyThreadPoolCreate (fun _ => true) 2).2 calmShutdown ∧
      WalksLive (ntyThreadPoolCreate (fun _ => false) 2).2 ∧
      ∃ s, run ThreadPool.Destroy.step ThreadPool.Destroy.start sleepingWorker = some s ∧
        s.pool.workers = [0] ∧ ThreadPool.Destroy.WalksLive s := by
  obtain ⟨hrun, -, -⟩ := teardown_reads_live (fun _ => true) 2 calmShutdown
    (ntyThreadPoolCreate (fun _ => true) 2).2 ThreadPool.Destroy.start
  refine ⟨(hrun (by decide)).2, ?_, _, rfl, rfl, ?_⟩
  · obtain ⟨-, hcall, -⟩ := teardown_reads_live (fun _ => false) 2 []
      (ntyThreadPoolCreate (fun _ => false) 2).2 ThreadPool.Destroy.start
    exact (hcall (.refl _) rfl).2 rfl
  obtain ⟨-, -, hdestroy⟩ := teardown_reads_live (fun _ => true) 2 []
    (ntyThreadPoolCreate (fun _ => true) 2).2 _
  refine (hdestroy ⟨sleepingWorker, rfl⟩ rfl).2 ⟨fun i hi => ?_, fun l hl i hi => ?_⟩
  · -- the pointers lead to the worker 0 and end there
    obtain ⟨front, hseg⟩ := hi
    have hall := hseg.closed (R := fun j => j = 0) (fun a b ha hb => by subst ha; cases hb)
      (fun a ha => by cases ha; rfl)
    rw [hall.2 i rfl]
    exact ⟨List.not_mem_nil, _, rfl, .inr (.inl rfl)⟩
  · obtain ⟨rest, rfl, -⟩ := isChain_some_iff.1 hl
    rw [List.mem_singleton.1 hi]
    exact .inl List.mem_cons_self

/-- Two workers: the older one sleeps, and the newer one is about to test its flag. -/
def awakeWorker : List ThreadPool.Destroy.Act :=
  [.spawn none, .register 0, .cycle 0, .cycle 0, .spawn none, .register 1]

/-- The newer worker is flagged, leaves and frees itself while the walk stands on it. The walk reads a
null pointer from the freed object and ends. -/
def strayDestroy : List ThreadPool.Destroy.Act :=
  [.destroy none, .cycle 1, .cycle 1, .free 1, .destroy none, .destroy none]

/-- Both walks go through a freed worker in these runs, and leave the other worker without its flag. -/
theorem strayShutdown_leaves_unflagged :
    (∃ q, run step (ntyThreadPoolCreate (fun _ => true) 2).2 strayShutdown = some q ∧
      q.shutdown = .returned ∧ ¬ AllFlagged q) ∧
    ¬ EveryStep step NextOfLive (ntyThreadPoolCreate (fun _ => true) 2).2 strayShutdown ∧
    ∃ s, run ThreadPool.Destroy.step ThreadPool.Destroy.start awakeWorker = some s ∧
      s.call = .idle ∧ ¬ ThreadPool.Destroy.WalksLive s ∧
      ∃ t, run ThreadPool.Destroy.step (ThreadPool.Destroy.lockJobs s) strayDestroy = some t ∧
        t.call = .returned ∧ t.pool.threads =
          [⟨.woken, false, false⟩, ⟨.exited, false, true⟩] ∧ t.left = [1] := by
  refine ⟨⟨_, rfl, rfl, fun h => ?_⟩, by decide, _, rfl, rfl, fun hwalk => ?_, _, rfl, rfl, rfl, rfl⟩
  · have hflag := h rfl ⟨.blocked, false⟩ List.mem_cons_self
    cases hflag
  · -- at the return of the call the sleeping worker has no flag
    obtain ⟨-, hflagged⟩ := hwalk _ ⟨strayDestroy, rfl⟩
    rcases hflagged rfl 0 (by decide) with hflag | hleft
    · cases hflag
    · cases hleft with
      | tail _ hnil => cases hnil

end CppMisc.NtyThreadPool
