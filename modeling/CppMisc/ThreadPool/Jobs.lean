import CppMisc.ThreadPool.Model

/-!
# Job conservation in `threadpool/thread_pool.c`

Every job that was added waits on the list `tp->jobs`, is held by a worker, or is finished, and it is
in one place only. `JobView` is the part of the pool that this is about, and `JobsOk` the invariant
over it: the pointers form a list of the waiting objects, and for every ticket the numbers of its
occurrences in the three places add up to one. The steps that keep the view need no argument; adding,
taking, starting and finishing a job each move one ticket.
-/

set_option autoImplicit false

namespace CppMisc.ThreadPool

open CppMisc.Library

/-- The ticket of the job that a worker holds, from taking it until its function has returned. -/
def Pc.holds : Pc → Option Ticket
  | .took t => some t
  | .marked t => some t
  | .counted t => some t
  | .inFunc t => some t
  | _ => none

/-- The ticket of the job whose function a worker is executing. -/
def Pc.runs : Pc → Option Ticket
  | .inFunc t => some t
  | _ => none

/-- The workers that hold the job `t`. -/
def heldNum (threads : List Worker) (t : Ticket) : Nat :=
  threads.countP fun w => w.pc.holds = some t

/-- The workers that are executing the job `t`. -/
def runNum (threads : List Worker) (t : Ticket) : Nat :=
  threads.countP fun w => w.pc.runs = some t

/-- What job conservation is about. -/
structure JobView where
  jobs : Option JobPtr
  links : JobPtr → Link JobPtr
  waitingJobsNum : Int
  stamp : JobPtr → Ticket
  issued : Nat
  started : List Ticket
  finished : List Ticket
  held : Ticket → Nat
  executing : Ticket → Nat

/-- The view of a pool. -/
def jobView (tp : Pool) : JobView where
  jobs := tp.jobs
  links := tp.links
  waitingJobsNum := tp.waitingJobsNum
  stamp := tp.stamp
  issued := tp.issued
  started := tp.started
  finished := tp.finished
  held := heldNum tp.threads
  executing := runNum tp.threads

/-- How often the ticket `t` occurs among the waiting objects `l`, the jobs held by workers and the
finished jobs. -/
def JobView.places (v : JobView) (l : List JobPtr) (t : Ticket) : Nat :=
  (l.map v.stamp).count t + v.held t + v.finished.count t

/-- The objects `l` are the job list, and every ticket issued so far is in one place. -/
structure JobsOk (v : JobView) (l : List JobPtr) : Prop where
  stack : Stack v.links v.jobs l
  waiting : v.waitingJobsNum = l.length
  place : ∀ t, t < v.issued → v.places l t = 1
  unissued : ∀ t, v.issued ≤ t → v.places l t = 0
  starts : ∀ t, v.started.count t = v.executing t + v.finished.count t

theorem jobsOk_initial : JobsOk (jobView initial) [] where
  stack := stack_nil _
  waiting := rfl
  place := by simp [jobView, initial]
  unissued := by simp [JobView.places, jobView, initial, heldNum]
  starts := by simp [jobView, initial, runNum]

/-! ## Steps that move no ticket -/

theorem heldNum_set {threads : List Worker} {i : Nat} {w v : Worker} (h : threads[i]? = some w)
    (hw : v.pc.holds = w.pc.holds) : heldNum (threads.set i v) = heldNum threads :=
  funext fun t => countP_set_of_eq _ h (by rw [hw])

theorem runNum_set {threads : List Worker} {i : Nat} {w v : Worker} (h : threads[i]? = some w)
    (hw : v.pc.runs = w.pc.runs) : runNum (threads.set i v) = runNum threads :=
  funext fun t => countP_set_of_eq _ h (by rw [hw])

/-- Only the program counters matter to the view. -/
theorem nums_of_map_pc {threads threads' : List Worker}
    (h : threads'.map Worker.pc = threads.map Worker.pc) :
    heldNum threads' = heldNum threads ∧ runNum threads' = runNum threads :=
  ⟨funext fun t => countP_of_map_pc h fun pc => decide (pc.holds = some t),
    funext fun t => countP_of_map_pc h fun pc => decide (pc.runs = some t)⟩

theorem nums_broadcast (threads : List Worker) :
    heldNum (jobsCond.broadcast threads) = heldNum threads ∧
      runNum (jobsCond.broadcast threads) = runNum threads := by
  -- a blocked worker and a woken one hold nothing
  have hpc : ∀ w : Worker, (if jobsCond.blocked w then jobsCond.wake w else w).pc.holds =
      w.pc.holds ∧ (if jobsCond.blocked w then jobsCond.wake w else w).pc.runs = w.pc.runs := by
    intro w
    by_cases hb : w.pc = .blocked
    · simp [hb, Pc.holds, Pc.runs]
    · simp [hb]
  constructor
  · funext t
    simp only [heldNum, CondVar.broadcast, List.countP_map]
    exact List.countP_congr fun w _ => by simp only [Function.comp_apply, (hpc w).1]
  · funext t
    simp only [runNum, CondVar.broadcast, List.countP_map]
    exact List.countP_congr fun w _ => by simp only [Function.comp_apply, (hpc w).2]

theorem nums_signal {threads threads' : List Worker} {wake : Option Nat}
    (h : jobsCond.signal threads wake = some threads') :
    heldNum threads' = heldNum threads ∧ runNum threads' = runNum threads := by
  obtain ⟨rfl, -⟩ | ⟨i, w, hw, hb, rfl⟩ := signal_cases h
  · exact ⟨rfl, rfl⟩
  · exact ⟨heldNum_set hw (by simp [hb, Pc.holds]), runNum_set hw (by simp [hb, Pc.runs])⟩

theorem jobView_flagWorkers (tp : Pool) (n : Int) : jobView (flagWorkers tp n) = jobView tp := by
  obtain ⟨threads, k, heq, hpc⟩ := flagWorkers_frame tp n
  obtain ⟨hheld, hrun⟩ := nums_of_map_pc hpc
  simp only [heq, jobView, hheld, hrun]

theorem jobView_destroy (tp : Pool) : jobView (threadPoolDestroy tp) = jobView tp := by
  obtain ⟨hheld, hrun⟩ := nums_broadcast (flagAll tp.workers tp.threads)
  obtain ⟨hheld', hrun'⟩ := nums_of_map_pc (map_pc_flagAll tp.workers tp.threads)
  simp [jobView, threadPoolDestroy, hheld, hrun, hheld', hrun']

theorem jobView_spawn (tp : Pool) : jobView (spawnWorker tp) = jobView tp := by
  have hheld : heldNum (tp.threads ++ [⟨.test, false, false⟩]) = heldNum tp.threads :=
    funext fun t => by simp [heldNum, List.countP_append, Pc.holds]
  have hrun : runNum (tp.threads ++ [⟨.test, false, false⟩]) = runNum tp.threads :=
    funext fun t => by simp [runNum, List.countP_append, Pc.runs]
  simp [jobView, spawnWorker, hheld, hrun]

/-! ## Steps that move a ticket -/

theorem jobsOk_addJob {tp : Pool} {l : List JobPtr} (h : JobsOk (jobView tp) l) {job : JobPtr}
    {wake : Option Nat} {threads : List Worker}
    (hjob : job ∉ follow (fun a => (tp.links a).next) tp.waitingJobsNum.toNat tp.jobs)
    (hsig : jobsCond.signal tp.threads wake = some threads) :
    JobsOk (jobView { tp with
      waitingJobsNum := tp.waitingJobsNum + 1
      links := (listAdd tp.links tp.jobs job).1
      jobs := (listAdd tp.links tp.jobs job).2
      threads := threads
      stamp := Function.update tp.stamp job tp.issued
      issued := tp.issued + 1 }) (job :: l) := by
  -- the caller's test of the waiting objects is a test of the list
  have hwait : tp.waitingJobsNum = l.length := h.waiting
  have hfollow : follow (fun a => (tp.links a).next) tp.waitingJobsNum.toNat tp.jobs = l :=
    h.stack.chain.follow_eq (by rw [hwait]; simp)
  rw [hfollow] at hjob
  obtain ⟨hheld, hrun⟩ := nums_signal hsig
  have hstamps : l.map (Function.update tp.stamp job tp.issued) = l.map tp.stamp := by
    rw [h.stack.chain.nodup.map_update, if_neg hjob]
  refine ⟨stack_listAdd h.stack hjob, ?_, fun t ht => ?_, fun t ht => ?_, fun t => ?_⟩
  · simp only [jobView, hwait, List.length_cons]
    omega
  · simp only [JobView.places, jobView, List.map_cons, Function.update_self, hstamps, hheld]
    by_cases heq : tp.issued = t
    · -- the new ticket was nowhere before
      have hz := h.unissued t heq.le
      simp only [JobView.places, jobView] at hz
      rw [heq, List.count_cons_self]
      omega
    · have hlt : t < tp.issued := by
        simp only [jobView] at ht
        omega
      rw [List.count_cons_of_ne heq]
      exact h.place t hlt
  · have hlt : tp.issued < t := ht
    simp only [JobView.places, jobView, List.map_cons, Function.update_self, hstamps, hheld]
    rw [List.count_cons_of_ne hlt.ne]
    exact h.unissued t hlt.le
  · have hs := h.starts t
    simpa only [jobView, hrun] using hs

/-- A step that issues no ticket and keeps every ticket's number of places keeps both facts about
places. -/
theorem jobsOk_of_places {v v' : JobView} {l l' : List JobPtr} (h : JobsOk v l)
    (hstack : Stack v'.links v'.jobs l') (hwait : v'.waitingJobsNum = l'.length)
    (hissued : v'.issued = v.issued) (hplaces : ∀ t, v'.places l' t = v.places l t)
    (hstarts : ∀ t, v'.started.count t = v'.executing t + v'.finished.count t) : JobsOk v' l' where
  stack := hstack
  waiting := hwait
  place := fun t ht => (hplaces t).trans (h.place t (hissued ▸ ht))
  unissued := fun t ht => (hplaces t).trans (h.unissued t (hissued ▸ ht))
  starts := hstarts

/-- Taking moves the ticket of the head of the list to the worker. -/
theorem jobsOk_takeJob {tp : Pool} {l : List JobPtr} (h : JobsOk (jobView tp) l) {i : Nat}
    {w : Worker} (hw : tp.threads[i]? = some w) (hnone : w.pc.holds = none)
    (hruns : w.pc.runs = none) : ∃ l', JobsOk (jobView (takeJob tp i w)) l' := by
  cases hj : tp.jobs with
  | none =>
      refine ⟨l, ?_⟩
      have hheld := heldNum_set (v := { w with pc := .test }) hw (by rw [hnone]; rfl)
      have hrun := runNum_set (v := { w with pc := .test }) hw (by rw [hruns]; rfl)
      have heq : jobView (takeJob tp i w) = jobView tp := by
        simp only [takeJob, hj, jobView, hheld, hrun]
      rwa [heq]
  | some job =>
      have hstack : Stack tp.links (some job) l := hj ▸ h.stack
      obtain ⟨rest, rfl, -⟩ := isChain_some_iff.1 hstack.chain
      refine ⟨rest, ?_⟩
      have hrest := stack_listRemove hstack
      have hrun := runNum_set (v := { w with pc := .took (tp.stamp job) }) hw
        (by rw [hruns]; rfl)
      have heq : jobView (takeJob tp i w) =
          { jobView tp with
            jobs := (listRemove tp.links (some job) job).2
            links := (listRemove tp.links (some job) job).1
            waitingJobsNum := tp.waitingJobsNum - 1
            held := heldNum (tp.threads.set i { w with pc := .took (tp.stamp job) }) } := by
        simp only [takeJob, hj, jobView, hrun]
      rw [heq]
      refine jobsOk_of_places h hrest ?_ rfl (fun t => ?_) h.starts
      · have hwait := h.waiting
        simp only [jobView, List.length_cons] at hwait ⊢
        omega
      · -- the ticket of the head leaves the list and is held; the others stay where they are
        simp only [JobView.places, jobView, List.map_cons]
        by_cases ht : tp.stamp job = t
        · have hc : heldNum (tp.threads.set i { w with pc := .took (tp.stamp job) }) t =
              heldNum tp.threads t + 1 :=
            countP_set_gain _ hw (by simp [hnone]) (by simp [Pc.holds, ht])
          rw [hc, ht, List.count_cons_self]
          omega
        · have hc : heldNum (tp.threads.set i { w with pc := .took (tp.stamp job) }) t =
              heldNum tp.threads t :=
            countP_set_of_eq _ hw (by rw [hnone]; simp [Pc.holds, ht])
          rw [hc, List.count_cons_of_ne ht]

theorem jobsOk_start {tp : Pool} {l : List JobPtr} (h : JobsOk (jobView tp) l) {i : Nat}
    {w : Worker} {t : Ticket} (hw : tp.threads[i]? = some w) (hpc : w.pc = .counted t) :
    JobsOk (jobView { tp with
      threads := tp.threads.set i { w with pc := .inFunc t }
      started := t :: tp.started }) l := by
  have hheld := heldNum_set (v := { w with pc := .inFunc t }) hw (by rw [hpc]; rfl)
  refine jobsOk_of_places h h.stack h.waiting rfl (fun u => ?_) fun u => ?_
  · simp only [JobView.places, jobView, hheld]
  · have hs := h.starts u
    simp only [jobView] at hs ⊢
    by_cases hu : t = u
    · have hc : runNum (tp.threads.set i { w with pc := .inFunc t }) u = runNum tp.threads u + 1 :=
        countP_set_gain _ hw (by simp [hpc, Pc.runs]) (by simp [Pc.runs, hu])
      rw [hc, hu, List.count_cons_self]
      omega
    · have hc : runNum (tp.threads.set i { w with pc := .inFunc t }) u = runNum tp.threads u :=
        countP_set_of_eq _ hw (by simp [hpc, Pc.runs, hu])
      rw [hc, List.count_cons_of_ne hu, hs]

theorem jobsOk_finish {tp : Pool} {l : List JobPtr} (h : JobsOk (jobView tp) l) {i : Nat}
    {w : Worker} {t : Ticket} (hw : tp.threads[i]? = some w) (hpc : w.pc = .inFunc t) :
    JobsOk (jobView { tp with
      threads := tp.threads.set i { w with pc := .ended, running := false }
      finished := t :: tp.finished }) l := by
  refine jobsOk_of_places h h.stack h.waiting rfl (fun u => ?_) fun u => ?_
  · -- the ticket is no longer held and is among the finished ones
    simp only [JobView.places, jobView]
    by_cases hu : t = u
    · have hc : heldNum (tp.threads.set i { w with pc := .ended, running := false }) u + 1 =
          heldNum tp.threads u :=
        countP_set_lose _ hw (by simp [hpc, Pc.holds, hu]) (by simp [Pc.holds])
      rw [hu, List.count_cons_self]
      omega
    · have hc : heldNum (tp.threads.set i { w with pc := .ended, running := false }) u =
          heldNum tp.threads u :=
        countP_set_of_eq _ hw (by simp [hpc, Pc.holds, hu])
      rw [hc, List.count_cons_of_ne hu]
  · -- a started job goes from executing to finished
    have hs := h.starts u
    simp only [jobView] at hs ⊢
    by_cases hu : t = u
    · have hc : runNum (tp.threads.set i { w with pc := .ended, running := false }) u + 1 =
          runNum tp.threads u :=
        countP_set_lose _ hw (by simp [hpc, Pc.runs, hu]) (by simp [Pc.runs])
      rw [hu, List.count_cons_self]
      omega
    · have hc : runNum (tp.threads.set i { w with pc := .ended, running := false }) u =
          runNum tp.threads u :=
        countP_set_of_eq _ hw (by simp [hpc, Pc.runs, hu])
      rw [hc, List.count_cons_of_ne hu, hs]

/-! ## Every step -/

theorem jobView_set {tp : Pool} {i : Nat} {w w' : Worker} (hw : tp.threads[i]? = some w)
    (hholds : w'.pc.holds = w.pc.holds) (hruns : w'.pc.runs = w.pc.runs) :
    jobView { tp with threads := tp.threads.set i w' } = jobView tp := by
  simp only [jobView, heldNum_set hw hholds, runNum_set hw hruns]

theorem jobsOk_cycleMove {tp tp' : Pool} {l : List JobPtr} (h : JobsOk (jobView tp) l) {i : Nat}
    {w : Worker} (hw : tp.threads[i]? = some w) (hmove : CycleMove tp i w tp') :
    ∃ l', JobsOk (jobView tp') l' := by
  -- every move but taking, starting and finishing leaves the view as it is
  have hsame : ∀ w' : Worker, w'.pc.holds = w.pc.holds → w'.pc.runs = w.pc.runs →
      JobsOk (jobView { tp with threads := tp.threads.set i w' }) l := by
    intro w' hholds hruns
    rw [jobView_set hw hholds hruns]
    exact h
  cases hmove with
  | test hpc =>
      refine ⟨l, hsame _ ?_ ?_⟩
      · cases w.terminate <;> simp [hpc, Pc.holds]
      · cases w.terminate <;> simp [hpc, Pc.runs]
  | sleep hpc _ => exact ⟨l, hsame _ (by simp [hpc, Pc.holds]) (by simp [hpc, Pc.runs])⟩
  | take hpc =>
      rcases hpc with hpc | hpc
      · exact jobsOk_takeJob h hw (by simp [hpc, Pc.holds]) (by simp [hpc, Pc.runs])
      · exact jobsOk_takeJob h hw (by simp [hpc, Pc.holds]) (by simp [hpc, Pc.runs])
  | mark t hpc => exact ⟨l, hsame _ (by simp [hpc, Pc.holds]) (by simp [hpc, Pc.runs])⟩
  | count t hpc =>
      exact ⟨l, hsame { w with pc := .counted t } (by simp [hpc, Pc.holds]) (by simp [hpc, Pc.runs])⟩
  | start t hpc => exact ⟨l, jobsOk_start h hw hpc⟩
  | finish t hpc => exact ⟨l, jobsOk_finish h hw hpc⟩
  | uncount hpc =>
      exact ⟨l, hsame { w with pc := .test } (by simp [hpc, Pc.holds]) (by simp [hpc, Pc.runs])⟩
  | close hpc _ =>
      exact ⟨l, hsame { w with pc := .exited } (by simp [hpc, Pc.holds]) (by simp [hpc, Pc.runs])⟩

theorem jobsOk_step (tp : Pool) (a : Act) (tp' : Pool) (h : ∃ l, JobsOk (jobView tp) l)
    (hstep : step tp a = some tp') : ∃ l, JobsOk (jobView tp') l := by
  obtain ⟨l, h⟩ := h
  cases move_of_step hstep with
  | addJob job wake threads hjob hsig => exact ⟨job :: l, jobsOk_addJob h hjob hsig⟩
  | spawn => exact ⟨l, by rwa [jobView_spawn]⟩
  | register i _ _ => exact ⟨l, h⟩
  | removeWorkers n _ =>
      refine ⟨l, ?_⟩
      rw [← jobView_flagWorkers tp n] at h
      exact h
  | removeBroadcast flagged _ =>
      obtain ⟨hheld, hrun⟩ := nums_broadcast tp.threads
      refine ⟨l, ?_⟩
      simpa only [jobView, hheld, hrun] using h
  | destroy => exact ⟨l, by rwa [jobView_destroy]⟩
  | cycle i w _ hw hmove => exact jobsOk_cycleMove h hw hmove
  | spurious i w hw hb =>
      refine ⟨l, ?_⟩
      rw [jobView_set hw (by simp [hb, Pc.holds]) (by simp [hb, Pc.runs])]
      exact h

theorem jobsOk_reaches {tp : Pool} (h : Reaches step initial tp) : ∃ l, JobsOk (jobView tp) l :=
  h.invariant jobsOk_step ⟨[], jobsOk_initial⟩

/-- A worker that executes a job holds it. -/
theorem runNum_le_heldNum (threads : List Worker) (t : Ticket) :
    runNum threads t ≤ heldNum threads t := by
  refine List.countP_mono_left fun w _ h => ?_
  simp only [decide_eq_true_eq] at h ⊢
  cases hpc : w.pc <;> simp_all [Pc.runs, Pc.holds]

theorem started_nodup {tp : Pool} {l : List JobPtr} (h : JobsOk (jobView tp) l) :
    tp.started.Nodup := by
  refine List.nodup_iff_count_le_one.2 fun t => ?_
  -- each start is of a job that a worker executes, and so holds, or that is finished
  have hs := h.starts t
  have hle := runNum_le_heldNum tp.threads t
  have hplace : (jobView tp).places l t ≤ 1 := by
    rcases lt_or_ge t tp.issued with ht | ht
    · exact (h.place t ht).le
    · rw [h.unissued t ht]
      exact Nat.zero_le 1
  simp only [JobView.places, jobView] at hs hplace
  omega

/-- **Job conservation.** In every reachable state the pointers from `tp->jobs` form a list `l` whose
length is `waiting_jobs_num`, every job added so far occurs exactly once among the list, the jobs
held by workers and the finished jobs, and no job was started twice. -/
theorem jobs_conserved {tp : Pool} (h : Reaches step initial tp) :
    ∃ l, IsChain (fun a => (tp.links a).next) tp.jobs l ∧ tp.waitingJobsNum = l.length ∧
      (∀ t, t < tp.issued →
        (l.map tp.stamp).count t + heldNum tp.threads t + tp.finished.count t = 1) ∧
      tp.started.Nodup := by
  obtain ⟨l, hl⟩ := jobsOk_reaches h
  exact ⟨l, hl.stack.chain, hl.waiting, hl.place, started_nodup hl⟩

/-- Two jobs and one worker, which finishes the second job and holds the first. -/
def twoJobs : List Act :=
  [.spawn, .register 0, .addJob 100 none, .addJob 200 none, .cycle 0, .cycle 0, .cycle 0, .cycle 0,
    .cycle 0, .cycle 0, .cycle 0, .cycle 0, .cycle 0]

/-- Control: after `twoJobs` one job is finished and the other one is held. -/
theorem jobs_conserved_twoJobs :
    ∃ tp, run step initial twoJobs = some tp ∧ tp.issued = 2 ∧ tp.finished = [1] ∧
      heldNum tp.threads 0 = 1 ∧ tp.started.Nodup := by
  have hend : (run step initial twoJobs).map
      (fun tp => (tp.issued, tp.finished, heldNum tp.threads 0)) = some (2, [1], 1) := rfl
  obtain ⟨tp, hrun, hfields⟩ := Option.map_eq_some_iff.1 hend
  simp only [Prod.mk.injEq] at hfields
  obtain ⟨l, -, -, -, hnodup⟩ := jobs_conserved ⟨twoJobs, hrun⟩
  exact ⟨tp, hrun, hfields.1, hfields.2.1, hfields.2.2, hnodup⟩

end CppMisc.ThreadPool
