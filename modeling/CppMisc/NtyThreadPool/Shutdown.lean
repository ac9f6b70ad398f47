import CppMisc.NtyThreadPool.Model

/-!
# Shutdown and delivery in `threadpool/tp.c`

Three facts about the pool of `tp.c`. Until the shutdown starts the waiting jobs are covered by woken
workers whenever a worker sleeps. Every queued job waits, was started once, or was discarded by the
shutdown. And once the shutdown has returned no worker sleeps.

The first two hold in every run. The third needs every worker to have its flag, and the loop that sets
the flags steps from worker to worker through `worker->next`. A worker that was flagged may have left
and freed its object before that field is read, and then the walk goes astray. In the runs in which
every `next` field is read of a worker that is not freed, the third fact holds in every state;
`strayShutdown` is a run in which a worker sleeps for ever.
-/

set_option autoImplicit false

namespace CppMisc.NtyThreadPool

open CppMisc.Library
open CppMisc.ThreadPool (Link Stack llAdd llRemove stack_nil stack_listAdd stack_listRemove)

/-! ## Delivery -/

/-- How often the ticket `t` occurs among the waiting objects `l`, the started and the discarded
jobs. -/
def places (q : WorkQueue) (l : List JobPtr) (t : Ticket) : Nat :=
  (l.map q.stamp).count t + q.started.count t + q.discarded.count t

/-- The objects `l` are the waiting list, and every ticket issued so far is in one place. -/
structure JobsOk (q : WorkQueue) (l : List JobPtr) : Prop where
  stack : Stack q.jobLinks q.waitingJobs l
  total : l.length + q.started.length + q.discarded.length = q.issued
  place : ∀ t, t < q.issued → places q l t = 1
  unissued : ∀ t, q.issued ≤ t → places q l t = 0

theorem JobsOk.waiting_eq {q : WorkQueue} {l : List JobPtr} (h : JobsOk q l) : waiting q = l := by
  have htotal := h.total
  exact h.stack.chain.follow_eq (by omega)

theorem JobsOk.started_nodup {q : WorkQueue} {l : List JobPtr} (h : JobsOk q l) :
    q.started.Nodup := by
  refine List.nodup_iff_count_le_one.2 fun t => ?_
  have hplace : places q l t ≤ 1 := by
    rcases lt_or_ge t q.issued with ht | ht
    · exact (h.place t ht).le
    · rw [h.unissued t ht]
      exact Nat.zero_le 1
  simp only [places] at hplace
  omega

/-- The fields that delivery is about are as they were. -/
structure SameJobs (q q' : WorkQueue) : Prop where
  waitingJobs : q'.waitingJobs = q.waitingJobs
  jobLinks : q'.jobLinks = q.jobLinks
  stamp : q'.stamp = q.stamp
  issued : q'.issued = q.issued
  started : q'.started = q.started
  discarded : q'.discarded = q.discarded

theorem jobsOk_of_sameJobs {q q' : WorkQueue} {l : List JobPtr} (h : JobsOk q l)
    (hsame : SameJobs q q') : JobsOk q' l := by
  obtain ⟨hw, hl, hs, hi, hst, hd⟩ := hsame
  have hplaces : places q' l = places q l := by
    funext t
    simp only [places, hs, hst, hd]
  refine ⟨?_, ?_, ?_, ?_⟩
  · rw [hw, hl]
    exact h.stack
  · rw [hst, hd, hi]
    exact h.total
  · rw [hplaces, hi]
    exact h.place
  · rw [hplaces, hi]
    exact h.unissued

theorem jobsOk_queue {q : WorkQueue} {l : List JobPtr} (h : JobsOk q l) {job : JobPtr}
    (hjob : job ∉ waiting q) (threads : List NWorker) :
    JobsOk { q with
      jobLinks := (llAdd q.jobLinks q.waitingJobs job).1
      waitingJobs := (llAdd q.jobLinks q.waitingJobs job).2
      threads := threads
      stamp := Function.update q.stamp job q.issued
      issued := q.issued + 1 } (job :: l) := by
  rw [h.waiting_eq] at hjob
  have hstamps : l.map (Function.update q.stamp job q.issued) = l.map q.stamp := by
    rw [h.stack.chain.nodup.map_update, if_neg hjob]
  refine ⟨stack_listAdd h.stack hjob, ?_, fun t ht => ?_, fun t ht => ?_⟩
  · have htotal := h.total
    simp only [List.length_cons]
    omega
  · simp only [places, List.map_cons, Function.update_self, hstamps]
    rcases Nat.lt_succ_iff_lt_or_eq.1 ht with hlt | rfl
    -- an older ticket stays where it is, and the new one was nowhere before
    · rw [List.count_cons_of_ne (Nat.ne_of_gt hlt)]
      exact h.place t hlt
    · have hz := h.unissued q.issued le_rfl
      simp only [places] at hz
      rw [List.count_cons_self]
      omega
  · have hlt : q.issued < t := ht
    simp only [places, List.map_cons, Function.update_self, hstamps]
    rw [List.count_cons_of_ne hlt.ne]
    exact h.unissued t hlt.le

/-- A step that issues no ticket and keeps every ticket's number of places. -/
theorem jobsOk_of_places {q q' : WorkQueue} {l l' : List JobPtr} (h : JobsOk q l)
    (hstack : Stack q'.jobLinks q'.waitingJobs l')
    (htotal : l'.length + q'.started.length + q'.discarded.length =
      l.length + q.started.length + q.discarded.length)
    (hissued : q'.issued = q.issued) (hplaces : ∀ t, places q' l' t = places q l t) :
    JobsOk q' l' where
  stack := hstack
  total := by rw [htotal, hissued, h.total]
  place := fun t ht => (hplaces t).trans (h.place t (hissued ▸ ht))
  unissued := fun t ht => (hplaces t).trans (h.unissued t (hissued ▸ ht))

theorem jobsOk_take {q : WorkQueue} {job : JobPtr} {rest : List JobPtr}
    (h : JobsOk q (job :: rest)) (hj : q.waitingJobs = some job) (threads : List NWorker) :
    JobsOk { q with
      jobLinks := (llRemove q.jobLinks (some job) job).1
      waitingJobs := (llRemove q.jobLinks (some job) job).2
      threads := threads
      started := q.stamp job :: q.started } rest := by
  have hstack : Stack q.jobLinks (some job) (job :: rest) := hj ▸ h.stack
  refine jobsOk_of_places h (stack_listRemove hstack) ?_ rfl fun t => ?_
  · simp only [List.length_cons]
    omega
  · -- the ticket of the head moves from the list to the started jobs
    simp only [places, List.map_cons, List.count_cons]
    omega

theorem jobsOk_close {q : WorkQueue} {l : List JobPtr} (h : JobsOk q l) :
    JobsOk (shutdownSection q) [] := by
  refine jobsOk_of_places h (stack_nil _) ?_ rfl fun t => ?_
  · simp only [shutdownSection, h.waiting_eq, List.length_append, List.length_map, List.length_nil]
    omega
  · simp only [places, shutdownSection, h.waiting_eq, List.count_append, List.map_nil,
      List.count_nil]
    omega

theorem jobsOk_workerMove {q q' : WorkQueue} {l : List JobPtr} (h : JobsOk q l) {i : Nat}
    {w : NWorker} (hmove : WorkerMove q i w q') : ∃ l', JobsOk q' l' := by
  cases hmove with
  | take job _ hj _ =>
      have hchain := h.stack.chain
      rw [hj] at hchain
      obtain ⟨rest, rfl, -⟩ := isChain_some_iff.1 hchain
      exact ⟨rest, jobsOk_take h hj _⟩
  | _ => exact ⟨l, jobsOk_of_sameJobs h ⟨rfl, rfl, rfl, rfl, rfl, rfl⟩⟩

theorem jobsOk_step {q q' : WorkQueue} {a : Act} {l : List JobPtr} (h : JobsOk q l)
    (hstep : step q a = some q') : ∃ l', JobsOk q' l' := by
  cases move_of_step hstep with
  | queue job wake threads hjob _ => exact ⟨job :: l, jobsOk_queue h hjob threads⟩
  | close junk _ => exact ⟨[], jobsOk_close h⟩
  | work i w _ _ hmove => exact jobsOk_workerMove h hmove
  | _ => exact ⟨l, jobsOk_of_sameJobs h ⟨rfl, rfl, rfl, rfl, rfl, rfl⟩⟩

/-! ## The flags -/

/-- The walk that goes on at `worker` still meets every worker without a flag. -/
def Ahead (threads : List NWorker) (links : Nat → Link Nat) (worker : Option Nat) : Prop :=
  ∃ l, IsChain (fun i => (links i).next) worker l ∧
    ∀ (i : Nat) (w : NWorker), threads[i]? = some w → w.terminate = true ∨ i ∈ l

/-- What the shutdown has done so far. -/
def Phase (q : WorkQueue) : Prop :=
  match q.shutdown with
  | .idle => Ahead q.threads q.workerLinks q.workers
  | .loopTest worker => Ahead q.threads q.workerLinks worker
  | .loopNext worker => Ahead q.threads q.workerLinks (q.workerLinks worker).next
  | .returned => ∀ (i : Nat) (w : NWorker), q.threads[i]? = some w →
      w.terminate = true ∧ w.pc ≠ .blocked

/-- A worker that has left its loop. -/
def Gone (w : NWorker) : Prop := w.pc = .leaving ∨ w.pc = .freed

/-- Only flagged workers have left, and the walk has not gone astray. -/
structure Teardown (q : WorkQueue) : Prop where
  gone : ∀ (i : Nat) (w : NWorker), q.threads[i]? = some w → Gone w → w.terminate = true
  phase : Phase q

/-- What a step of a worker or a wake-up may do to one thread. -/
structure Steady (w w' : NWorker) : Prop where
  flag : w'.terminate = w.terminate
  awake : w.terminate = true → w.pc ≠ .blocked → w'.pc ≠ .blocked
  gone : Gone w' → Gone w ∨ w.terminate = true

theorem Steady.refl (w : NWorker) : Steady w w := ⟨rfl, fun _ h => h, .inl⟩

/-- Every thread was there before, and has changed steadily. -/
def AllSteady (threads threads' : List NWorker) : Prop :=
  ∀ (i : Nat) (w' : NWorker), threads'[i]? = some w' → ∃ w, threads[i]? = some w ∧ Steady w w'

theorem AllSteady.refl (threads : List NWorker) : AllSteady threads threads :=
  fun _ w hw => ⟨w, hw, Steady.refl w⟩

theorem allSteady_set {threads : List NWorker} {j : Nat} {w w' : NWorker}
    (hw : threads[j]? = some w) (h : Steady w w') : AllSteady threads (threads.set j w') := by
  intro i x hx
  rcases getElem?_set_cases hx with ⟨rfl, rfl⟩ | ⟨-, hx⟩
  · exact ⟨w, hw, h⟩
  · exact ⟨x, hx, Steady.refl x⟩

/-- Waking a thread. -/
theorem steady_woken (w : NWorker) : Steady w { w with pc := .woken } :=
  ⟨rfl, by simp, by simp [Gone]⟩

theorem allSteady_broadcast (threads : List NWorker) :
    AllSteady threads (jobsCond.broadcast threads) := by
  intro i x hx
  rcases CondVar.getElem?_broadcast hx with ⟨w, hw, ⟨-, rfl⟩ | ⟨-, rfl⟩⟩
  · exact ⟨w, hw, steady_woken w⟩
  · exact ⟨x, hw, Steady.refl x⟩

theorem allSteady_signal {threads threads' : List NWorker} {wake : Option Nat}
    (h : jobsCond.signal threads wake = some threads') : AllSteady threads threads' := by
  rcases CondVar.signal_cases h with ⟨rfl, -⟩ | ⟨i, w, hw, -, rfl⟩
  · exact AllSteady.refl _
  · exact allSteady_set hw (steady_woken w)

theorem allSteady_workerMove {q q' : WorkQueue} {i : Nat} {w : NWorker}
    (hw : q.threads[i]? = some w) (hmove : WorkerMove q i w q') :
    AllSteady q.threads q'.threads := by
  cases hmove with
  | sleep _ _ hclear =>
      -- a worker sleeps only without its flag
      refine allSteady_set hw ⟨rfl, fun hflag => ?_, by simp [Gone]⟩
      rw [hclear] at hflag
      cases hflag
  | leave _ hflag => exact allSteady_set hw ⟨rfl, by simp, fun _ => .inr hflag⟩
  | take job _ _ _ => exact allSteady_set hw ⟨rfl, by simp, by simp [Gone]⟩
  | finish t _ => exact allSteady_set hw ⟨rfl, by simp, by simp [Gone]⟩
  | free hpc => exact allSteady_set hw ⟨rfl, by simp, fun _ => .inl (.inl hpc)⟩

theorem ahead_of_steady {threads threads' : List NWorker} {links : Nat → Link Nat}
    {worker : Option Nat} (h : Ahead threads links worker) (hsteady : AllSteady threads threads') :
    Ahead threads' links worker := by
  obtain ⟨l, hl, hall⟩ := h
  refine ⟨l, hl, fun i w' hw' => ?_⟩
  obtain ⟨w, hw, hs⟩ := hsteady i w' hw'
  rw [hs.flag]
  exact hall i w hw

/-- Steady changes keep the flags where they are, whatever the shutdown has done so far. -/
theorem teardown_of_steady {q q' : WorkQueue} (h : Teardown q)
    (hsteady : AllSteady q.threads q'.threads) (hworkers : q'.workers = q.workers)
    (hlinks : q'.workerLinks = q.workerLinks) (hshutdown : q'.shutdown = q.shutdown) :
    Teardown q' := by
  constructor
  · intro i w' hw' hgone
    obtain ⟨w, hw, hs⟩ := hsteady i w' hw'
    rw [hs.flag]
    rcases hs.gone hgone with hgone | hflag
    · exact h.gone i w hw hgone
    · exact hflag
  · have hphase := h.phase
    simp only [Phase] at hphase ⊢
    rw [hshutdown, hlinks, hworkers]
    cases hs : q.shutdown with
    | idle =>
        simp only [hs] at hphase ⊢
        exact ahead_of_steady hphase hsteady
    | loopTest worker =>
        simp only [hs] at hphase ⊢
        exact ahead_of_steady hphase hsteady
    | loopNext worker =>
        simp only [hs] at hphase ⊢
        exact ahead_of_steady hphase hsteady
    | returned =>
        simp only [hs] at hphase ⊢
        intro i w' hw'
        obtain ⟨w, hw, hst⟩ := hsteady i w' hw'
        obtain ⟨hflag, hawake⟩ := hphase i w hw
        exact ⟨hst.flag.trans hflag, hst.awake hflag hawake⟩

/-- The loop of `ntyThreadPoolShutdown` reads the `next` field of a worker whose thread has not freed
it. -/
def NextOfLive (q : WorkQueue) : Act → Prop
  | .shutdown _ =>
      match q.shutdown with
      | .loopNext i => q.threads[i]?.map NWorker.pc ≠ some .freed
      | _ => True
  | _ => True

instance (q : WorkQueue) : ∀ a : Act, Decidable (NextOfLive q a)
  | .shutdown _ =>
      match h : q.shutdown with
      | .loopNext i => decidable_of_iff (q.threads[i]?.map NWorker.pc ≠ some .freed)
          (by simp only [NextOfLive, h])
      | .idle => isTrue (by simp only [NextOfLive, h])
      | .loopTest _ => isTrue (by simp only [NextOfLive, h])
      | .returned => isTrue (by simp only [NextOfLive, h])
  | .queue _ _ => isTrue trivial
  | .work _ => isTrue trivial
  | .spurious _ => isTrue trivial

/-- Setting the flag at the cursor leaves the workers behind the cursor to do. -/
theorem teardown_flag {q : WorkQueue} (h : Teardown q) {i : Nat} {w : NWorker}
    (hs : q.shutdown = .loopTest (some i)) :
    Teardown { q with
      threads := q.threads.set i { w with terminate := true }
      shutdown := .loopNext i } := by
  have hphase := h.phase
  simp only [Phase, hs] at hphase
  obtain ⟨l, hl, hall⟩ := hphase
  obtain ⟨rest, rfl, hrest⟩ := isChain_some_iff.1 hl
  constructor
  · intro j x hx hgone
    rcases getElem?_set_cases hx with ⟨-, rfl⟩ | ⟨-, hx⟩
    · rfl
    · exact h.gone j x hx hgone
  · refine ⟨rest, hrest, fun j x hx => ?_⟩
    rcases getElem?_set_cases hx with ⟨-, rfl⟩ | ⟨hji, hx⟩
    · exact .inl rfl
    · rcases hall j x hx with hflag | hmem
      · exact .inl hflag
      · exact .inr ((List.mem_cons.1 hmem).resolve_left hji)

theorem teardown_step (q : WorkQueue) (a : Act) (q' : WorkQueue) (h : Teardown q)
    (hlive : NextOfLive q a) (hstep : step q a = some q') : Teardown q' := by
  cases move_of_step hstep with
  | queue job wake threads _ hsig =>
      exact teardown_of_steady h (allSteady_signal hsig) rfl rfl rfl
  | start junk hs =>
      have hphase := h.phase
      simp only [Phase, hs] at hphase
      exact ⟨h.gone, hphase⟩
  | flag junk i w hs hw _ => exact teardown_flag h hs
  | flagFreed junk i w hs hw hf =>
      -- a freed worker was flagged already, so the chain goes on behind it
      have hphase := h.phase
      simp only [Phase, hs] at hphase
      obtain ⟨l, hl, hall⟩ := hphase
      obtain ⟨rest, rfl, hrest⟩ := isChain_some_iff.1 hl
      refine ⟨h.gone, rest, hrest, fun j x hx => ?_⟩
      rcases hall j x hx with hflag | hmem
      · exact .inl hflag
      · rcases List.mem_cons.1 hmem with rfl | hmem
        · exact .inl (h.gone j x hx (.inr (by rw [hw] at hx; cases hx; exact hf)))
        · exact .inr hmem
  | next junk i hs =>
      -- the worker is not freed, so the field holds what the list holds
      have hphase := h.phase
      simp only [Phase, hs] at hphase
      refine ⟨h.gone, ?_⟩
      simp only [NextOfLive, hs] at hlive
      simp only [Phase, readNext, if_neg hlive]
      exact hphase
  | close junk hs =>
      have hphase := h.phase
      simp only [Phase, hs] at hphase
      obtain ⟨l, hl, hall⟩ := hphase
      obtain rfl := isChain_none_iff.1 hl
      -- at the end of the list every worker has its flag
      have hflags : ∀ (i : Nat) (w : NWorker), q.threads[i]? = some w → w.terminate = true :=
        fun i w hw => (hall i w hw).resolve_right (by simp)
      constructor
      · intro i x hx _
        obtain ⟨w, hw, hst⟩ := allSteady_broadcast q.threads i x hx
        exact hst.flag.trans (hflags i w hw)
      · intro i x hx
        rcases CondVar.getElem?_broadcast hx with ⟨w, hw, ⟨-, rfl⟩ | ⟨hb, rfl⟩⟩
        · exact ⟨hflags i w hw, by simp⟩
        · exact ⟨hflags i x hw, by simpa using hb⟩
  | work i w _ hw hmove =>
      have hsteady := allSteady_workerMove hw hmove
      cases hmove with
      | _ => exact teardown_of_steady h hsteady rfl rfl rfl
  | spurious i w hw _ => exact teardown_of_steady h (allSteady_set hw (steady_woken w)) rfl rfl rfl

/-! ## The pool -/

/-- No worker has its flag. -/
def Unflagged (threads : List NWorker) : Prop :=
  ∀ (i : Nat) (w : NWorker), threads[i]? = some w → w.terminate = false

theorem unflagged_of_steady {threads threads' : List NWorker} (h : Unflagged threads)
    (hsteady : AllSteady threads threads') : Unflagged threads' := by
  intro i w' hw'
  obtain ⟨w, hw, hs⟩ := hsteady i w' hw'
  exact hs.flag.trans (h i w hw)

/-- The invariant of every run. -/
structure Served (q : WorkQueue) (l : List JobPtr) : Prop where
  jobs : JobsOk q l
  opened : q.shutdown = .idle → Unflagged q.threads ∧ jobsCond.Covered l.length q.threads

/-- Until the shutdown starts the waiting jobs are covered, and every queued job waits, was started
once, or was discarded. -/
structure Delivers (q : WorkQueue) : Prop where
  covered : q.shutdown = .idle → (∃ w ∈ q.threads, w.pc = .blocked) →
    (waiting q).length ≤ jobsCond.wokenNum q.threads
  chain : IsChain (fun a => (q.jobLinks a).next) q.waitingJobs (waiting q)
  startedOnce : q.started.Nodup
  delivered : ∀ t, t < q.issued →
    ((waiting q).map q.stamp).count t + q.started.count t + q.discarded.count t = 1

/-- Once the shutdown has returned no worker sleeps. -/
def AllAwake (q : WorkQueue) : Prop :=
  q.shutdown = .returned → ∀ w ∈ q.threads, w.pc ≠ .blocked

theorem Served.delivers {q : WorkQueue} {l : List JobPtr} (h : Served q l) : Delivers q where
  covered := by
    rintro hidle ⟨w, hw, hb⟩
    have hpos : 0 < jobsCond.blockedNum q.threads := List.countP_pos_iff.2 ⟨w, hw, by simp [hb]⟩
    have hle := (h.opened hidle).2 hpos
    rw [h.jobs.waiting_eq]
    omega
  chain := by
    rw [h.jobs.waiting_eq]
    exact h.jobs.stack.chain
  startedOnce := h.jobs.started_nodup
  delivered := by
    rw [h.jobs.waiting_eq]
    exact h.jobs.place

theorem Teardown.allAwake {q : WorkQueue} (h : Teardown q) : AllAwake q := by
  intro hret w hw
  obtain ⟨i, hi⟩ := List.mem_iff_getElem?.1 hw
  have hphase := h.phase
  simp only [Phase, hret] at hphase
  exact (hphase i w hi).2

theorem covered_workerMove {q q' : WorkQueue} {l l' : List JobPtr} (hl : JobsOk q l)
    (hl' : JobsOk q' l') (hun : Unflagged q.threads) (hcovered : jobsCond.Covered l.length q.threads)
    {i : Nat} {w : NWorker} (hw : q.threads[i]? = some w) (hmove : WorkerMove q i w q') :
    jobsCond.Covered l'.length q'.threads := by
  -- the moves that leave the queue alone
  have hsame : ∀ w' : NWorker, w.pc ≠ .blocked → w.pc ≠ .woken → w'.pc ≠ .blocked →
      l'.length = l.length → jobsCond.Covered l'.length (q.threads.set i w') := by
    intro w' hb hk hb' hlen
    exact CondVar.covered_move hcovered hw (by simp [hb]) (by simp [hb']) (by rw [hlen])
      (by simp [hk])
  have hwait : ∀ {x : WorkQueue}, JobsOk x l' → SameJobs q x → l'.length = l.length := by
    intro x hx hsj
    rw [(hx.stack.chain).unique (jobsOk_of_sameJobs hl hsj).stack.chain]
  cases hmove with
  | sleep _ hnone _ =>
      have hchain := hl'.stack.chain
      simp only [hnone] at hchain
      rw [isChain_none_iff.1 hchain]
      exact CondVar.covered_of_nonpos le_rfl
  | leave _ hflag =>
      -- before the shutdown nobody is flagged
      rw [hun i w hw] at hflag
      cases hflag
  | take job hpc hj _ =>
      -- a woken worker no longer counts, but it takes a job off the queue
      have hlen : l'.length + 1 = l.length := by
        have htotal := hl.total
        have htotal' := hl'.total
        simp only [List.length_cons] at htotal'
        omega
      have hb : w.pc ≠ .blocked := by rcases hpc with hpc | hpc <;> simp [hpc]
      exact CondVar.covered_move hcovered hw (by simp [hb]) (by simp) (by omega) fun _ _ => by omega
  | finish t hpc =>
      exact hsame _ (by simp [hpc]) (by simp [hpc]) (by simp)
        (hwait hl' ⟨rfl, rfl, rfl, rfl, rfl, rfl⟩)
  | free hpc =>
      exact hsame _ (by simp [hpc]) (by simp [hpc]) (by simp)
        (hwait hl' ⟨rfl, rfl, rfl, rfl, rfl, rfl⟩)

theorem served_step (q : WorkQueue) (a : Act) (q' : WorkQueue) (h : ∃ l, Served q l)
    (hstep : step q a = some q') : ∃ l, Served q' l := by
  obtain ⟨l, h⟩ := h
  obtain ⟨l', hjobs⟩ := jobsOk_step h.jobs hstep
  refine ⟨l', hjobs, fun hidle => ?_⟩
  have htotal := h.jobs.total
  have htotal' := hjobs.total
  cases move_of_step hstep with
  | queue job wake threads _ hsig =>
      obtain ⟨hun, hcovered⟩ := h.opened hidle
      have hlen : l'.length = l.length + 1 := by
        simp only at htotal'
        omega
      refine ⟨unflagged_of_steady hun (allSteady_signal hsig), ?_⟩
      rw [hlen, Nat.cast_add, Nat.cast_one]
      exact CondVar.covered_signal hcovered hsig
  | work i w _ hw hmove =>
      have hidle' : q.shutdown = .idle := by
        cases hmove with
        | _ => exact hidle
      obtain ⟨hun, hcovered⟩ := h.opened hidle'
      exact ⟨unflagged_of_steady hun (allSteady_workerMove hw hmove),
        covered_workerMove h.jobs hjobs hun hcovered hw hmove⟩
  | spurious i w hw hb =>
      obtain ⟨hun, hcovered⟩ := h.opened hidle
      have hlen : l'.length = l.length := by
        simp only at htotal'
        omega
      refine ⟨unflagged_of_steady hun (allSteady_set hw (steady_woken w)), ?_⟩
      rw [hlen]
      exact (CondVar.covered_wake hcovered hw (by simp [hb])).mono (Int.le_add_one le_rfl)
  -- the other steps are steps of the shutdown
  | _ => cases hidle

/-! ## Creation -/

/-- The workers created so far are the ones on the list. -/
structure Fresh (q : WorkQueue) (l : List Nat) : Prop where
  chain : IsChain (fun i => (q.workerLinks i).next) q.workers l
  listed : ∀ i, i < q.threads.length ↔ i ∈ l
  threads : ∀ w ∈ q.threads, w = ⟨.lock, false⟩
  shutdown : q.shutdown = .idle
  jobs : JobsOk q []

theorem fresh_blank : Fresh blank [] where
  chain := .nil
  listed := by simp [blank]
  threads := by simp [blank]
  shutdown := rfl
  jobs := ⟨stack_nil _, rfl, by simp [blank], by simp [places, blank]⟩

theorem fresh_addWorker {q : WorkQueue} {l : List Nat} (h : Fresh q l) :
    Fresh (addWorker q) (q.threads.length :: l) where
  chain := by
    have hnot : q.threads.length ∉ l := fun hmem => lt_irrefl _ ((h.listed _).2 hmem)
    refine .cons ?_
    simp only [addWorker, llAdd, CppMisc.ThreadPool.listAdd, Function.update_self]
    refine h.chain.congr fun i hi => ?_
    have hne : i ≠ q.threads.length := fun he => hnot (he ▸ hi)
    simp [hne]
  listed := by
    intro i
    have hi := h.listed i
    simp only [addWorker, List.length_append, List.length_singleton, List.mem_cons, ← hi]
    omega
  threads := by
    intro w hw
    rcases List.mem_append.1 hw with hw | hw
    · exact h.threads w hw
    · exact List.mem_singleton.1 hw
  shutdown := h.shutdown
  jobs := jobsOk_of_sameJobs h.jobs ⟨rfl, rfl, rfl, rfl, rfl, rfl⟩

theorem fresh_createLoop (works : Nat → Bool) (n : Nat) :
    ∀ (i : Nat) (q : WorkQueue), (∃ l, Fresh q l) → ∃ l, Fresh (createLoop works n i q).2 l := by
  induction n with
  | zero =>
      intro i q h
      exact h
  | succ n ih =>
      rintro i q ⟨l, h⟩
      simp only [createLoop]
      split
      · exact ih (i + 1) (addWorker q) ⟨_, fresh_addWorker h⟩
      · exact ⟨l, h⟩

theorem Fresh.served {q : WorkQueue} {l : List Nat} (h : Fresh q l) : Served q [] where
  jobs := h.jobs
  opened := by
    refine fun _ => ⟨fun i w hw => ?_, CondVar.covered_of_nonpos le_rfl⟩
    rw [h.threads w (List.mem_of_getElem? hw)]

theorem Fresh.teardown {q : WorkQueue} {l : List Nat} (h : Fresh q l) : Teardown q := by
  constructor
  · intro i w hw hgone
    rw [h.threads w (List.mem_of_getElem? hw)] at hgone
    rcases hgone with hgone | hgone <;> cases hgone
  · simp only [Phase, h.shutdown]
    refine ⟨l, h.chain, fun i w hw => .inr ?_⟩
    obtain ⟨hlt, -⟩ := List.getElem?_eq_some_iff.1 hw
    exact (h.listed i).1 hlt

theorem fresh_create (works : Nat → Bool) (numWorkers : Int) :
    ∃ l, Fresh (ntyThreadPoolCreate works numWorkers).2 l :=
  fresh_createLoop works _ 0 blank ⟨[], fresh_blank⟩

/-- **Shutdown and delivery.** Take any run of queue calls, worker steps, spurious wake-ups and one
shutdown after `ntyThreadPoolCreate` has returned. In every state of it: before the shutdown starts, if
a worker is blocked then the waiting jobs are at most the woken workers that have not re-acquired
`jobs_mtx`; and no job is started twice, and every queued job is still waiting, or was started, or was
discarded. If moreover the shutdown reads `worker->next` only of workers that are not freed, then once
it has returned no worker is blocked. -/
theorem shutdown_delivers (works : Nat → Bool) (numWorkers : Int) (acts : List Act) :
    EveryState step Delivers (ntyThreadPoolCreate works numWorkers).2 acts ∧
      (EveryStep step NextOfLive (ntyThreadPoolCreate works numWorkers).2 acts →
        EveryState step AllAwake (ntyThreadPoolCreate works numWorkers).2 acts) := by
  obtain ⟨l, hfresh⟩ := fresh_create works numWorkers
  constructor
  · have hdelivers : ∀ q, (∃ l, Served q l) → Delivers q := fun _ ⟨_, h⟩ => h.delivers
    exact everyState_of_step served_step hdelivers acts _ ⟨[], hfresh.served⟩
  · exact everyState_of_everyStep teardown_step (fun _ h => h.allAwake) acts _ hfresh.teardown

/-- Two workers go to sleep, a job wakes one of them, and the pool is shut down while it runs. -/
def calmShutdown : List Act :=
  [.work 0, .work 1, .queue 100 (some 0), .work 0, .shutdown none, .shutdown none, .shutdown none,
    .shutdown none, .shutdown none, .shutdown none]

/-- Control: `calmShutdown` reads live workers only, so nobody sleeps at its end. -/
theorem shutdown_delivers_calmShutdown :
    EveryState step Delivers (ntyThreadPoolCreate (fun _ => true) 2).2 calmShutdown ∧
      EveryState step AllAwake (ntyThreadPoolCreate (fun _ => true) 2).2 calmShutdown ∧
      (run step (ntyThreadPoolCreate (fun _ => true) 2).2 calmShutdown).map
        (fun q => (q.shutdown, q.threads, q.started)) =
          some (.returned, [⟨.inJob 0, true⟩, ⟨.woken, true⟩], [0]) := by
  obtain ⟨hdelivers, hawake⟩ := shutdown_delivers (fun _ => true) 2 calmShutdown
  exact ⟨hdelivers, hawake (by decide), rfl⟩

/-- The second worker is flagged, leaves and frees itself before its `next` field is read, which then
holds a null pointer. The first worker is never flagged, and goes back to sleep after the broadcast. -/
def strayShutdown : List Act :=
  [.shutdown none, .shutdown none, .work 1, .work 1, .shutdown none, .shutdown none, .work 0]

/-- After `strayShutdown` the shutdown has returned and a worker sleeps without a wake-up. -/
theorem strayShutdown_sleeps :
    ∃ q, run step (ntyThreadPoolCreate (fun _ => true) 2).2 strayShutdown = some q ∧
      q.shutdown = .returned ∧ q.threads = [⟨.blocked, false⟩, ⟨.freed, true⟩] ∧ ¬ AllAwake q := by
  refine ⟨_, rfl, rfl, rfl, fun h => ?_⟩
  exact h rfl ⟨.blocked, false⟩ List.mem_cons_self rfl

end CppMisc.NtyThreadPool
