import CppMisc.ThreadPool.Model

/-!
# The order of the jobs in `threadpool/thread_pool.c`

The comments of the file call `tp->jobs` a queue and the job that a worker takes the one at its front. But
`LIST_ADD` puts a new job at the head of the list and a worker takes the job at the head, so the list is a
stack: the newest job is taken first.

With one worker, the jobs are started in the order of the calls of `thread_pool_add_job` as long as no two jobs
wait when the worker takes one (`KeepsUp`). When two wait, the newer one is taken and the older one stays behind
it (`Behind`), and the order is broken as soon as the job is started.
-/

set_option autoImplicit false

namespace CppMisc.ThreadPool

open CppMisc.Library

/-- What can happen while a pool has one worker: jobs are added, the call that creates the worker ends, and the
worker runs or is woken for no reason. -/
inductive OneWorkerAct where
  | addJob (job : JobPtr) (wake : Option Nat)
  | register
  | cycle
  | spurious

/-- These are actions of the pool. -/
def OneWorkerAct.act : OneWorkerAct → Act
  | .addJob job wake => .addJob job wake
  | .register => .register 0
  | .cycle => .cycle 0
  | .spurious => .spurious 0

/-- One step of a pool with one worker. -/
def oneWorkerStep (tp : Pool) (a : OneWorkerAct) : Option Pool := step tp a.act

/-- The pool when its only worker has been created. -/
def oneWorkerPool : Pool := spawnWorker initial

/-- The jobs started so far are the first ones that were added, in that order. -/
def StartedInOrder (tp : Pool) : Prop := tp.started = (List.range tp.started.length).reverse

/-- When the worker comes to take a job, no two jobs wait. -/
def KeepsUp (tp : Pool) : OneWorkerAct → Prop
  | .cycle => ∀ w ∈ tp.threads, w.pc = .enter ∨ w.pc = .woken → tp.waitingJobsNum ≤ 1
  | _ => True

/-- The ticket of the job that a worker has taken and not started yet. -/
def Pc.next : Pc → Option Ticket
  | .took t => some t
  | .marked t => some t
  | .counted t => some t
  | _ => none

/-- No job has been taken and not started. -/
def Settled (tp : Pool) : Prop := ∀ w ∈ tp.threads, w.pc.next = none

/-! ## Runs in order -/

/-- The invariant of the runs in order. The tickets below `taken` have left the list, those from `taken` on
wait on it, the newest first. -/
structure InOrder (tp : Pool) (w : Worker) (l : List JobPtr) (taken : Nat) : Prop where
  single : tp.threads = [w]
  stack : Stack tp.links tp.jobs l
  waiting : tp.waitingJobsNum = l.length
  tickets : l.map tp.stamp = (List.range' taken l.length).reverse
  issued : tp.issued = taken + l.length
  started : tp.started = (List.range tp.started.length).reverse
  next : (w.pc.next = none ∧ tp.started.length = taken) ∨
    (w.pc.next = some tp.started.length ∧ tp.started.length + 1 = taken)

theorem inOrder_oneWorkerPool : InOrder oneWorkerPool ⟨.test, false, false⟩ [] 0 where
  single := rfl
  stack := stack_nil _
  waiting := rfl
  tickets := rfl
  issued := rfl
  started := rfl
  next := .inl ⟨rfl, rfl⟩

/-- The list of jobs and the history are the same. -/
structure SameQueue (tp tp' : Pool) : Prop where
  jobs : tp'.jobs = tp.jobs
  links : tp'.links = tp.links
  waiting : tp'.waitingJobsNum = tp.waitingJobsNum
  stamp : tp'.stamp = tp.stamp
  issued : tp'.issued = tp.issued
  started : tp'.started = tp.started

/-- A move of the worker that neither takes nor starts a job. -/
theorem InOrder.move {tp tp' : Pool} {w w' : Worker} {l : List JobPtr} {taken : Nat}
    (h : InOrder tp w l taken) (hsame : SameQueue tp tp') (hthreads : tp'.threads = [w'])
    (hnext : w'.pc.next = w.pc.next) : InOrder tp' w' l taken where
  single := hthreads
  stack := by
    rw [hsame.links, hsame.jobs]
    exact h.stack
  waiting := hsame.waiting.trans h.waiting
  tickets := by
    rw [hsame.stamp]
    exact h.tickets
  issued := hsame.issued.trans h.issued
  started := by
    rw [hsame.started]
    exact h.started
  next := by
    rw [hnext, hsame.started]
    exact h.next

/-- A new job is the newest of the waiting ones. -/
theorem InOrder.addJob {tp : Pool} {w : Worker} {l : List JobPtr} {taken : Nat} (h : InOrder tp w l taken)
    {job : JobPtr} (hjob : job ∉ l) :
    InOrder { tp with
      waitingJobsNum := tp.waitingJobsNum + 1
      links := (listAdd tp.links tp.jobs job).1
      jobs := (listAdd tp.links tp.jobs job).2
      stamp := Function.update tp.stamp job tp.issued
      issued := tp.issued + 1 } w (job :: l) taken where
  single := h.single
  stack := stack_listAdd h.stack hjob
  waiting := by
    rw [List.length_cons, h.waiting]
    push_cast
    rfl
  tickets := by
    have hrest : l.map (Function.update tp.stamp job tp.issued) = l.map tp.stamp := by
      rw [h.stack.chain.nodup.map_update, if_neg hjob]
    simp only [List.map_cons, hrest, h.tickets, Function.update_self]
    rw [h.issued, List.length_cons, List.range'_1_concat, List.reverse_append]
    rfl
  issued := by
    rw [List.length_cons, h.issued]
    rfl
  started := h.started
  next := h.next

/-- With at most one job waiting, the worker takes the oldest one. -/
theorem InOrder.takeJob {tp : Pool} {w : Worker} {l : List JobPtr} {taken : Nat} (h : InOrder tp w l taken)
    (hidle : w.pc.next = none) (hone : tp.waitingJobsNum ≤ 1) :
    ∃ w' l' taken', InOrder (takeJob tp 0 w) w' l' taken' := by
  obtain ⟨-, hstarted⟩ | ⟨hbusy, -⟩ := h.next
  · cases hj : tp.jobs with
    | none =>
        -- woken with no job on the list, the worker goes back to its test
        refine ⟨{ w with pc := .test }, l, taken, ?_⟩
        have hsame : SameQueue tp (ThreadPool.takeJob tp 0 w) := by
          simp only [ThreadPool.takeJob, hj]
          exact ⟨hj.symm, rfl, rfl, rfl, rfl, rfl⟩
        refine h.move hsame ?_ hidle.symm
        simp [ThreadPool.takeJob, hj, h.single]
    | some job =>
        have hstack := h.stack
        rw [hj] at hstack
        obtain ⟨rest, rfl, -⟩ := isChain_some_iff.1 hstack.chain
        have hwaiting := h.waiting
        have htickets := h.tickets
        have hissued := h.issued
        rw [List.length_cons] at hwaiting hissued
        -- the head is the newest waiting job, and as the only one also the oldest
        obtain rfl : rest = [] := List.eq_nil_of_length_eq_zero (by omega)
        have hjob : tp.stamp job = taken := by simpa using htickets
        refine ⟨{ w with pc := .took (tp.stamp job) }, [], taken + 1, ?_⟩
        simp only [ThreadPool.takeJob, hj]
        refine ⟨by simp [h.single], stack_listRemove hstack, ?_, rfl, ?_, h.started, .inr ⟨?_, ?_⟩⟩
        · simp only [List.length_nil] at hwaiting ⊢
          omega
        · simp only [List.length_nil] at hissued ⊢
          omega
        · rw [hjob, hstarted]
          rfl
        · rw [hstarted]
  · rw [hidle] at hbusy
    cases hbusy

/-- The job that was taken is started next. -/
theorem InOrder.start {tp : Pool} {w : Worker} {l : List JobPtr} {taken : Nat} (h : InOrder tp w l taken)
    {t : Ticket} (hpc : w.pc = .counted t) :
    InOrder { tp with
      threads := tp.threads.set 0 { w with pc := .inFunc t }
      started := t :: tp.started } { w with pc := .inFunc t } l taken := by
  obtain ⟨hidle, -⟩ | ⟨hbusy, htaken⟩ := h.next
  · rw [hpc] at hidle
    cases hidle
  · rw [hpc] at hbusy
    obtain rfl : t = tp.started.length := Option.some.inj hbusy
    refine ⟨by simp [h.single], h.stack, h.waiting, h.tickets, h.issued, ?_, .inl ⟨rfl, ?_⟩⟩
    · rw [List.length_cons, List.range_succ, List.reverse_append, ← h.started]
      rfl
    · rw [List.length_cons, htaken]

/-- What a step is when there is one worker. -/
theorem oneWorker_cases {tp tp' : Pool} {w : Worker} (hsingle : tp.threads = [w]) {a : OneWorkerAct}
    (hstep : oneWorkerStep tp a = some tp') :
    (∃ job wake w', a = .addJob job wake ∧
      job ∉ follow (fun a => (tp.links a).next) tp.waitingJobsNum.toNat tp.jobs ∧
      (w' = w ∨ w.pc = .blocked ∧ w' = { w with pc := .woken }) ∧
      tp' = { tp with
        waitingJobsNum := tp.waitingJobsNum + 1
        links := (listAdd tp.links tp.jobs job).1
        jobs := (listAdd tp.links tp.jobs job).2
        threads := [w']
        stamp := Function.update tp.stamp job tp.issued
        issued := tp.issued + 1 }) ∨
    (a = .register ∧ SameQueue tp tp' ∧ tp'.threads = [w]) ∨
    (a = .cycle ∧ CycleMove tp 0 w tp') ∨
    (a = .spurious ∧ SameQueue tp tp' ∧ w.pc = .blocked ∧ tp'.threads = [{ w with pc := .woken }]) := by
  have honly : ∀ {i : Nat} {v : Worker}, tp.threads[i]? = some v → i = 0 ∧ v = w := by
    intro i v hv
    rw [hsingle] at hv
    obtain ⟨hlt, hget⟩ := List.getElem?_eq_some_iff.1 hv
    obtain rfl : i = 0 := by simpa using hlt
    exact ⟨rfl, hget.symm⟩
  cases a with
  | addJob job wake =>
      cases move_of_step hstep with
      | addJob _ _ threads hjob hsig =>
          left
          obtain ⟨rfl, -⟩ | ⟨i, v, hv, hb, rfl⟩ := signal_cases hsig
          · exact ⟨job, wake, w, rfl, hjob, .inl rfl, by rw [hsingle]⟩
          · obtain ⟨rfl, rfl⟩ := honly hv
            exact ⟨job, wake, _, rfl, hjob, .inr ⟨hb, rfl⟩, by rw [hsingle]; rfl⟩
  | register =>
      cases move_of_step hstep with
      | register _ _ _ => exact .inr (.inl ⟨rfl, ⟨rfl, rfl, rfl, rfl, rfl, rfl⟩, hsingle⟩)
  | cycle =>
      cases move_of_step hstep with
      | cycle _ v _ hv hmove =>
          obtain ⟨-, rfl⟩ := honly hv
          exact .inr (.inr (.inl ⟨rfl, hmove⟩))
  | spurious =>
      cases move_of_step hstep with
      | spurious _ v hv hb =>
          obtain ⟨-, rfl⟩ := honly hv
          exact .inr (.inr (.inr ⟨rfl, ⟨rfl, rfl, rfl, rfl, rfl, rfl⟩, hb, by rw [hsingle]; rfl⟩))

/-- A move of the worker takes a job, starts one, or does neither; where it could take a job it does so unless
none waits. -/
theorem cycleMove_cases {tp tp' : Pool} {w : Worker} (hsingle : tp.threads = [w])
    (hmove : CycleMove tp 0 w tp') :
    (w.pc = .enter ∨ w.pc = .woken) ∧ tp' = takeJob tp 0 w ∨
    (∃ t, w.pc = .counted t ∧ tp' = { tp with
      threads := tp.threads.set 0 { w with pc := .inFunc t }
      started := t :: tp.started }) ∨
    (SameQueue tp tp' ∧ (w.pc = .enter ∨ w.pc = .woken → tp.waitingJobsNum = 0) ∧
      ∃ w', tp'.threads = [w'] ∧ w'.pc.next = w.pc.next) := by
  have hset : ∀ w' : Worker, tp.threads.set 0 w' = [w'] := by
    intro w'
    rw [hsingle]
    rfl
  cases hmove with
  | test hpc =>
      refine .inr (.inr ⟨⟨rfl, rfl, rfl, rfl, rfl, rfl⟩, by simp [hpc], _, hset _, ?_⟩)
      rw [hpc]
      cases w.terminate <;> rfl
  | sleep hpc hzero =>
      exact .inr (.inr ⟨⟨rfl, rfl, rfl, rfl, rfl, rfl⟩, fun _ => hzero, _, hset _, by rw [hpc]; rfl⟩)
  | take hpc => exact .inl ⟨hpc, rfl⟩
  | mark t hpc =>
      exact .inr (.inr ⟨⟨rfl, rfl, rfl, rfl, rfl, rfl⟩, by simp [hpc], _, hset _, by rw [hpc]; rfl⟩)
  | count t hpc =>
      exact .inr (.inr ⟨⟨rfl, rfl, rfl, rfl, rfl, rfl⟩, by simp [hpc], _, hset _, by rw [hpc]; rfl⟩)
  | start t hpc => exact .inr (.inl ⟨t, hpc, rfl⟩)
  | finish t hpc =>
      exact .inr (.inr ⟨⟨rfl, rfl, rfl, rfl, rfl, rfl⟩, by simp [hpc], _, hset _, by rw [hpc]; rfl⟩)
  | uncount hpc =>
      exact .inr (.inr ⟨⟨rfl, rfl, rfl, rfl, rfl, rfl⟩, by simp [hpc], _, hset _, by rw [hpc]; rfl⟩)
  | close hpc _ =>
      exact .inr (.inr ⟨⟨rfl, rfl, rfl, rfl, rfl, rfl⟩, by simp [hpc], _, hset _, by rw [hpc]; rfl⟩)

/-- A step that keeps up keeps the order. -/
theorem inOrder_step (tp : Pool) (a : OneWorkerAct) (tp' : Pool) (h : ∃ w l taken, InOrder tp w l taken)
    (hup : KeepsUp tp a) (hstep : oneWorkerStep tp a = some tp') : ∃ w l taken, InOrder tp' w l taken := by
  obtain ⟨w, l, taken, h⟩ := h
  rcases oneWorker_cases h.single hstep with ⟨job, wake, w', rfl, hjob, hw', rfl⟩ | ⟨rfl, hsame, hthreads⟩ |
    ⟨rfl, hmove⟩ | ⟨rfl, hsame, hb, hthreads⟩
  · -- the jobs on the list are those of the invariant, so the new one is not among them
    have hfollow : follow (fun a => (tp.links a).next) tp.waitingJobsNum.toNat tp.jobs = l :=
      h.stack.chain.follow_eq (by rw [h.waiting]; simp)
    rw [hfollow] at hjob
    refine ⟨w', job :: l, taken, (h.addJob hjob).move ⟨rfl, rfl, rfl, rfl, rfl, rfl⟩ rfl ?_⟩
    rcases hw' with rfl | ⟨hb, rfl⟩
    · rfl
    · rw [hb]
      rfl
  · exact ⟨w, l, taken, h.move hsame hthreads rfl⟩
  · rcases cycleMove_cases h.single hmove with ⟨hpc, rfl⟩ | ⟨t, hpc, rfl⟩ | ⟨hsame, -, w', hthreads, hnext⟩
    · have hone : tp.waitingJobsNum ≤ 1 := hup w (by rw [h.single]; exact List.mem_singleton_self w) hpc
      exact h.takeJob (by rcases hpc with hpc | hpc <;> rw [hpc] <;> rfl) hone
    · exact ⟨_, l, taken, h.start hpc⟩
    · exact ⟨w', l, taken, h.move hsame hthreads hnext⟩
  · exact ⟨_, l, taken, h.move hsame hthreads (by rw [hb]; rfl)⟩

/-! ## A job that is left behind -/

/-- The worker has taken a job that is not the oldest of those not started. -/
def Behind (tp : Pool) : Prop :=
  ∃ w t, tp.threads = [w] ∧ w.pc.next = some t ∧ tp.started.length < t

/-- When two jobs wait, the newest is taken. -/
theorem InOrder.behind {tp : Pool} {w : Worker} {l : List JobPtr} {taken : Nat} (h : InOrder tp w l taken)
    (hidle : w.pc.next = none) (htwo : ¬ tp.waitingJobsNum ≤ 1) : Behind (ThreadPool.takeJob tp 0 w) := by
  have hwaiting := h.waiting
  have hstack := h.stack
  have htickets := h.tickets
  cases l with
  | nil =>
      rw [List.length_nil] at hwaiting
      omega
  | cons job rest =>
      obtain ⟨-, hstarted⟩ | ⟨hbusy, -⟩ := h.next
      · cases hj : tp.jobs with
        | none =>
            rw [hj] at hstack
            cases hstack.chain
        | some head =>
            rw [hj] at hstack
            cases hstack.chain with
            | cons _ =>
                -- the head has the last of the waiting tickets
                rw [List.length_cons] at hwaiting htickets
                rw [List.range'_1_concat, List.reverse_append, List.map_cons] at htickets
                have hjob : tp.stamp job = taken + rest.length := (List.cons.inj htickets).1
                refine ⟨{ w with pc := .took (tp.stamp job) }, tp.stamp job, ?_, rfl, ?_⟩
                · simp only [ThreadPool.takeJob, hj, h.single]
                  rfl
                · simp only [ThreadPool.takeJob, hj, hjob]
                  omega
      · rw [hidle] at hbusy
        cases hbusy

theorem behind_of_take (tp : Pool) (a : OneWorkerAct) (tp' : Pool) (h : ∃ w l taken, InOrder tp w l taken)
    (hup : ¬ KeepsUp tp a) (hstep : oneWorkerStep tp a = some tp') : Behind tp' := by
  obtain ⟨w, l, taken, h⟩ := h
  cases a with
  | cycle =>
      simp only [KeepsUp, h.single, List.mem_singleton, forall_eq, Classical.not_imp] at hup
      obtain ⟨hpc, htwo⟩ := hup
      have hidle : w.pc.next = none := by rcases hpc with hpc | hpc <;> rw [hpc] <;> rfl
      rcases oneWorker_cases h.single hstep with ⟨_, _, _, ha, -⟩ | ⟨ha, -⟩ | ⟨-, hmove⟩ | ⟨ha, -⟩
      · cases ha
      · cases ha
      · rcases cycleMove_cases h.single hmove with ⟨-, rfl⟩ | ⟨t, hcounted, -⟩ | ⟨-, hnone, -⟩
        · exact h.behind hidle htwo
        · rw [hcounted] at hidle
          cases hidle
        · have hzero := hnone hpc
          omega
      · cases ha
  | _ => exact absurd trivial hup

/-- The worker stays behind until it starts the job, and then the order is broken. -/
theorem behind_step {tp tp' : Pool} {a : OneWorkerAct} (h : Behind tp)
    (hstep : oneWorkerStep tp a = some tp') : Behind tp' ∨ ¬ StartedInOrder tp' := by
  obtain ⟨w, t, hsingle, hnext, hlt⟩ := h
  have hawake : w.pc ≠ .blocked := by
    intro hb
    rw [hb] at hnext
    cases hnext
  rcases oneWorker_cases hsingle hstep with ⟨job, wake, w', -, -, hw', rfl⟩ | ⟨-, hsame, hthreads⟩ |
    ⟨-, hmove⟩ | ⟨-, -, hb, -⟩
  · rcases hw' with rfl | ⟨hb, -⟩
    · exact .inl ⟨w', t, rfl, hnext, hlt⟩
    · exact absurd hb hawake
  · exact .inl ⟨w, t, hthreads, hnext, by rw [hsame.started]; exact hlt⟩
  · rcases cycleMove_cases hsingle hmove with ⟨hpc, -⟩ | ⟨u, hpc, rfl⟩ | ⟨hsame, -, w', hthreads, hkeep⟩
    · rcases hpc with hpc | hpc
      · rw [hpc] at hnext
        cases hnext
      · rw [hpc] at hnext
        cases hnext
    · -- the job is started before an older one
      right
      rw [hpc] at hnext
      obtain rfl : u = t := Option.some.inj hnext
      intro horder
      rw [StartedInOrder, List.length_cons, List.range_succ, List.reverse_append] at horder
      have hhead : u = tp.started.length := (List.cons.inj horder).1
      rw [hhead] at hlt
      exact lt_irrefl _ hlt
    · exact .inl ⟨w', t, hthreads, hkeep.trans hnext, by rw [hsame.started]; exact hlt⟩
  · exact absurd hb hawake

/-- A run in order that goes through such a state ends with the job not started. -/
theorem behind_run {tp : Pool} (acts : List OneWorkerAct) : ∀ {s : Pool}, Behind s →
    run oneWorkerStep s acts = some tp → EveryState oneWorkerStep StartedInOrder s acts → ¬ Settled tp := by
  induction acts with
  | nil =>
      intro s h hrun _ hsettled
      obtain rfl : s = tp := Option.some.inj hrun
      obtain ⟨w, t, hsingle, hnext, -⟩ := h
      have hnone := hsettled w (by rw [hsingle]; exact List.mem_singleton_self w)
      rw [hnext] at hnone
      cases hnone
  | cons a acts ih =>
      intro s h hrun hall
      obtain ⟨u, hu, hrest⟩ := run_cons_eq_some.1 hrun
      have hallRest := hall.2 u hu
      rcases behind_step h hu with hbehind | hbroken
      · exact ih hbehind hrest hallRest
      · exact absurd hallRest.head hbroken

/-- A run in order that ends with no job taken and not started has kept up. -/
theorem keepsUp_of_inOrder {tp : Pool} (hsettled : Settled tp) (acts : List OneWorkerAct) : ∀ {s : Pool},
    (∃ w l taken, InOrder s w l taken) → run oneWorkerStep s acts = some tp →
      EveryState oneWorkerStep StartedInOrder s acts → EveryStep oneWorkerStep KeepsUp s acts := by
  induction acts with
  | nil =>
      intro s _ _ _
      trivial
  | cons a acts ih =>
      intro s h hrun hall t ht
      obtain ⟨u, hu, hrest⟩ := run_cons_eq_some.1 hrun
      obtain rfl : u = t := Option.some.inj (hu.symm.trans ht)
      have hup : KeepsUp s a := by
        by_contra hnot
        exact behind_run acts (behind_of_take s a u h hnot hu) hrest (hall.2 u hu) hsettled
      exact ⟨hup, ih (inOrder_step s a u h hup hu) hrest (hall.2 u hu)⟩

/-- **The order of the jobs.** With one worker, and jobs added at any time in between, the jobs are started in
the order in which they were added in every run in which no two jobs wait when the worker takes one; and in the
runs that do not end between taking a job and starting it, only in these. -/
theorem started_in_order_iff (acts : List OneWorkerAct) :
    (EveryStep oneWorkerStep KeepsUp oneWorkerPool acts →
      EveryState oneWorkerStep StartedInOrder oneWorkerPool acts) ∧
    ∀ tp, run oneWorkerStep oneWorkerPool acts = some tp → Settled tp →
      (EveryState oneWorkerStep StartedInOrder oneWorkerPool acts ↔
        EveryStep oneWorkerStep KeepsUp oneWorkerPool acts) := by
  have hstart : ∃ w l taken, InOrder oneWorkerPool w l taken := ⟨_, _, _, inOrder_oneWorkerPool⟩
  have henough := everyState_of_everyStep inOrder_step (P := StartedInOrder)
    (fun tp h => by obtain ⟨w, l, taken, h⟩ := h; exact h.started) acts oneWorkerPool hstart
  refine ⟨henough, fun tp hrun hsettled => ⟨?_, henough⟩⟩
  exact keepsUp_of_inOrder hsettled acts hstart hrun

/-- Two jobs are added before the worker comes to take one. -/
def backlog : List OneWorkerAct :=
  [.register, .addJob 100 none, .addJob 200 none, .cycle, .cycle, .cycle, .cycle, .cycle]

/-- Control: the second of the two jobs is started first. -/
theorem backlog_out_of_order :
    ¬ ∀ acts : List OneWorkerAct, EveryState oneWorkerStep StartedInOrder oneWorkerPool acts := by
  intro h
  have hend : (run oneWorkerStep oneWorkerPool backlog).map Pool.started = some [1] := rfl
  obtain ⟨tp, hrun, hstarted⟩ := Option.map_eq_some_iff.1 hend
  have hlast := (h backlog).last hrun
  rw [StartedInOrder, hstarted] at hlast
  exact absurd hlast (by decide)

end CppMisc.ThreadPool
