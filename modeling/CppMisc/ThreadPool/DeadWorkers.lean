import CppMisc.ThreadPool.Destroy

/-!
# The walk of `thread_pool_destroy` and dead workers

Whether `thread_pool_destroy` can walk into a freed worker is decided by the state in which it takes
`jobs_mtx`. A worker that stands at that mutex cannot leave before the walk is over. Every other worker
that the pointers lead to can: once it has its flag it unlinks and frees itself under `workers_mtx` alone.
Neither may the pointers lead to a worker that is still to be registered, in memory that an old pointer
leads to: when it is put on the list, whatever worker is at the head by then comes to stand behind it.

`Sound` is the invariant of every run, and `Others` what a step of anybody else than the caller does.
`Held` is the invariant of the walk among workers at `jobs_mtx`. `ReadsLive` is the assumption that the
walk is safe, from which its workers are found to stand at `jobs_mtx` one after another. The two
directions meet in `walksLive_iff_parked`.
-/

set_option autoImplicit false

namespace CppMisc.ThreadPool.Destroy

open CppMisc.Library
open CppMisc.ThreadPool

/-! ## The invariant of every run -/

/-- The thread has unregistered. -/
def ExitedAt (threads : List Worker) (i : Nat) : Prop := ∃ w, threads[i]? = some w ∧ w.pc = .exited

/-- A worker at `jobs_mtx` has not unregistered. -/
theorem AtMutexAt.not_exitedAt {threads : List Worker} {i : Nat} (h : AtMutexAt threads i) :
    ¬ ExitedAt threads i := by
  obtain ⟨w, hw, hm⟩ := h
  rintro ⟨x, hx, hexit⟩
  rw [hw] at hx
  cases hx
  exact hm.pc_ne.2 hexit

theorem lt_of_exitedAt {threads : List Worker} {i : Nat} (h : ExitedAt threads i) :
    i < threads.length := by
  obtain ⟨w, hw, -⟩ := h
  exact (List.getElem?_eq_some_iff.1 hw).1

theorem AllGo.exitedAt {held : Bool} {threads threads' : List Worker} (h : AllGo held threads threads')
    {i : Nat} (he : ExitedAt threads i) : ExitedAt threads' i := by
  obtain ⟨w, hw, hpc⟩ := he
  obtain ⟨w', hw', hgo⟩ := h.kept i w hw
  exact ⟨w', hw', hgo.exited hpc⟩

/-- The pointers lead to workers, no worker has a `prev` pointer, and only flagged workers have left their
loop. -/
structure Sound (s : LinkedPool) : Prop where
  prev : ∀ i, (s.workerLinks i).prev = none
  head : ∀ i, s.workers = some i → i < s.pool.threads.length
  next : ∀ i j, next s i = some j → j < s.pool.threads.length
  pending : ∀ i ∈ s.pool.pending, i < s.pool.threads.length
  freed : ∀ i ∈ s.freed, ExitedAt s.pool.threads i
  listed : ∀ i ∈ s.pool.workers, i ∉ s.freed
  leaver : ∀ (i : Nat) (w : Worker), s.pool.threads[i]? = some w → Leaver w → w.terminate = true

theorem sound_start : Sound start where
  prev _ := rfl
  head _ h := by cases h
  next _ _ h := by cases h
  pending := by simp [start, initial]
  freed := by simp [start]
  listed := by simp [start]
  leaver := by simp [start, initial]

theorem AllGo.leaver {held : Bool} {threads threads' : List Worker} (h : AllGo held threads threads')
    (hleaver : ∀ (i : Nat) (w : Worker), threads[i]? = some w → Leaver w → w.terminate = true) :
    ∀ (i : Nat) (w : Worker), threads'[i]? = some w → Leaver w → w.terminate = true := by
  intro i w' hw' hl
  obtain ⟨w, hw, hgo⟩ := h.back hw'
  rcases hgo.leaver hl with hl | hf
  · exact hgo.flag (hleaver i w hw hl)
  · exact hf

/-- A step that moves threads and leaves the lists alone. -/
theorem sound_threads {s s' : LinkedPool} (h : Sound s)
    (hgo : AllGo false s.pool.threads s'.pool.threads) (hpending : s'.pool.pending = s.pool.pending)
    (hlist : s'.pool.workers = s.pool.workers) (hworkers : s'.workers = s.workers)
    (hlinks : s'.workerLinks = s.workerLinks) (hfreed : s'.freed = s.freed) : Sound s' where
  prev := by rw [hlinks]; exact h.prev
  head := by rw [hworkers, hgo.length]; exact h.head
  next := by
    simp only [Destroy.next, hlinks, hgo.length]
    exact h.next
  pending := by rw [hpending, hgo.length]; exact h.pending
  freed := by
    rw [hfreed]
    exact fun i hi => hgo.exitedAt (h.freed i hi)
  listed := by rw [hlist, hfreed]; exact h.listed
  leaver := hgo.leaver h.leaver

theorem sound_callMove {s s' : LinkedPool} {junk : Option Nat} (h : Sound s)
    (hmove : CallMove s junk s') : Sound s' := by
  cases hmove with
  | lock _ => exact sound_threads h (.refl _ _) rfl rfl rfl rfl rfl
  | flag i w _ hw _ => exact sound_threads h (allGo_set hw (goes_flag false w)) rfl rfl rfl rfl rfl
  | flagFreed i _ _ => exact sound_threads h (.refl _ _) rfl rfl rfl rfl rfl
  | next i _ => exact sound_threads h (.refl _ _) rfl rfl rfl rfl rfl
  | close _ => exact sound_threads h (allGo_broadcast false _) rfl rfl rfl rfl rfl

/-- After the `memset` of an object no worker has a `prev` pointer still. -/
theorem prev_memset {m : Nat → Link Nat} (h : ∀ i, (m i).prev = none) (a i : Nat) :
    (Function.update m a ⟨none, none⟩ i).prev = none := by
  by_cases hi : i = a
  · simp [hi]
  · simp [hi, h i]

theorem next_memset {m : Nat → Link Nat} {n : Nat} (h : ∀ i j, (m i).next = some j → j < n)
    {a i j : Nat} (hj : (Function.update m a ⟨none, none⟩ i).next = some j) : j < n := by
  by_cases hi : i = a
  · simp [hi] at hj
  · rw [Function.update_of_ne hi] at hj
    exact h i j hj

/-- A worker starts in fresh memory. -/
theorem sound_spawn {s : LinkedPool} (h : Sound s) :
    Sound { s with
      pool := spawnWorker s.pool
      workerLinks := Function.update s.workerLinks s.pool.threads.length ⟨none, none⟩ } := by
  have hlen : (spawnWorker s.pool).threads.length = s.pool.threads.length + 1 := by simp [spawnWorker]
  refine ⟨fun i => prev_memset h.prev _ i, fun i hi => ?_, fun i j hj => ?_, fun i hi => ?_,
    fun i hi => ?_, h.listed, fun i w hw hl => ?_⟩
  · have hlt := h.head i hi
    rw [hlen]
    omega
  · have hlt := next_memset h.next hj
    rw [hlen]
    omega
  · rw [hlen]
    rcases List.mem_cons.1 hi with rfl | hi
    · omega
    · have hlt := h.pending i hi
      omega
  · obtain ⟨w, hw, hpc⟩ := h.freed i hi
    obtain ⟨hlt, -⟩ := List.getElem?_eq_some_iff.1 hw
    exact ⟨w, by simp only [spawnWorker, List.getElem?_append_left hlt, hw], hpc⟩
  · rcases getElem?_snoc_cases hw with hw | ⟨-, rfl⟩
    · exact h.leaver i w hw hl
    · rcases hl with hl | hl <;> cases hl

/-- A worker starts in the memory of a freed one. -/
theorem sound_reuse {s : LinkedPool} (h : Sound s) {i : Nat} (hf : i ∈ s.freed) :
    Sound { s with
      pool := { s.pool with
        threads := s.pool.threads.set i newWorker
        pending := i :: s.pool.pending }
      workerLinks := Function.update s.workerLinks i ⟨none, none⟩
      freed := s.freed.filter (· ≠ i) } := by
  refine ⟨fun j => prev_memset h.prev _ j, fun j hj => ?_, fun j k hk => ?_, fun j hj => ?_,
    fun j hj => ?_, fun j hj hfj => ?_, fun j w hw hl => ?_⟩
  · rw [List.length_set]
    exact h.head j hj
  · rw [List.length_set]
    exact next_memset h.next hk
  · rw [List.length_set]
    rcases List.mem_cons.1 hj with rfl | hj
    · exact lt_of_exitedAt (h.freed j hf)
    · exact h.pending j hj
  · obtain ⟨hj, hji⟩ := List.mem_filter.1 hj
    have hne : j ≠ i := by simpa using hji
    obtain ⟨w, hw, hpc⟩ := h.freed j hj
    exact ⟨w, by rw [List.getElem?_set_ne hne.symm, hw], hpc⟩
  · exact h.listed j hj (List.mem_filter.1 hfj).1
  · rcases getElem?_set_cases hw with ⟨-, rfl⟩ | ⟨-, hw⟩
    · rcases hl with hl | hl <;> cases hl
    · exact h.leaver j w hw hl

theorem sound_otherMove {s s' : LinkedPool} (h : Sound s) (hmove : OtherMove s s') : Sound s' := by
  cases hmove with
  | addJob job wake tp hmove =>
      cases hmove with
      | addJob _ _ threads _ hsig => exact sound_threads h (allGo_signal hsig) rfl rfl rfl rfl rfl
  | spawn => exact sound_spawn h
  | reuse i hf => exact sound_reuse h hf
  | register i hr hi hf =>
      refine ⟨listAdd_prev h.prev s.workers i, fun j hj => ?_, fun j k hk => ?_,
        fun j hj => h.pending j (List.mem_of_mem_erase hj), h.freed, fun j hj => ?_, h.leaver⟩
      · cases hj
        exact h.pending i hi
      · simp only [next, listAdd_next] at hk
        split at hk
        · exact h.head k hk
        · exact h.next j k hk
      · rcases List.mem_cons.1 hj with rfl | hj
        · exact hf
        · exact h.listed j hj
  | removeWorkers tp removing hset =>
      obtain ⟨threads, k, rfl, hgo⟩ := hset
      exact sound_threads h (hgo false) rfl rfl rfl rfl rfl
  | removeBroadcast => exact sound_threads h (allGo_broadcast false _) rfl rfl rfl rfl rfl
  | cycle i w tp hw _ hc hmove =>
      have hgo : AllGo false s.pool.threads tp.threads := allGo_cycleMove hw (by simp) hmove
      have hlists : tp.pending = s.pool.pending ∧ tp.workers = s.pool.workers := by
        cases hmove with
        | take _ =>
            obtain ⟨pc, links, jobs, n, -, heq⟩ := takeJob_frame s.pool i w
            rw [heq]
            exact ⟨rfl, rfl⟩
        | close hpc _ => exact absurd hpc hc
        | _ => exact ⟨rfl, rfl⟩
      exact sound_threads h hgo hlists.1 hlists.2 rfl rfl rfl
  | close i w hw hc =>
      have hgo : AllGo false s.pool.threads (s.pool.threads.set i { w with pc := .exited }) :=
        allGo_set hw ⟨id, fun _ => .inl (.inl hc), fun _ => rfl, by simp⟩
      refine ⟨fun j => listRemove_prev h.prev s.workers i j, fun j hj => ?_, fun j k hk => ?_,
        fun j hj => ?_, fun j hj => hgo.exitedAt (h.freed j hj),
        fun j hj => h.listed j (List.mem_of_mem_erase hj), hgo.leaver h.leaver⟩
      · rw [hgo.length]
        simp only [listRemove_list h.prev] at hj
        split at hj
        · exact h.next i j hj
        · exact h.head j hj
      · rw [hgo.length]
        simp only [next, listRemove_next h.prev] at hk
        split at hk
        · cases hk
        · exact h.next j k hk
      · rw [hgo.length]
        exact h.pending j hj
  | free i w hw hpc =>
      refine ⟨h.prev, h.head, h.next, h.pending, fun j hj => ?_, fun j hj hfj => ?_, h.leaver⟩
      · rcases List.mem_cons.1 hj with rfl | hj
        · exact ⟨w, hw, hpc⟩
        · exact h.freed j hj
      · obtain ⟨hj, hji⟩ := List.mem_filter.1 hj
        have hne : j ≠ i := by simpa using hji
        exact h.listed j hj ((List.mem_cons.1 hfj).resolve_left hne)
  | spurious i w hw hb =>
      exact sound_threads h (allGo_set hw (goes_woken false w hb)) rfl rfl rfl rfl rfl

theorem sound_step (s : LinkedPool) (a : Act) (s' : LinkedPool) (h : Sound s)
    (hstep : step s a = some s') : Sound s' := by
  rcases move_of_step hstep with ⟨junk, -, hmove⟩ | hmove
  · exact sound_callMove h hmove
  · exact sound_otherMove h hmove

theorem sound_reaches {s t : LinkedPool} (h : Sound s) (ht : Reaches step s t) : Sound t :=
  ht.invariant sound_step h

/-! ## What the others can do -/

/-- A place where the object of a new worker can come to lie. -/
def Vacant (s : LinkedPool) (i : Nat) : Prop := i = s.pool.threads.length ∨ i ∈ s.freed

theorem AtMutexAt.not_vacant {s : LinkedPool} {i : Nat} (h : AtMutexAt s.pool.threads i)
    (hsound : Sound s) : ¬ Vacant s i := by
  rintro (rfl | hf)
  · obtain ⟨w, hw, -⟩ := h
    exact lt_irrefl _ (List.getElem?_eq_some_iff.1 hw).1
  · exact h.not_exitedAt (hsound.freed i hf)

/-- What a step of anybody else than the caller of `thread_pool_destroy` does. -/
structure Others (s s' : LinkedPool) : Prop where
  call : s'.call = s.call
  length : s.pool.threads.length ≤ s'.pool.threads.length
  threads : ∀ (i : Nat) (w' : Worker), s'.pool.threads[i]? = some w' →
    Vacant s i ∨ ∃ w, s.pool.threads[i]? = some w ∧ Goes (locked s) w w'
  /-- Only starting, registering and unregistering write a `next` field. -/
  next : ∀ (i : Nat) (w : Worker), s.pool.threads[i]? = some w → i ∉ s.freed → i ∉ s.pool.pending →
    w.pc ≠ .closing → next s' i = next s i
  freed : ∀ i ∈ s'.freed, i ∈ s.freed ∨ ∃ w, s.pool.threads[i]? = some w ∧ w.pc = .exited ∧
    (w.terminate = true → i ∈ s'.left)
  left : s.left ⊆ s'.left
  pending : ∀ i ∈ s'.pool.pending, Vacant s i ∨ i ∈ s.pool.pending

/-- A step that moves threads and leaves the lists alone. -/
theorem others_threads {s s' : LinkedPool} (hgo : AllGo (locked s) s.pool.threads s'.pool.threads)
    (hcall : s'.call = s.call) (hpending : s'.pool.pending = s.pool.pending)
    (hlinks : s'.workerLinks = s.workerLinks) (hfreed : s'.freed = s.freed) (hleft : s'.left = s.left) :
    Others s s' where
  call := hcall
  length := hgo.length.ge
  threads _ _ hw := .inr (hgo.back hw)
  next i w _ _ _ _ := by rw [Destroy.next, hlinks]
  freed i hi := .inl (hfreed ▸ hi)
  left := by rw [hleft]; exact List.Subset.refl _
  pending i hi := .inr (hpending ▸ hi)

theorem others_of_move {s s' : LinkedPool} (hprev : ∀ i, (s.workerLinks i).prev = none)
    (h : OtherMove s s') : Others s s' := by
  cases h with
  | addJob job wake tp hmove =>
      cases hmove with
      | addJob _ _ threads _ hsig => exact others_threads (allGo_signal hsig) rfl rfl rfl rfl rfl
  | spawn =>
      refine ⟨rfl, by simp [spawnWorker], fun i w' hw' => ?_, fun i w hw _ _ _ => ?_,
        fun i hi => .inl hi, List.Subset.refl _, fun i hi => ?_⟩
      · rcases getElem?_snoc_cases hw' with hw | ⟨rfl, -⟩
        · exact .inr ⟨w', hw, .refl _ _⟩
        · exact .inl (.inl rfl)
      · have hne : i ≠ s.pool.threads.length := (List.getElem?_eq_some_iff.1 hw).1.ne
        simp only [next, Function.update_of_ne hne]
      · rcases List.mem_cons.1 hi with rfl | hi
        · exact .inl (.inl rfl)
        · exact .inr hi
  | reuse i hf =>
      refine ⟨rfl, List.length_set.ge, fun j w' hw' => ?_, fun j w _ hj _ _ => ?_,
        fun j hj => .inl (List.mem_filter.1 hj).1, List.Subset.refl _, fun j hj => ?_⟩
      · rcases getElem?_set_cases hw' with ⟨rfl, -⟩ | ⟨-, hw⟩
        · exact .inl (.inr hf)
        · exact .inr ⟨w', hw, .refl _ _⟩
      · have hne : j ≠ i := fun he => hj (he ▸ hf)
        simp only [next, Function.update_of_ne hne]
      · rcases List.mem_cons.1 hj with rfl | hj
        · exact .inl (.inr hf)
        · exact .inr hj
  | register i _ hi _ =>
      refine ⟨rfl, le_rfl, fun j w' hw' => .inr ⟨w', hw', .refl _ _⟩, fun j w _ _ hj _ => ?_,
        fun j hj => .inl hj, List.Subset.refl _, fun j hj => .inr (List.mem_of_mem_erase hj)⟩
      have hne : j ≠ i := fun he => hj (he ▸ hi)
      simp only [next, listAdd_next, if_neg hne]
  | removeWorkers tp removing hset =>
      obtain ⟨threads, k, rfl, hgo⟩ := hset
      exact others_threads (hgo _) rfl rfl rfl rfl rfl
  | removeBroadcast => exact others_threads (allGo_broadcast _ _) rfl rfl rfl rfl rfl
  | cycle i w tp hw hfree hc hmove =>
      refine others_threads (allGo_cycleMove hw hfree hmove) rfl ?_ rfl rfl rfl
      cases hmove with
      | take _ =>
          obtain ⟨pc, links, jobs, n, -, heq⟩ := takeJob_frame s.pool i w
          rw [heq]
      | _ => rfl
  | close i w hw hc =>
      have hgo : AllGo (locked s) s.pool.threads (s.pool.threads.set i { w with pc := .exited }) :=
        allGo_set hw ⟨id, fun _ => .inl (.inl hc), fun _ => rfl, fun _ hm => absurd hc hm.pc_ne.1⟩
      refine ⟨rfl, hgo.length.ge, fun j w' hw' => .inr (hgo.back hw'), fun j x hx _ _ hxc => ?_,
        fun j hj => .inl hj, List.Subset.refl _, fun j hj => .inr hj⟩
      have hne : j ≠ i := by
        rintro rfl
        rw [hw] at hx
        cases hx
        exact hxc hc
      simp only [next, listRemove_next hprev, if_neg hne]
  | free i w hw hpc =>
      refine ⟨rfl, le_rfl, fun j w' hw' => .inr ⟨w', hw', .refl _ _⟩, fun _ _ _ _ _ _ => rfl,
        fun j hj => ?_, fun j hj => ?_, fun j hj => .inr hj⟩
      · rcases List.mem_cons.1 hj with rfl | hj
        · exact .inr ⟨w, hw, hpc, fun hf => by simp [hf]⟩
        · exact .inl hj
      · cases w.terminate with
        | true => exact List.mem_cons_of_mem i hj
        | false => exact hj
  | spurious i w hw hb => exact others_threads (allGo_set hw (goes_woken _ w hb)) rfl rfl rfl rfl rfl

/-- No thread is forgotten: memory that is used again keeps its place. -/
theorem length_le_of_reaches {s t : LinkedPool} (hsound : Sound s) (ht : Reaches step s t) :
    s.pool.threads.length ≤ t.pool.threads.length := by
  refine (ht.invariant (P := fun t => Sound t ∧ s.pool.threads.length ≤ t.pool.threads.length) ?_
    ⟨hsound, le_rfl⟩).2
  rintro t a u ⟨htsound, hle⟩ hstep
  refine ⟨sound_step t a u htsound hstep, hle.trans ?_⟩
  rcases move_of_step hstep with ⟨junk, -, hmove⟩ | hmove
  · cases hmove with
    | flag i w _ _ _ => exact List.length_set.ge
    | close _ => exact (CondVar.length_broadcast _).ge
    | _ => exact le_rfl
  · exact (others_of_move htsound.prev hmove).length

/-! ## The walk among parked workers -/

/-- A flag that a worker has got is not taken back. -/
theorem flagged_others {s s' : LinkedPool} (ho : Others s s') {i : Nat}
    (hleft : i ∈ s.freed → i ∈ s.left) (h : Flagged s i) : Flagged s' i := by
  rcases h with hflag | hleft'
  · obtain ⟨w, hw, hwf⟩ : ∃ w, s.pool.threads[i]? = some w ∧ w.terminate = true := by
      cases hw : s.pool.threads[i]? with
      | none => simp [terminateOf, hw] at hflag
      | some w => exact ⟨w, rfl, terminateOf_eq hw ▸ hflag⟩
    obtain ⟨hlt, -⟩ := List.getElem?_eq_some_iff.1 hw
    have hw' := List.getElem?_eq_getElem (hlt.trans_le ho.length)
    rcases ho.threads i _ hw' with (rfl | hf) | ⟨x, hx, hgo⟩
    · exact absurd hlt (lt_irrefl _)
    · -- another worker has got its memory
      exact .inr (ho.left (hleft hf))
    · rw [hw] at hx
      cases hx
      exact .inl (by rw [terminateOf_eq hw', hgo.flag hwf])
  · exact .inr (ho.left hleft')

/-- Who is freed has its flag. -/
theorem freed_others {s s' : LinkedPool} (hsound : Sound s) (ho : Others s s') {i : Nat}
    (hleft : i ∈ s.freed → i ∈ s.left) (hf : i ∈ s'.freed) : i ∈ s'.left := by
  rcases ho.freed i hf with hf | ⟨w, hw, hpc, hgot⟩
  · exact ho.left (hleft hf)
  · exact hgot (hsound.leaver i w hw (.inr hpc))

/-- The walk is among the workers of `R`, and none of them can move. The workers `l` have got their flag,
or the walk comes to them before it comes to an end. -/
structure Held (R : Nat → Prop) (l : List Nat) (s : LinkedPool) : Prop where
  parked : ∀ i, R i → i ∉ s.pool.pending ∧ AtMutexAt s.pool.threads i
  closed : ∀ i j, R i → next s i = some j → R j
  cursor : ∃ worker, (∀ i, worker = some i → R i) ∧
    (s.call = .loopTest worker ∨ ∃ i, R i ∧ s.call = .loopNext i ∧ next s i = worker) ∧
      ∀ i ∈ l, Flagged s i ∨ ∀ rest, IsChain (next s) worker rest → i ∈ rest

/-- The walk is under way or has flagged the workers `l`. -/
def Walking (R : Nat → Prop) (l : List Nat) (s : LinkedPool) : Prop :=
  Held R l s ∨ s.call = .returned ∧ ∀ i ∈ l, Flagged s i

theorem Held.locked {R : Nat → Prop} {l : List Nat} {s : LinkedPool} (h : Held R l s) :
    locked s = true := by
  obtain ⟨_, -, hc | ⟨_, -, hc, -⟩, -⟩ := h.cursor
  · simp [Destroy.locked, hc]
  · simp [Destroy.locked, hc]

/-- While `jobs_mtx` is held the others leave the workers of the walk where they are. -/
theorem held_others {R : Nat → Prop} {l : List Nat} {s s' : LinkedPool} (hsound : Sound s)
    (hleft : ∀ i ∈ l, i ∈ s.freed → i ∈ s.left) (h : Held R l s) (ho : Others s s') : Held R l s' := by
  have hnext : ∀ i, R i → next s' i = next s i := by
    intro i hi
    obtain ⟨hpend, hat⟩ := h.parked i hi
    have hlive : i ∉ s.freed := fun hf => hat.not_exitedAt (hsound.freed i hf)
    obtain ⟨w, hw, hm⟩ := hat
    exact ho.next i w hw hlive hpend hm.pc_ne.1
  refine ⟨fun i hi => ⟨fun hpend => ?_, ?_⟩, fun i j hi hj => h.closed i j hi (hnext i hi ▸ hj), ?_⟩
  · -- no new worker gets the memory of one that stands at the mutex
    obtain ⟨hout, hat⟩ := h.parked i hi
    rcases ho.pending i hpend with hv | hpend
    · exact hat.not_vacant hsound hv
    · exact hout hpend
  · obtain ⟨-, hat⟩ := h.parked i hi
    obtain ⟨w, hw, hm⟩ := hat
    have hlt := (List.getElem?_eq_some_iff.1 hw).1.trans_le ho.length
    refine ⟨_, List.getElem?_eq_getElem hlt, ?_⟩
    rcases ho.threads i _ (List.getElem?_eq_getElem hlt) with hv | ⟨x, hx, hgo⟩
    · exact absurd hv (AtMutexAt.not_vacant ⟨w, hw, hm⟩ hsound)
    · rw [hw] at hx
      cases hx
      exact hgo.stays h.locked hm
  · obtain ⟨worker, hworker, hcall, hall⟩ := h.cursor
    refine ⟨worker, hworker, ?_, fun i hi => ?_⟩
    · rw [ho.call]
      rcases hcall with hc | ⟨i, hi, hc, hn⟩
      · exact .inl hc
      · exact .inr ⟨i, hi, hc, (hnext i hi).trans hn⟩
    · rcases hall i hi with hflag | hahead
      · exact .inl (flagged_others ho (hleft i hi) hflag)
      · exact .inr fun rest hrest => hahead rest (hrest.of_closed h.closed hnext hworker)

/-- A step of the walk itself. -/
theorem walking_callMove {R : Nat → Prop} {l : List Nat} {s s' : LinkedPool} {junk : Option Nat}
    (hsound : Sound s) (h : Held R l s) (hmove : CallMove s junk s') : Walking R l s' := by
  obtain ⟨worker, hworker, hcall, hall⟩ := h.cursor
  cases hmove with
  | lock hc => rcases hcall with hc' | ⟨_, -, hc', -⟩ <;> simp [hc] at hc'
  | flag i w hc hw hfreed =>
      rcases hcall with hc' | ⟨_, -, hc', -⟩
      · rw [hc] at hc'
        cases hc'
        have hi : R i := hworker i rfl
        have hgo : AllGo true s.pool.threads (s.pool.threads.set i { w with terminate := true }) :=
          allGo_set hw (goes_flag true w)
        refine .inl ⟨fun j hj => ?_, h.closed, next s i, fun j hj => h.closed i j hi hj,
          .inr ⟨i, hi, rfl, rfl⟩, fun j hj => ?_⟩
        · obtain ⟨hpend, x, hx, hm⟩ := h.parked j hj
          obtain ⟨x', hx', hg⟩ := hgo.kept j x hx
          exact ⟨hpend, x', hx', hg.stays rfl hm⟩
        · -- the flag of `i` is set now, and the others are still ahead
          rcases eq_or_ne j i with rfl | hne
          · exact .inl (.inl (by simp [terminateOf_set hw]))
          · rcases hall j hj with (hflag | hleft) | hahead
            · exact .inl (.inl (by simpa [terminateOf_set hw, hne] using hflag))
            · exact .inl (.inr hleft)
            · exact .inr fun rest hrest =>
                (List.mem_cons.1 (hahead (i :: rest) (.cons hrest))).resolve_left hne
      · simp [hc] at hc'
  | flagFreed i hc hfreed =>
      rcases hcall with hc' | ⟨_, -, hc', -⟩
      · rw [hc] at hc'
        cases hc'
        exact absurd (hsound.freed i hfreed) (h.parked i (hworker i rfl)).2.not_exitedAt
      · simp [hc] at hc'
  | next i hc =>
      rcases hcall with hc' | ⟨j, hj, hc', rfl⟩
      · simp [hc] at hc'
      · rw [hc] at hc'
        cases hc'
        have hlive : i ∉ s.freed := fun hf => (h.parked i hj).2.not_exitedAt (hsound.freed i hf)
        exact .inl ⟨h.parked, h.closed, next s i, hworker, .inl (by simp [hlive]), hall⟩
  | close hc =>
      rcases hcall with hc' | ⟨_, -, hc', -⟩
      · rw [hc] at hc'
        cases hc'
        refine .inr ⟨rfl, fun i hi => ?_⟩
        rcases hall i hi with (hflag | hleft) | hahead
        · exact .inl (by rw [terminateOf_broadcast]; exact hflag)
        · exact .inr hleft
        · -- nobody is ahead of the null pointer
          exact absurd (hahead [] .nil) List.not_mem_nil
      · simp [hc] at hc'

/-- The invariant of the walk, with the workers of `l` that are gone. -/
def WalkInv (R : Nat → Prop) (l : List Nat) (s : LinkedPool) : Prop :=
  Sound s ∧ (∀ i ∈ l, i ∈ s.freed → i ∈ s.left) ∧ Walking R l s

theorem walkInv_step {R : Nat → Prop} {l : List Nat} (s : LinkedPool) (a : Act) (s' : LinkedPool)
    (h : WalkInv R l s) (hstep : step s a = some s') : WalkInv R l s' := by
  obtain ⟨hsound, hleft, hwalk⟩ := h
  rcases move_of_step hstep with ⟨junk, -, hmove⟩ | hmove
  · have hkeep : s.call ≠ .idle → s'.freed = s.freed ∧ s'.left = s.left := by
      intro hne
      cases hmove with
      | lock hc => exact absurd hc hne
      | _ => exact ⟨rfl, rfl⟩
    have hbusy : s.call ≠ .idle := by
      rcases hwalk with h | ⟨hret, -⟩
      · intro hidle
        have hl := h.locked
        simp [locked, hidle] at hl
      · simp [hret]
    obtain ⟨hf, hl⟩ := hkeep hbusy
    refine ⟨sound_callMove hsound hmove, fun i hi => by rw [hf, hl]; exact hleft i hi, ?_⟩
    rcases hwalk with h | ⟨hret, -⟩
    · exact walking_callMove hsound h hmove
    · cases hmove <;> simp_all
  · have ho := others_of_move hsound.prev hmove
    refine ⟨sound_otherMove hsound hmove, fun i hi => freed_others hsound ho (hleft i hi), ?_⟩
    rcases hwalk with h | ⟨hret, hflags⟩
    · exact .inl (held_others hsound hleft h ho)
    · exact .inr ⟨ho.call.trans hret, fun i hi => flagged_others ho (hleft i hi) (hflags i hi)⟩

/-- During the walk only live workers are read, and at its end all workers have got their flag. -/
theorem WalkInv.live {R : Nat → Prop} {l : List Nat} {s : LinkedPool} (h : WalkInv R l s) :
    (∀ a u, step s a = some u → NextOfLive s a) ∧ FlaggedAtReturn l s := by
  obtain ⟨hsound, -, h⟩ := h
  constructor
  · intro a u _
    cases a with
    | destroy junk =>
        intro i hi
        rcases h with h | ⟨hret, -⟩
        · obtain ⟨_, -, hc | ⟨j, hj, hc, -⟩, -⟩ := h.cursor
          · simp [hi] at hc
          · rw [hi] at hc
            cases hc
            exact fun hf => (h.parked i hj).2.not_exitedAt (hsound.freed i hf)
        · simp [hi] at hret
    | _ => trivial
  · intro hret
    rcases h with h | ⟨-, hflags⟩
    · obtain ⟨_, -, hc | ⟨_, -, hc, -⟩, -⟩ := h.cursor <;> simp [hret] at hc
    · exact hflags

/-- What the pointers lead to, they lead on from. -/
theorem LeadTo.next {s : LinkedPool} {i j : Nat} (h : LeadTo s i) (hj : next s i = some j) : LeadTo s j := by
  obtain ⟨front, hseg⟩ := h
  refine ⟨front ++ [i], isSegment_append_cons_iff.2 ⟨hseg, ?_⟩⟩
  rw [hj]
  exact .nil

theorem walksLive_of_parked {s : LinkedPool} (hsound : Sound s) (h : Parked s) : WalksLive s := by
  intro t ht
  have hstart : Held (LeadTo s) s.pool.workers (lockJobs s) := by
    refine ⟨h.atMutex, fun i j hi hj => hi.next hj, s.workers, fun i hi => ⟨[], hi ▸ .nil⟩, .inl rfl,
      fun i hi => ?_⟩
    by_cases hflag : terminateOf s.pool.threads i = true
    · exact .inl (.inl hflag)
    · exact .inr fun rest hrest => (h.covers rest hrest i hi).resolve_right hflag
  have hinv : WalkInv (LeadTo s) s.pool.workers (lockJobs s) := by
    refine ⟨sound_threads hsound (.refl _ _) rfl rfl rfl rfl rfl, fun i hi hf => ?_, .inl hstart⟩
    exact absurd hf (hsound.listed i hi)
  exact (ht.invariant walkInv_step hinv).live

/-! ## Workers that can leave -/

/-- How many steps a flagged worker is away from having unregistered. -/
def stepsLeft : Pc → Nat
  | .exited => 0
  | .closing => 1
  | .test => 2
  | .ended => 3
  | .inFunc _ => 4
  | .counted _ => 5
  | .marked _ => 6
  | .took _ => 7
  | .enter => 8
  | .blocked => 8
  | .woken => 8

/-- The walk stands on the worker `i`, which is flagged and does not stand at `jobs_mtx`. -/
structure Leaving (s : LinkedPool) (i : Nat) (w : Worker) : Prop where
  call : s.call = .loopNext i
  removing : s.pool.removing = none
  thread : s.pool.threads[i]? = some w
  flag : w.terminate = true
  away : ¬ AtMutex w

/-- One step of a flagged worker that does not stand at `jobs_mtx`, while nobody holds `workers_mtx`. -/
theorem cycleStep_of_away {tp : Pool} {i : Nat} {w : Worker} (hr : tp.removing = none)
    (hflag : w.terminate = true) (haway : ¬ AtMutex w) (hpc : w.pc ≠ .exited) :
    ∃ tp' v, cycleStep tp i w = some tp' ∧ tp'.threads = tp.threads.set i v ∧
      tp'.removing = none ∧ v.terminate = true ∧ ¬ AtMutex v ∧
      stepsLeft v.pc + 1 = stepsLeft w.pc := by
  cases hw : w.pc with
  | test =>
      refine ⟨_, { w with pc := .closing }, by rw [cycleStep, hw], ?_⟩
      simp [hflag, hr, AtMutex, stepsLeft]
  | enter => exact absurd (.inl hw) haway
  | blocked => exact absurd (.inr (.inl hw)) haway
  | woken => exact absurd (.inr (.inr hw)) haway
  | took t =>
      refine ⟨_, { w with pc := .marked t, running := true }, by rw [cycleStep, hw], ?_⟩
      simp [hflag, hr, AtMutex, stepsLeft]
  | marked t =>
      refine ⟨_, { w with pc := .counted t }, by rw [cycleStep, hw, hr]; rfl, ?_⟩
      simp [hflag, AtMutex, stepsLeft]
  | counted t =>
      refine ⟨_, { w with pc := .inFunc t }, by rw [cycleStep, hw], ?_⟩
      simp [hflag, hr, AtMutex, stepsLeft]
  | inFunc t =>
      refine ⟨_, { w with pc := .ended, running := false }, by rw [cycleStep, hw], ?_⟩
      simp [hflag, hr, AtMutex, stepsLeft]
  | ended =>
      refine ⟨_, { w with pc := .test }, by rw [cycleStep, hw, hr]; rfl, ?_⟩
      simp [hflag, AtMutex, stepsLeft]
  | closing =>
      refine ⟨_, { w with pc := .exited }, by rw [cycleStep, hw, hr]; rfl, ?_⟩
      simp [hflag, AtMutex, stepsLeft]
  | exited => exact absurd hw hpc

/-- A worker that leaves can go on, even though `jobs_mtx` is held. -/
theorem leaving_step {s : LinkedPool} {i : Nat} {w : Worker} (h : Leaving s i w)
    (hpc : w.pc ≠ .exited) : ∃ s' v, step s (.cycle i) = some s' ∧ Leaving s' i v ∧
      stepsLeft v.pc + 1 = stepsLeft w.pc := by
  obtain ⟨hlt, -⟩ := List.getElem?_eq_some_iff.1 h.thread
  have hlock : atLock w = false := by
    have haway := h.away
    simp only [AtMutex, not_or] at haway
    simp [atLock, haway.1, haway.2.2]
  obtain ⟨tp, v, hstep, hthreads, hr, hv, haway, hleft⟩ :=
    cycleStep_of_away (i := i) h.removing h.flag h.away hpc
  refine ⟨{ s with pool := tp, workerLinks := (unlink s i w).1, workers := (unlink s i w).2 }, v,
    by simp [step, cycle, h.thread, hlock, hstep], ⟨h.call, hr, ?_, hv, haway⟩, hleft⟩
  rw [hthreads, List.getElem?_set_self hlt]

/-- In the end it frees itself, with the walk still on it. -/
theorem leaving_frees {i : Nat} (n : Nat) : ∀ (s : LinkedPool) (w : Worker), Leaving s i w →
    stepsLeft w.pc = n → ∃ t, Reaches step s t ∧ t.call = .loopNext i ∧ i ∈ t.freed := by
  -- induction on the steps that are left
  induction n with
  | zero =>
      intro s w h hn
      have hpc : w.pc = .exited := by
        cases hw : w.pc with
        | exited => rfl
        | _ => simp [hw, stepsLeft] at hn
      by_cases hf : i ∈ s.freed
      · exact ⟨s, .refl s, h.call, hf⟩
      · have hstep : step s (.free i) = some { s with
            pool := { s.pool with workers := s.pool.workers.filter (· ≠ i) }
            freed := i :: s.freed
            left := if w.terminate then i :: s.left else s.left } := by
          simp [step, freeWorker, h.thread, hpc, hf]
        exact ⟨_, .single hstep, h.call, List.mem_cons_self⟩
  | succ n ih =>
      intro s w h hn
      have hpc : w.pc ≠ .exited := by
        intro he
        simp [he, stepsLeft] at hn
      obtain ⟨s', v, hstep, hv, hleft⟩ := leaving_step h hpc
      obtain ⟨t, ht, hcall, hfreed⟩ := ih s' v hv (by omega)
      exact ⟨t, Reaches.trans (.single hstep) ht, hcall, hfreed⟩

/-- From `s` on the walk reads live workers only. -/
def ReadsLive (s : LinkedPool) : Prop :=
  ∀ t, Reaches step s t → ∀ a u, step t a = some u → NextOfLive t a

theorem ReadsLive.of_reaches {s t : LinkedPool} (h : ReadsLive s) (ht : Reaches step s t) : ReadsLive t :=
  fun u hu => h u (ht.trans hu)

theorem ReadsLive.of_step {s s' : LinkedPool} {a : Act} (h : ReadsLive s)
    (hstep : step s a = some s') : ReadsLive s' :=
  h.of_reaches (.single hstep)

/-- The walk that stands on `i` reads a live worker next. -/
theorem ReadsLive.not_freed {s : LinkedPool} (h : ReadsLive s) {i : Nat}
    (hcall : s.call = .loopNext i) : i ∉ s.freed :=
  h s (.refl s) (.destroy none) { s with call := .loopTest (if i ∈ s.freed then none else next s i) }
    (by simp [step, threadPoolDestroy, hcall]) i hcall

/-- One round of the loop, at a worker that is not freed. -/
theorem ReadsLive.round {s : LinkedPool} (h : ReadsLive s) {i : Nat} {w : Worker}
    (hcall : s.call = .loopTest (some i)) (hw : s.pool.threads[i]? = some w) :
    i ∉ s.freed ∧ step s (.destroy none) = some { s with
      pool := { s.pool with threads := s.pool.threads.set i { w with terminate := true } }
      call := .loopNext i } := by
  have hlive : i ∉ s.freed := by
    intro hf
    have hstep : step s (.destroy none) = some { s with call := .loopNext i } := by
      simp [step, threadPoolDestroy, hcall, setTerminate, hw, hf]
    exact (h.of_step hstep).not_freed rfl hf
  exact ⟨hlive, by simp [step, threadPoolDestroy, hcall, setTerminate, hw, hlive]⟩

/-- Nobody can leave the list through which the walk goes. -/
theorem ReadsLive.atMutex {s : LinkedPool} (h : ReadsLive s) {i : Nat} {w : Worker}
    (hcall : s.call = .loopTest (some i)) (hw : s.pool.threads[i]? = some w) : AtMutex w := by
  by_contra haway
  obtain ⟨hlt, -⟩ := List.getElem?_eq_some_iff.1 hw
  obtain ⟨-, hstep⟩ := h.round hcall hw
  have hlive := h.of_step hstep
  -- a `thread_pool_remove_workers` call that is under way ends first
  obtain ⟨t, ht, hleaving⟩ : ∃ t, Reaches step { s with
      pool := { s.pool with threads := s.pool.threads.set i { w with terminate := true } }
      call := .loopNext i } t ∧ Leaving t i { w with terminate := true } := by
    cases hr : s.pool.removing with
    | none => exact ⟨_, .refl _, rfl, hr, List.getElem?_set_self hlt, rfl, haway⟩
    | some flagged =>
        have hb : w.pc ≠ .blocked := fun hb => haway (.inr (.inl hb))
        refine ⟨_, .single (a := .removeBroadcast) (by simp [step, removeBroadcast, hr]; rfl),
          rfl, rfl, ?_, rfl, haway⟩
        simp [CondVar.broadcast, hlt, hb]
  obtain ⟨u, hu, hcall', hfreed⟩ := leaving_frees _ t _ hleaving rfl
  exact (hlive.of_reaches (ht.trans hu)).not_freed hcall' hfreed

/-! ## The walk to a worker -/

/-- The thread `i` of two lists of threads with the same program counters. -/
theorem atMutexAt_of_map_pc {threads threads' : List Worker}
    (h : threads'.map Worker.pc = threads.map Worker.pc) {i : Nat} (hi : AtMutexAt threads' i) :
    AtMutexAt threads i := by
  obtain ⟨w', hw', hm⟩ := hi
  have hpc := congrArg (fun l => l[i]?) h
  simp only [List.getElem?_map, hw', Option.map_some] at hpc
  obtain ⟨w, hw, heq⟩ := Option.map_eq_some_iff.1 hpc.symm
  refine ⟨w, hw, ?_⟩
  simp only [AtMutex, heq]
  exact hm

/-- The state in which the walk has come to `worker`, with the threads `threads`. -/
def walked (s : LinkedPool) (worker : Option Nat) (threads : List Worker) : LinkedPool :=
  { s with pool := { s.pool with threads := threads }, call := .loopTest worker }

/-- One round of the loop, at a worker that is not freed: its flag is set, and its `next` field is read. -/
theorem pass_of_live {s : LinkedPool} {i : Nat} {w : Worker} (hcall : s.call = .loopTest (some i))
    (hw : s.pool.threads[i]? = some w) (hlive : i ∉ s.freed) :
    Reaches step s (walked s (next s i) (s.pool.threads.set i { w with terminate := true })) := by
  have hflag : step s (.destroy none) = some { s with
      pool := { s.pool with threads := s.pool.threads.set i { w with terminate := true } }
      call := .loopNext i } := by
    simp [step, threadPoolDestroy, hcall, setTerminate, hw, hlive]
  refine Reaches.trans (.single hflag) (.single (a := .destroy none) ?_)
  simp [step, threadPoolDestroy, walked, hlive]

/-- A walk that reads live workers only comes to every worker that the pointers lead to. -/
theorem ReadsLive.walk {i : Nat} (front : List Nat) : ∀ (s : LinkedPool) (worker : Option Nat), Sound s →
    ReadsLive s → s.call = .loopTest worker → (∀ j, worker = some j → j < s.pool.threads.length) →
      IsSegment (next s) worker front (some i) →
      ∃ threads, threads.map Worker.pc = s.pool.threads.map Worker.pc ∧
        Reaches step s (walked s (some i) threads) := by
  -- induction on the workers in front of `i`: a round flags one of them and changes no `next` field
  induction front with
  | nil =>
      intro s worker _ _ hcall _ hseg
      rw [isSegment_nil_iff] at hseg
      refine ⟨s.pool.threads, rfl, ?_⟩
      rw [walked, ← hseg, ← hcall]
      exact .refl s
  | cons j front ih =>
      intro s worker hsound h hcall hlt hseg
      obtain ⟨rfl, hrest⟩ := isSegment_cons_iff.1 hseg
      have hw := List.getElem?_eq_getElem (hlt j rfl)
      have hpass := pass_of_live hcall hw (h.round hcall hw).1
      obtain ⟨threads, hpc, hreach⟩ := ih _ (next s j) (sound_reaches hsound hpass) (h.of_reaches hpass) rfl
        (fun k hk => by simpa [walked] using hsound.next j k hk) hrest
      refine ⟨threads, hpc.trans ?_, hpass.trans hreach⟩
      exact map_set_of_eq Worker.pc hw rfl

/-- So the workers that the pointers lead to stand at `jobs_mtx`. -/
theorem ReadsLive.atMutexAt {s : LinkedPool} (hsound : Sound s) (h : ReadsLive s) {worker : Option Nat}
    (hcall : s.call = .loopTest worker) (hlt : ∀ j, worker = some j → j < s.pool.threads.length)
    {front : List Nat} {i : Nat} (hseg : IsSegment (next s) worker front (some i)) :
    AtMutexAt s.pool.threads i := by
  obtain ⟨threads, hpc, hreach⟩ := h.walk front s worker hsound hcall hlt hseg
  have hi : i < threads.length := by
    rw [← List.length_map Worker.pc, hpc, List.length_map]
    exact (hseg.closed (fun a b _ hb => hsound.next a b hb) hlt).2 i rfl
  have hw := List.getElem?_eq_getElem hi
  exact atMutexAt_of_map_pc hpc ⟨_, hw, (h.of_reaches hreach).atMutex rfl hw⟩

/-! ## Both directions -/

/-- The section of `thread_pool_add_worker` under `workers_mtx`. -/
theorem step_register {s : LinkedPool} {i : Nat} (hr : s.pool.removing = none)
    (hi : i ∈ s.pool.pending) (hf : i ∉ s.freed) : ∃ t, step s (.register i) = some t ∧
      t.call = s.call ∧ t.freed = s.freed ∧ t.pool.removing = none ∧
      t.pool.threads = s.pool.threads ∧ t.pool.pending = s.pool.pending.erase i ∧ t.workers = some i ∧
      ∀ j, next t j = if j = i then s.workers else next s j := by
  have hstep : step s (.register i) = some { s with
      pool := { s.pool with
        pending := s.pool.pending.erase i
        workers := i :: s.pool.workers
        totalWorkersNum := s.pool.totalWorkersNum + 1 }
      workers := some i
      workerLinks := (listAdd s.workerLinks s.workers i).1 } := by
    simp [step, register, hf, registerWorker, hr, hi, listAdd]
  exact ⟨_, hstep, rfl, rfl, hr, rfl, rfl, rfl, listAdd_next s.workerLinks s.workers i⟩

/-- A `thread_pool_remove_workers` call that is under way can end. -/
theorem exists_not_removing (s : LinkedPool) : ∃ t, Reaches step s t ∧ t.call = s.call ∧
    t.freed = s.freed ∧ t.pool.removing = none ∧ t.pool.pending = s.pool.pending ∧
    t.workers = s.workers ∧ t.workerLinks = s.workerLinks := by
  cases hr : s.pool.removing with
  | none => exact ⟨s, .refl s, rfl, rfl, hr, rfl, rfl, rfl⟩
  | some flagged =>
      have hstep : step s .removeBroadcast = some { s with
          pool := { s.pool with threads := jobsCond.broadcast s.pool.threads, removing := none } } := by
        simp [step, removeBroadcast, hr]
      exact ⟨_, .single hstep, rfl, rfl, rfl, rfl, rfl, rfl⟩

/-- A walk that reads live workers only does not come to a worker that is still to be registered. A worker
could be put on the list before it, and the walk would come from it to that one, at its first test. -/
theorem ReadsLive.registered {s : LinkedPool} (hsound : Sound s) (h : ReadsLive (lockJobs s)) {i : Nat}
    (hi : LeadTo s i) : i ∉ s.pool.pending := by
  intro hpend
  obtain ⟨l, hl⟩ := hi
  obtain ⟨front, hseg, hnot⟩ := hl.first
  have hlock : Sound (lockJobs s) := sound_threads hsound (.refl _ _) rfl rfl rfl rfl rfl
  have hlive : i ∉ s.freed := fun hf =>
    (h.atMutexAt hlock rfl hsound.head hseg).not_exitedAt (hsound.freed i hf)
  obtain ⟨t, ht, htcall, htfreed, htr, htpend, htworkers, htlinks⟩ := exists_not_removing (lockJobs s)
  have htsound := sound_reaches hlock ht
  have htlen := length_le_of_reaches hlock ht
  -- a worker `k` starts and is registered
  have hspawn : step t (.spawn none) = some { t with
      pool := spawnWorker t.pool
      workerLinks := Function.update t.workerLinks t.pool.threads.length ⟨none, none⟩ } := rfl
  have hfresh : t.pool.threads.length ∉ t.freed := fun hf =>
    lt_irrefl _ (lt_of_exitedAt (htsound.freed _ hf))
  obtain ⟨u, hu, hucall, hufreed, hur, huthreads, hupend, huworkers, hunext⟩ :=
    step_register (s := { t with
      pool := spawnWorker t.pool
      workerLinks := Function.update t.workerLinks t.pool.threads.length ⟨none, none⟩ })
      (i := t.pool.threads.length) htr List.mem_cons_self hfresh
  -- then the worker `i` is registered
  have hupend' : i ∈ u.pool.pending := by
    rw [hupend, spawnWorker, List.erase_cons_head, htpend]
    exact hpend
  have hulive : i ∉ u.freed := by
    rw [hufreed, htfreed]
    exact hlive
  obtain ⟨v, hv, hvcall, -, -, hvthreads, -, -, hvnext⟩ := step_register hur hupend' hulive
  have hreach : Reaches step (lockJobs s) v :=
    ht.trans (.trans (.single hspawn) (.trans (.single hu) (.single hv)))
  have hlen : t.pool.threads.length < v.pool.threads.length := by
    simp [hvthreads, huthreads, spawnWorker]
  -- on the way to `i` nothing has changed
  have hway : IsSegment (next v) s.workers front (some i) := by
    refine hseg.congr fun j hj => ?_
    have hji : j ≠ i := fun he => hnot (he ▸ hj)
    have hjk : j ≠ t.pool.threads.length := by
      rintro rfl
      have hlt := (hseg.closed (fun a b _ hb => hsound.next a b hb) hsound.head).1 _ hj
      exact absurd hlt (not_lt_of_ge htlen)
    rw [hvnext, if_neg hji, hunext, if_neg hjk]
    simp only [next, Function.update_of_ne hjk, htlinks]
    rfl
  have hahead : IsSegment (next v) s.workers (front ++ [i]) (some t.pool.threads.length) := by
    refine isSegment_append_cons_iff.2 ⟨hway, ?_⟩
    rw [hvnext, if_pos rfl, huworkers]
    exact .nil
  have hvlen := length_le_of_reaches hlock hreach
  have hvcall' : v.call = .loopTest s.workers := hvcall.trans (hucall.trans htcall)
  obtain ⟨w, hw, hm⟩ := (h.of_reaches hreach).atMutexAt (sound_reaches hlock hreach) hvcall'
    (fun j hj => (hsound.head j hj).trans_le hvlen) hahead
  rw [hvthreads, huthreads, spawnWorker, List.getElem?_append_right le_rfl] at hw
  simp only [Nat.sub_self, List.getElem?_cons_zero, Option.some.injEq] at hw
  subst hw
  simp [AtMutex] at hm

/-- Where the pointers come to an end, the call can return with the flags of their workers set and no
others. -/
theorem exists_returned (l : List Nat) : ∀ (s : LinkedPool) (worker : Option Nat),
    s.call = .loopTest worker → IsChain (next s) worker l →
      (∀ i ∈ l, i < s.pool.threads.length ∧ i ∉ s.freed) →
      ∃ t, Reaches step s t ∧ t.call = .returned ∧ t.left = s.left ∧
        ∀ i, terminateOf t.pool.threads i = true → i ∈ l ∨ terminateOf s.pool.threads i = true := by
  induction l with
  | nil =>
      intro s worker hcall hchain _
      rw [isChain_nil_iff.1 hchain] at hcall
      have hstep : step s (.destroy none) = some { s with
          pool := { s.pool with threads := jobsCond.broadcast s.pool.threads }
          call := .returned } := by
        simp [step, threadPoolDestroy, hcall]
      refine ⟨_, .single hstep, rfl, rfl, fun i hi => .inr ?_⟩
      rw [terminateOf_broadcast] at hi
      exact hi
  | cons j l ih =>
      intro s worker hcall hchain hall
      obtain ⟨rfl, hrest⟩ : worker = some j ∧ IsChain (next s) (next s j) l := by
        cases hchain with
        | cons hrest => exact ⟨rfl, hrest⟩
      obtain ⟨hlt, hlive⟩ := hall j List.mem_cons_self
      have hw := List.getElem?_eq_getElem hlt
      have hpass := pass_of_live hcall hw hlive
      obtain ⟨t, ht, hret, hleft, hflags⟩ := ih
        (walked s (next s j) (s.pool.threads.set j { s.pool.threads[j] with terminate := true }))
        (next s j) rfl hrest fun i hi => by simpa [walked] using hall i (List.mem_cons_of_mem j hi)
      refine ⟨t, hpass.trans ht, hret, hleft, fun i hi => ?_⟩
      rcases hflags i hi with hmem | hflag
      · exact .inl (List.mem_cons_of_mem j hmem)
      · rcases eq_or_ne i j with rfl | hne
        · exact .inl List.mem_cons_self
        · exact .inr (by simpa [walked, terminateOf_set hw, hne] using hflag)

theorem parked_of_walksLive {s : LinkedPool} (hsound : Sound s) (hwalk : WalksLive s) : Parked s := by
  have hreads : ReadsLive (lockJobs s) := fun t ht => (hwalk t ht).1
  have hlock : Sound (lockJobs s) := sound_threads hsound (.refl _ _) rfl rfl rfl rfl rfl
  have hat : ∀ i, LeadTo s i → AtMutexAt s.pool.threads i := by
    rintro i ⟨front, hseg⟩
    exact hreads.atMutexAt hlock rfl hsound.head hseg
  refine ⟨fun i hi => ⟨hreads.registered hsound hi, hat i hi⟩, fun l hl i hi => ?_⟩
  -- the walk along `l` can go to its end with nobody else moving, so `i` is on it or had its flag before
  have hall : ∀ j ∈ l, j < s.pool.threads.length ∧ j ∉ s.freed := by
    intro j hj
    obtain ⟨pre, post, rfl⟩ := List.append_of_mem hj
    have hled : LeadTo s j := ⟨pre, (isSegment_append_cons_iff.1 (isSegment_none_iff.2 hl)).1⟩
    obtain ⟨w, hw, hm⟩ := hat j hled
    exact ⟨(List.getElem?_eq_some_iff.1 hw).1, fun hf =>
      AtMutexAt.not_exitedAt ⟨w, hw, hm⟩ (hsound.freed j hf)⟩
  obtain ⟨t, ht, hret, hleft, hflags⟩ := exists_returned l (lockJobs s) s.workers rfl hl hall
  rcases (hwalk t ht).2 hret i hi with hflag | hgone
  · exact hflags i hflag
  · rw [hleft] at hgone
    cases hgone

/-- A call of `thread_pool_destroy` is safe from the workers, and flags them all, exactly when it finds
them parked. -/
theorem walksLive_iff_parked {s : LinkedPool} (h : Reaches step start s) : WalksLive s ↔ Parked s :=
  ⟨parked_of_walksLive (sound_reaches sound_start h), walksLive_of_parked (sound_reaches sound_start h)⟩

/-- Three workers; the middle one leaves while the newest runs a job, and a new worker gets its memory and
goes to sleep before it is registered. -/
def reusedChunk : List Act :=
  [.spawn none, .register 0, .cycle 0, .cycle 0, .spawn none, .register 1, .spawn none, .register 2,
    .addJob 0 (some 0), .cycle 2, .cycle 2, .cycle 2, .removeWorkers 1, .removeBroadcast, .cycle 1, .cycle 1,
    .free 1, .cycle 2, .cycle 2, .cycle 2, .cycle 2, .cycle 2, .cycle 2, .spawn (some 1), .cycle 1, .cycle 1]

/-- All workers that the pointers lead to stand at `jobs_mtx` then, and the oldest is not among them. -/
example : (run step start reusedChunk).map (fun s =>
      (follow (next s) 3 s.workers, s.pool.workers, s.pool.pending, s.pool.threads.map Worker.pc)) =
    some ([2, 1], [2, 0], [1], [.woken, .blocked, .blocked]) := by
  decide

end CppMisc.ThreadPool.Destroy
