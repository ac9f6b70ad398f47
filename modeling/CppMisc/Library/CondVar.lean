import CppMisc.Library.Slots

/-!
# Condition variables

A population of threads waits on one condition variable. `CondVar` says which threads are blocked in
the wait, which were woken and have not yet got the mutex back, and what waking does to a thread. A
signal wakes one blocked thread if there is one, and a broadcast wakes them all.

`Covered` is the counting invariant of a work queue that signals once for each item: as long as
somebody is blocked, every waiting item has a woken thread. There is one rule for each kind of step.
-/

set_option autoImplicit false

namespace CppMisc.Library

universe u

/-- How the threads of a population wait on a condition variable. -/
structure CondVar (W : Type u) where
  blocked : W → Bool
  woken : W → Bool
  wake : W → W
  blocked_wake : ∀ w, blocked (wake w) = false
  woken_wake : ∀ w, woken (wake w) = true
  not_woken : ∀ w, blocked w = true → woken w = false

namespace CondVar

variable {W : Type u} (c : CondVar W)

/-- `pthread_cond_broadcast`. -/
def broadcast (threads : List W) : List W :=
  threads.map fun w => if c.blocked w then c.wake w else w

/-- `pthread_cond_signal`: wakes the blocked thread `i`; only with nobody blocked is there none. -/
def signal (threads : List W) : Option Nat → Option (List W)
  | none => if threads.any c.blocked then none else some threads
  | some i =>
      match threads[i]? with
      | none => none
      | some w => if c.blocked w then some (threads.set i (c.wake w)) else none

/-- The threads asleep in the wait. -/
def blockedNum (threads : List W) : Nat := threads.countP c.blocked

/-- The threads that were woken and have not yet acquired the mutex again. -/
def wokenNum (threads : List W) : Nat := threads.countP c.woken

variable {c}

theorem getElem?_broadcast {threads : List W} {i : Nat} {x : W}
    (h : (c.broadcast threads)[i]? = some x) :
    ∃ w, threads[i]? = some w ∧
      ((c.blocked w = true ∧ x = c.wake w) ∨ (c.blocked w = false ∧ x = w)) := by
  rw [broadcast, List.getElem?_map] at h
  obtain ⟨w, hw, hx⟩ := Option.map_eq_some_iff.1 h
  refine ⟨w, hw, ?_⟩
  cases hb : c.blocked w with
  | true =>
      rw [if_pos hb] at hx
      exact .inl ⟨rfl, hx.symm⟩
  | false =>
      rw [if_neg (by simp [hb])] at hx
      exact .inr ⟨rfl, hx.symm⟩

/-- A signal wakes one blocked thread, or nobody was blocked. -/
theorem signal_cases {threads threads' : List W} {i : Option Nat}
    (h : c.signal threads i = some threads') :
    (threads' = threads ∧ ∀ w ∈ threads, c.blocked w = false) ∨
      ∃ j w, threads[j]? = some w ∧ c.blocked w = true ∧ threads' = threads.set j (c.wake w) := by
  cases i with
  | none =>
      simp only [signal] at h
      split at h
      · cases h
      · next hnone =>
          cases h
          refine .inl ⟨rfl, fun w hw => ?_⟩
          simpa using fun hb => hnone (List.any_eq_true.2 ⟨w, hw, hb⟩)
  | some i =>
      simp only [signal] at h
      split at h
      · cases h
      · next w hw =>
          split at h
          · next hb =>
              cases h
              exact .inr ⟨i, w, hw, hb, rfl⟩
          · cases h

/-- A broadcast does to each thread nothing or what waking does. -/
theorem kept_broadcast {R : W → W → Prop} (hR : ∀ w, R w w)
    (hwake : ∀ w, c.blocked w = true → R w (c.wake w)) (threads : List W) :
    Kept R threads (c.broadcast threads) := by
  intro i w hw
  cases hb : c.blocked w with
  | true => exact ⟨c.wake w, by simp [broadcast, hw, hb], hwake w hb⟩
  | false => exact ⟨w, by simp [broadcast, hw, hb], hR w⟩

theorem kept_signal {R : W → W → Prop} (hR : ∀ w, R w w)
    (hwake : ∀ w, c.blocked w = true → R w (c.wake w)) {threads threads' : List W} {i : Option Nat}
    (h : c.signal threads i = some threads') : Kept R threads threads' := by
  rcases signal_cases h with ⟨rfl, -⟩ | ⟨j, w, hw, hb, rfl⟩
  · exact kept_refl hR threads'
  · exact kept_set hR hw (hwake w hb)

theorem length_broadcast (threads : List W) : (c.broadcast threads).length = threads.length :=
  List.length_map _

theorem length_signal {threads threads' : List W} {i : Option Nat}
    (h : c.signal threads i = some threads') : threads'.length = threads.length := by
  rcases signal_cases h with ⟨rfl, -⟩ | ⟨j, w, -, -, rfl⟩
  · rfl
  · exact List.length_set

theorem blockedNum_broadcast (threads : List W) : c.blockedNum (c.broadcast threads) = 0 := by
  refine List.countP_eq_zero.2 fun x hx => ?_
  obtain ⟨w, -, rfl⟩ := List.mem_map.1 hx
  cases hb : c.blocked w with
  | true => simp [c.blocked_wake]
  | false => simp [hb]

/-! ## Covered queues -/

variable (c)

/-- While a thread is blocked, each of the `n` waiting items has a woken thread. -/
def Covered (n : Int) (threads : List W) : Prop :=
  0 < c.blockedNum threads → n ≤ c.wokenNum threads

variable {c} {n : Int} {threads : List W}

theorem covered_of_nonpos (h : n ≤ 0) : c.Covered n threads := by
  intro _
  omega

theorem covered_of_blockedNum_eq_zero (h : c.blockedNum threads = 0) : c.Covered n threads := by
  intro hpos
  omega

theorem covered_broadcast : c.Covered n (c.broadcast threads) :=
  covered_of_blockedNum_eq_zero (blockedNum_broadcast threads)

/-- A thread that is woken covers one item more. -/
theorem covered_wake (h : c.Covered n threads) {i : Nat} {w : W} (hw : threads[i]? = some w)
    (hb : c.blocked w = true) : c.Covered (n + 1) (threads.set i (c.wake w)) := by
  have hblocked : c.blockedNum (threads.set i (c.wake w)) + 1 = c.blockedNum threads :=
    countP_set_lose _ hw hb (c.blocked_wake w)
  have hwoken : c.wokenNum (threads.set i (c.wake w)) = c.wokenNum threads + 1 :=
    countP_set_gain _ hw (c.not_woken w hb) (c.woken_wake w)
  intro hpos
  have hle := h (by omega)
  rw [hwoken]
  omega

theorem Covered.mono {m : Int} (h : c.Covered n threads) (hm : m ≤ n) : c.Covered m threads :=
  fun hpos => le_trans hm (h hpos)

/-- One item more, and one signal. -/
theorem covered_signal (h : c.Covered n threads) {threads' : List W} {i : Option Nat}
    (hsig : c.signal threads i = some threads') : c.Covered (n + 1) threads' := by
  rcases signal_cases hsig with ⟨rfl, hnone⟩ | ⟨j, w, hw, hb, rfl⟩
  · refine covered_of_blockedNum_eq_zero (List.countP_eq_zero.2 fun w hw => ?_)
    simp [hnone w hw]
  · exact covered_wake h hw hb

/-- A thread outside the wait moves to a place outside the wait. Where it was woken, it takes an item
with it. -/
theorem covered_move (h : c.Covered n threads) {i : Nat} {w w' : W} (hw : threads[i]? = some w)
    (hb : c.blocked w = false) (hb' : c.blocked w' = false) {m : Int} (hm : m ≤ n)
    (htake : c.woken w = true → c.woken w' = false → m ≤ n - 1) :
    c.Covered m (threads.set i w') := by
  have hblocked : c.blockedNum (threads.set i w') = c.blockedNum threads :=
    countP_set_of_eq _ hw (by rw [hb, hb'])
  -- the number of woken threads drops by one at most, and then so does the bound
  have hwoken := countP_set_add c.woken w' hw
  intro hpos
  have hle := h (by omega)
  simp only [wokenNum] at hle ⊢
  cases hk : c.woken w with
  | false =>
      rw [hk] at hwoken
      simp only [Bool.false_eq_true, if_false] at hwoken
      omega
  | true =>
      cases hk' : c.woken w' with
      | true =>
          rw [hk, hk'] at hwoken
          omega
      | false =>
          have hless := htake hk hk'
          rw [hk, hk'] at hwoken
          simp only [Bool.false_eq_true, if_false, if_true] at hwoken
          omega

end CondVar

end CppMisc.Library
