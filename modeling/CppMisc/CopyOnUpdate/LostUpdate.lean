import CppMisc.CopyOnUpdate.Isolation

/-!
# Which runs of the copy-on-update map lose an update

The comment in `update` promises a copy on other reading, but the map that is swapped in is a new
empty one: the entries of all other keys are gone for later readers. With each locked section taken
as one step, the map returned by `getData` agrees with the updates made so far in every state of a
run exactly when no update finds the map shared while it holds a key other than its own.
-/

set_option autoImplicit false

namespace CppMisc.CopyOnUpdate

open CppMisc.Library

/-- The map that `getData` returns. -/
def current (s : UserData) : Map := (s.heap s.data_).contents

/-- Every key that was ever updated has the entry of its most recent update, and there is no other
key. -/
def NoLostUpdate (s : UserData) : Prop := ∀ key, current s key = lastEntry s.updates key

/-- An update finds the map unshared, or holding no key but its own. -/
def KeepsOtherKeys (s : UserData) : Call → Prop
  | .update key _ => unique s = true ∨ ∀ k, current s k ≠ none → k = key
  | _ => True

/-- What a call of `update` does when it writes in place. -/
def updatedInPlace (s : UserData) (key : Key) (entry : Entry) : UserData :=
  { s with
    heap := assign s.heap s.data_ key entry
    updates := (key, entry) :: s.updates }

/-- What a call of `update` does when some reader holds the map. -/
def updatedInNewMap (s : UserData) (key : Key) (entry : Entry) : UserData :=
  { s with
    heap := assign (release (Function.update s.heap s.fresh ⟨emptyMap, 1⟩) s.data_) s.fresh key entry
    fresh := s.fresh + 1
    data_ := s.fresh
    swapTimes_ := s.swapTimes_ + 1
    updates := (key, entry) :: s.updates }

theorem update_of_unique {s : UserData} (hidle : s.writer = .idle) (hu : unique s = true)
    (key : Key) (entry : Entry) : update s key entry = some (updatedInPlace s key entry) := by
  have hu' : ∀ w, unique { s with writer := w } = true := fun _ => hu
  simp [update, step, finishUpdate, updateStep, hidle, hu', updatedInPlace]

theorem update_of_shared {s : UserData} (hidle : s.writer = .idle) (hlt : s.data_ < s.fresh)
    (hu : unique s = false) (key : Key) (entry : Entry) :
    update s key entry = some (updatedInNewMap s key entry) := by
  have hcount : (s.heap s.data_).useCount ≠ 1 := by simpa [unique] using hu
  have hne : s.fresh ≠ s.data_ := by omega
  simp [update, step, finishUpdate, updateStep, hidle, hcount, swapIn, unique, release, hne,
    updatedInNewMap]

@[simp] theorem current_getData (s : UserData) : current (getData s) = current s := by
  simp [current, getData]

theorem current_updatedInPlace (s : UserData) (key : Key) (entry : Entry) :
    current (updatedInPlace s key entry) = Function.update (current s) key (some entry) := by
  simp [current, updatedInPlace, assign]

theorem current_updatedInNewMap {s : UserData} (hlt : s.data_ < s.fresh) (key : Key)
    (entry : Entry) :
    current (updatedInNewMap s key entry) = Function.update emptyMap key (some entry) := by
  have hne : s.fresh ≠ s.data_ := by omega
  simp [current, updatedInNewMap, assign, release, hne]

theorem lastEntry_cons (key : Key) (entry : Entry) (updates : List (Key × Entry)) :
    lastEntry ((key, entry) :: updates) =
      Function.update (lastEntry updates) key (some entry) := by
  funext k
  by_cases hk : k = key
  · subst hk
    simp [lastEntry]
  · simp [lastEntry, hk, Ne.symm hk]

/-! ## The invariant of the runs with atomic sections -/

/-- Between calls the lock is free, the reference counts are exact and no update is lost. -/
structure Settled (s : UserData) : Prop extends Isolated s where
  idle : s.writer = .idle
  noLost : NoLostUpdate s

theorem settled_initial : Settled initial where
  toIsolated := isolated_initial
  idle := rfl
  noLost := by simp [NoLostUpdate, current, initial, lastEntry, emptyMap]

theorem isolated_finishUpdate (n : Nat) : ∀ {s t : UserData}, Isolated s →
    finishUpdate n s = some t → Isolated t ∧ t.writer = .idle := by
  induction n with
  | zero =>
      intro s t h ht
      simp only [finishUpdate] at ht
      split at ht
      · next hidle =>
          cases ht
          exact ⟨h, hidle⟩
      · cases ht
  | succ n ih =>
      intro s t h ht
      simp only [finishUpdate] at ht
      split at ht
      · next hidle =>
          cases ht
          exact ⟨h, hidle⟩
      · obtain ⟨u, hu, ht⟩ := Option.bind_eq_some_iff.1 ht
        exact ih (isolated_updateStep h hu) ht

theorem isolated_update {s t : UserData} (h : Isolated s) {key : Key} {entry : Entry}
    (ht : update s key entry = some t) : Isolated t ∧ t.writer = .idle := by
  obtain ⟨u, hu, ht⟩ := Option.bind_eq_some_iff.1 ht
  exact isolated_finishUpdate 5 (isolated_step s _ u h hu) ht

/-- What one call does to the map that `getData` returns and to the list of updates. -/
theorem lockedStep_cases {s t : UserData} (h : Settled s) {c : Call}
    (ht : lockedStep s c = some t) :
    (Isolated t ∧ t.writer = .idle) ∧
      ((current t = current s ∧ t.updates = s.updates ∧ ∀ key entry, c ≠ .update key entry) ∨
        ∃ key entry, c = .update key entry ∧ t.updates = (key, entry) :: s.updates ∧
          current t = Function.update (if unique s then current s else emptyMap) key
            (some entry)) := by
  cases c with
  | getData =>
      have hiso := isolated_step s .getData t h.toIsolated ht
      simp only [lockedStep, step, h.idle, if_true, Option.some.injEq] at ht
      subst ht
      exact ⟨⟨hiso, h.idle⟩, .inl ⟨current_getData s, rfl, by simp⟩⟩
  | release r =>
      have hiso := isolated_step s (.release r) t h.toIsolated ht
      simp only [lockedStep, step] at ht
      split at ht
      · cases ht
      · cases ht
        exact ⟨⟨hiso, h.idle⟩, .inl ⟨by simp [current], rfl, by simp⟩⟩
  | update key entry =>
      have hiso := isolated_update h.toIsolated ht
      refine ⟨hiso, .inr ⟨key, entry, rfl, ?_⟩⟩
      simp only [lockedStep] at ht
      cases hu : unique s with
      | true =>
          rw [update_of_unique h.idle hu, Option.some.injEq] at ht
          subst ht
          exact ⟨rfl, current_updatedInPlace s key entry⟩
      | false =>
          rw [update_of_shared h.idle h.data_lt hu, Option.some.injEq] at ht
          subst ht
          exact ⟨rfl, current_updatedInNewMap h.data_lt key entry⟩

/-- A map with no key but `key` and the empty map agree once `key` is assigned. -/
theorem update_emptyMap_eq {m : Map} {key : Key} (h : ∀ k, m k ≠ none → k = key)
    (entry : Option Entry) : Function.update emptyMap key entry = Function.update m key entry := by
  funext k
  by_cases hk : k = key
  · subst hk
    simp
  · have hnone : m k = none := by
      by_contra hne
      exact hk (h k hne)
    simp [hk, hnone, emptyMap]

theorem settled_lockedStep (s : UserData) (c : Call) (t : UserData) (h : Settled s)
    (hc : KeepsOtherKeys s c) (ht : lockedStep s c = some t) : Settled t := by
  obtain ⟨⟨hiso, hidle⟩, hcase⟩ := lockedStep_cases h ht
  refine ⟨hiso, hidle, ?_⟩
  obtain ⟨hcur, hupd, -⟩ | ⟨key, entry, rfl, hupd, hcur⟩ := hcase
  · intro k
    rw [hcur, hupd]
    exact h.noLost k
  · have hmap : current t = Function.update (current s) key (some entry) := by
      rw [hcur]
      -- either the map was written in place, or nothing but `key` was lost with the old one
      rcases hc with hu | hkeys
      · rw [hu, if_pos rfl]
      · cases unique s with
        | true => rfl
        | false => exact update_emptyMap_eq hkeys (some entry)
    have hlog : lastEntry s.updates = current s := (funext h.noLost).symm
    intro k
    rw [hmap, hupd, lastEntry_cons, hlog]

theorem not_noLostUpdate_of_not_keepsOtherKeys (s : UserData) (c : Call) (t : UserData)
    (h : Settled s) (hc : ¬ KeepsOtherKeys s c) (ht : lockedStep s c = some t) :
    ¬ NoLostUpdate t := by
  intro hno
  obtain ⟨-, ⟨-, -, hne⟩ | ⟨key, entry, rfl, hupd, hcur⟩⟩ := lockedStep_cases h ht
  · cases c with
    | getData => exact hc trivial
    | release r => exact hc trivial
    | update key entry => exact hne key entry rfl
  · simp only [KeepsOtherKeys, not_or, not_forall, exists_prop] at hc
    -- the map had the key `k`, and the new map does not
    obtain ⟨hu, k, hk, hne⟩ := hc
    have hlog : lastEntry s.updates k = current s k := (h.noLost k).symm
    have hk' := hno k
    rw [hcur, hupd, lastEntry_cons] at hk'
    simp only [hu, hne, Function.update_of_ne, ne_eq, not_false_eq_true, hlog] at hk'
    exact hk hk'.symm

/-- **Lost updates.** With each locked section one step, the map returned by `getData` has the most
recent entry of every key, and no other key, in every state of a run exactly when each update of
the run finds the map unshared or holding no key but the one it writes. -/
theorem no_lost_update_iff (calls : List Call) :
    EveryState lockedStep NoLostUpdate initial calls ↔
      EveryStep lockedStep KeepsOtherKeys initial calls :=
  everyState_iff_everyStep settled_lockedStep (fun _ h => h.noLost)
    not_noLostUpdate_of_not_keepsOtherKeys calls initial settled_initial

/-- An update of a second key while a reader holds the map. -/
def secondKeyWhileReading : List Call :=
  [.update "humidity" 40, .getData, .update "temparature" 20]

/-- After `secondKeyWhileReading` the map returned by `getData` has no entry for the first key. -/
theorem secondKeyWhileReading_loses :
    ∃ s, run lockedStep initial secondKeyWhileReading = some s ∧
      lastEntry s.updates "humidity" = some 40 ∧ current s "humidity" = none ∧
      ¬ NoLostUpdate s := by
  have hend : (run lockedStep initial secondKeyWhileReading).map
      (fun s => (lastEntry s.updates "humidity", current s "humidity")) =
        some (some 40, none) := rfl
  obtain ⟨s, hs, hpair⟩ := Option.map_eq_some_iff.1 hend
  obtain ⟨hlast, hcur⟩ := Prod.mk.inj hpair
  refine ⟨s, hs, hlast, hcur, fun hno => ?_⟩
  have hk := hno "humidity"
  rw [hcur, hlast] at hk
  cases hk

end CppMisc.CopyOnUpdate
