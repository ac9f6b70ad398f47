import Mathlib.Tactic

/-!
# Runs of a partial step function

A system is given by a step function `step : S → A → Option S`: the action `a` is possible in the
state `s` when `step s a` is some state. `run` folds the step over a list of actions and `Reaches`
is reachability. A property can be asked of every state of a run (`EveryState`) or of every step
that is taken (`EveryStep`).

A few rules carry the invariant arguments. `Reaches.invariant` proves a property of every reachable
state from one step, and `everyState_of_step` one of every state of a run. `everyState_of_everyStep`
does so for the runs whose steps all meet a condition, and `everyState_iff_everyStep` adds the converse
when a step outside the condition breaks the property at once.

What can still be reached is the other question: `Leads` is reachability by some of the actions, and
`exists_of_decreasing` finds a way to a goal from a measure that can always be made smaller.

Two runs are compared by running them together: `lockstep` takes a pair of states with a pair of actions,
and `everyState_iff_of_everyStep` is the rule above for the runs whose steps are all related in some way.
-/

set_option autoImplicit false

namespace CppMisc.Library

universe u v

variable {S : Type u} {A : Type v}

/-- The state after the actions `as`, if each of them is possible when its turn comes. -/
def run (step : S → A → Option S) : S → List A → Option S
  | s, [] => some s
  | s, a :: as => (step s a).bind fun t => run step t as

/-- `t` is reached from `s` by some list of actions. -/
def Reaches (step : S → A → Option S) (s t : S) : Prop := ∃ as, run step s as = some t

/-- `P` holds in every state that the actions `as` lead through, the start included. -/
def EveryState (step : S → A → Option S) (P : S → Prop) : S → List A → Prop
  | s, [] => P s
  | s, a :: as => P s ∧ ∀ t, step s a = some t → EveryState step P t as

/-- `C` holds of every step that is taken along the actions `as`. -/
def EveryStep (step : S → A → Option S) (C : S → A → Prop) : S → List A → Prop
  | _, [] => True
  | s, a :: as => ∀ t, step s a = some t → C s a ∧ EveryStep step C t as

/-- Whether a decidable condition holds of every step can be tested by running the actions. -/
instance decidableEveryStep (step : S → A → Option S) (C : S → A → Prop)
    [∀ s a, Decidable (C s a)] : ∀ (s : S) (as : List A), Decidable (EveryStep step C s as)
  | _, [] => isTrue trivial
  | s, a :: as =>
      match h : step s a with
      | none => isTrue fun t ht => by rw [h] at ht; cases ht
      | some u =>
          have := decidableEveryStep step C u as
          decidable_of_iff (C s a ∧ EveryStep step C u as)
            ⟨fun hu t ht => by rw [h] at ht; cases ht; exact hu, fun hall => hall u h⟩

variable {step : S → A → Option S}

theorem run_cons_eq_some {s t : S} {a : A} {as : List A} :
    run step s (a :: as) = some t ↔ ∃ u, step s a = some u ∧ run step u as = some t := by
  simp [run, Option.bind_eq_some_iff]

theorem run_append {s t : S} {as bs : List A} (h : run step s as = some t) :
    run step s (as ++ bs) = run step t bs := by
  induction as generalizing s with
  | nil =>
      simp only [run, Option.some.injEq] at h
      rw [h, List.nil_append]
  | cons a as ih =>
      obtain ⟨u, hu, hrest⟩ := run_cons_eq_some.1 h
      simp only [List.cons_append, run, hu, Option.bind_some]
      exact ih hrest

theorem Reaches.refl (s : S) : Reaches step s s := ⟨[], rfl⟩

theorem Reaches.trans {s t u : S} (h : Reaches step s t) (h' : Reaches step t u) :
    Reaches step s u := by
  obtain ⟨as, has⟩ := h
  obtain ⟨bs, hbs⟩ := h'
  exact ⟨as ++ bs, by rw [run_append has, hbs]⟩

theorem Reaches.single {s t : S} {a : A} (h : step s a = some t) : Reaches step s t :=
  ⟨[a], by simp [run, h]⟩

theorem Reaches.tail {s t u : S} {a : A} (h : Reaches step s t) (ha : step t a = some u) :
    Reaches step s u :=
  h.trans (.single ha)

/-- A property of the start that every step keeps holds in every reachable state. -/
theorem Reaches.invariant {P : S → Prop} {s t : S} (h : Reaches step s t)
    (hstep : ∀ s a t, P s → step s a = some t → P t) (hs : P s) : P t := by
  obtain ⟨as, has⟩ := h
  induction as generalizing s with
  | nil =>
      simp only [run, Option.some.injEq] at has
      exact has ▸ hs
  | cons a as ih =>
      obtain ⟨u, hu, hrest⟩ := run_cons_eq_some.1 has
      exact ih (hstep s a u hs hu) hrest

/-- An invariant kept by every step gives its consequence `P` in every state of a run. -/
theorem everyState_of_step {Inv P : S → Prop}
    (hstep : ∀ s a t, Inv s → step s a = some t → Inv t) (hP : ∀ s, Inv s → P s) :
    ∀ (as : List A) (s : S), Inv s → EveryState step P s as := by
  intro as
  induction as with
  | nil =>
      intro s hs
      exact hP s hs
  | cons a as ih =>
      intro s hs
      exact ⟨hP s hs, fun t ht => ih t (hstep s a t hs ht)⟩

/-- An invariant kept by the steps that meet `C` gives its consequence `P` in every state of a run
whose steps all meet `C`. -/
theorem everyState_of_everyStep {Inv P : S → Prop} {C : S → A → Prop}
    (hstep : ∀ s a t, Inv s → C s a → step s a = some t → Inv t) (hP : ∀ s, Inv s → P s) :
    ∀ (as : List A) (s : S), Inv s → EveryStep step C s as → EveryState step P s as := by
  intro as
  induction as with
  | nil =>
      intro s hs _
      exact hP s hs
  | cons a as ih =>
      intro s hs h
      refine ⟨hP s hs, fun t ht => ?_⟩
      obtain ⟨hC, hrest⟩ := h t ht
      exact ih t (hstep s a t hs hC ht) hrest

/-- An invariant kept by the steps that meet `C`, and that makes every step meet `D`, shows that the runs
whose steps all meet `C` are runs whose steps all meet `D`. -/
theorem EveryStep.of_invariant {Inv : S → Prop} {C D : S → A → Prop}
    (hstep : ∀ s a t, Inv s → C s a → step s a = some t → Inv t)
    (hD : ∀ s a t, Inv s → step s a = some t → D s a) :
    ∀ {as : List A} {s : S}, EveryStep step C s as → Inv s → EveryStep step D s as := by
  intro as
  induction as with
  | nil =>
      intro s _ _
      trivial
  | cons a as ih =>
      intro s h hs t ht
      obtain ⟨hC, hrest⟩ := h t ht
      exact ⟨hD s a t hs ht, ih hrest (hstep s a t hs hC ht)⟩

/-- Of a run whose steps all meet `C`, they all meet what follows from `C`. -/
theorem EveryStep.imp {C D : S → A → Prop} (hCD : ∀ s a, C s a → D s a) {as : List A} {s : S}
    (h : EveryStep step C s as) : EveryStep step D s as := by
  induction as generalizing s with
  | nil => trivial
  | cons a as ih =>
      intro t ht
      obtain ⟨hC, hrest⟩ := h t ht
      exact ⟨hCD s a hC, ih hrest⟩

/-- A condition on the actions alone holds of every step of a run that goes to its end exactly when it
holds of every action. -/
theorem everyStep_iff_forall {C : A → Prop} {t : S} {as : List A} : ∀ {s : S}, run step s as = some t →
    (EveryStep step (fun _ a => C a) s as ↔ ∀ a ∈ as, C a) := by
  induction as with
  | nil =>
      intro s _
      exact iff_of_true trivial fun a ha => absurd ha List.not_mem_nil
  | cons a as ih =>
      intro s h
      obtain ⟨u, hu, hrest⟩ := run_cons_eq_some.1 h
      rw [List.forall_mem_cons, ← ih hrest]
      constructor
      · intro hall
        exact hall u hu
      · intro hall v hv
        obtain rfl := Option.some.inj (hu.symm.trans hv)
        exact hall

/-- A condition on the actions that all of them meet holds of every step. -/
theorem everyStep_of_forall {C : A → Prop} {as : List A} (h : ∀ a ∈ as, C a) :
    ∀ s : S, EveryStep step (fun _ a => C a) s as := by
  induction as with
  | nil => exact fun _ => trivial
  | cons a as ih =>
      rw [List.forall_mem_cons] at h
      exact fun s t _ => ⟨h.1, ih h.2 t⟩

/-- The first state of a run has the property asked of every state. -/
theorem EveryState.head {P : S → Prop} {s : S} : ∀ {as : List A}, EveryState step P s as → P s
  | [], h => h
  | _ :: _, h => h.1

/-- So has the last one. -/
theorem EveryState.last {P : S → Prop} {t : S} : ∀ {as : List A} {s : S}, EveryState step P s as →
    run step s as = some t → P t := by
  intro as
  induction as with
  | nil =>
      intro s h hrun
      exact Option.some.inj hrun ▸ h
  | cons a as ih =>
      intro s h hrun
      obtain ⟨u, hu, hrest⟩ := run_cons_eq_some.1 hrun
      exact ih (h.2 u hu) hrest

/-- When a step outside `C` always leads to a state without `P`, the runs with `P` in every state
are exactly the runs whose steps all meet `C`. -/
theorem everyState_iff_everyStep {Inv P : S → Prop} {C : S → A → Prop}
    (hstep : ∀ s a t, Inv s → C s a → step s a = some t → Inv t) (hP : ∀ s, Inv s → P s)
    (hfail : ∀ s a t, Inv s → ¬ C s a → step s a = some t → ¬ P t) (as : List A) (s : S)
    (hs : Inv s) : EveryState step P s as ↔ EveryStep step C s as := by
  refine ⟨fun h => ?_, everyState_of_everyStep hstep hP as s hs⟩
  induction as generalizing s with
  | nil => trivial
  | cons a as ih =>
      intro t ht
      have hC : C s a := by
        by_contra hC
        exact hfail s a t hs hC ht (h.2 t ht).head
      exact ⟨hC, ih t (hstep s a t hs hC ht) (h.2 t ht)⟩

/-- The same equivalence among the runs whose steps all meet `H`. -/
theorem everyState_iff_of_everyStep {Inv P : S → Prop} {H C : S → A → Prop}
    (hstep : ∀ s a t, Inv s → H s a → C s a → step s a = some t → Inv t) (hP : ∀ s, Inv s → P s)
    (hfail : ∀ s a t, Inv s → H s a → ¬ C s a → step s a = some t → ¬ P t) (as : List A) (s : S)
    (hs : Inv s) (hH : EveryStep step H s as) : EveryState step P s as ↔ EveryStep step C s as := by
  induction as generalizing s with
  | nil => exact ⟨fun _ => trivial, fun _ => hP s hs⟩
  | cons a as ih =>
      constructor
      · intro h t ht
        obtain ⟨hHa, hrest⟩ := hH t ht
        have hC : C s a := by
          by_contra hC
          exact hfail s a t hs hHa hC ht (h.2 t ht).head
        exact ⟨hC, (ih t (hstep s a t hs hHa hC ht) hrest).1 (h.2 t ht)⟩
      · intro h
        refine ⟨hP s hs, fun t ht => ?_⟩
        obtain ⟨hHa, hrest⟩ := hH t ht
        obtain ⟨hC, hCrest⟩ := h t ht
        exact (ih t (hstep s a t hs hHa hC ht) hrest).2 hCrest

/-- `t` is reached from `s` by actions that are `allowed`. -/
def Leads (step : S → A → Option S) (allowed : A → Prop) (s t : S) : Prop :=
  ∃ as, (∀ a ∈ as, allowed a) ∧ run step s as = some t

theorem Leads.refl (allowed : A → Prop) (s : S) : Leads step allowed s s :=
  ⟨[], fun _ ha => absurd ha List.not_mem_nil, rfl⟩

theorem Leads.trans {allowed : A → Prop} {s t u : S} (h : Leads step allowed s t)
    (h' : Leads step allowed t u) : Leads step allowed s u := by
  obtain ⟨as, has, hrun⟩ := h
  obtain ⟨bs, hbs, hrun'⟩ := h'
  refine ⟨as ++ bs, fun a ha => ?_, ?_⟩
  · rcases List.mem_append.1 ha with hfirst | hsecond
    · exact has a hfirst
    · exact hbs a hsecond
  · rw [run_append hrun, hrun']

theorem Leads.single {allowed : A → Prop} {s t : S} {a : A} (ha : allowed a) (h : step s a = some t) :
    Leads step allowed s t := by
  refine ⟨[a], fun b hb => ?_, ?_⟩
  · rw [List.mem_singleton.1 hb]
    exact ha
  · rw [run, h, Option.bind_some, run]

/-- When every state short of the goal leads on to one with a smaller measure, the goal can be reached. -/
theorem exists_of_decreasing {R : S → S → Prop} {Inv Goal : S → Prop} (μ : S → Nat) (hrefl : ∀ s, Inv s → R s s)
    (htrans : ∀ {s t u}, R s t → R t u → R s u) (hinv : ∀ {s t}, R s t → Inv t)
    (h : ∀ s, Inv s → Goal s ∨ ∃ t, R s t ∧ μ t < μ s) :
    ∀ s, Inv s → ∃ t, R s t ∧ Goal t := by
  intro s
  induction hn : μ s using Nat.strong_induction_on generalizing s with
  | _ n ih =>
      intro hs
      rcases h s hs with hgoal | ⟨t, hst, hless⟩
      · exact ⟨s, hrefl s hs, hgoal⟩
      · obtain ⟨u, htu, hgoal⟩ := ih (μ t) (hn ▸ hless) t rfl (hinv hst)
        exact ⟨u, htrans hst htu, hgoal⟩

/-- Two runs of the same system, side by side. -/
def lockstep (step : S → A → Option S) (s : S × S) (a : A × A) : Option (S × S) :=
  (step s.1 a.1).bind fun t₁ => (step s.2 a.2).map fun t₂ => (t₁, t₂)

theorem lockstep_eq_some {s t : S × S} {a : A × A} :
    lockstep step s a = some t ↔ step s.1 a.1 = some t.1 ∧ step s.2 a.2 = some t.2 := by
  obtain ⟨t₁, t₂⟩ := t
  simp [lockstep, Option.bind_eq_some_iff]

end CppMisc.Library
