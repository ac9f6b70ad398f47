import Mathlib.Tactic

/-!
# Hashing with chaining

A table of buckets keeps each pair of a key and a value in the bucket whose number a function gives for
the key. `Placed` is the placement invariant: every bucket holds exactly the pairs of its number, in the
order in which they were put in. It is kept when a pair is appended to its bucket, and it makes a search
in the bucket of a key a search in the list of all pairs, whatever the function is.
-/

set_option autoImplicit false

namespace CppMisc.Library

universe u v

variable {K : Type u} {V : Type v}

/-- A list of pairs can be searched among the pairs that the key cannot be told from. -/
theorem lookup_filter [BEq K] [LawfulBEq K] {p : K → Bool} {k : K} (hk : p k = true) :
    ∀ pairs : List (K × V), (pairs.filter fun x => p x.1).lookup k = pairs.lookup k := by
  intro pairs
  induction pairs with
  | nil => rfl
  | cons x pairs ih =>
      obtain ⟨k', v⟩ := x
      by_cases heq : k = k'
      · subst heq
        rw [List.filter_cons_of_pos (by simpa using hk), List.lookup_cons_self, List.lookup_cons_self]
      · have hne : (k == k') = false := by simpa using heq
        rw [List.lookup_cons, hne, ← ih, List.filter_cons]
        split
        · rw [List.lookup_cons, hne]
        · rfl

/-- A pair put in behind others is found if none of them has its key. -/
theorem lookup_snoc [BEq K] [LawfulBEq K] (pairs : List (K × V)) (k : K) (v : V) :
    (pairs ++ [(k, v)]).lookup k = some ((pairs.lookup k).getD v) := by
  rw [List.lookup_append, List.lookup_cons_self]
  cases pairs.lookup k with
  | none => rfl
  | some u => rfl

/-- It does not change what is found for another key. -/
theorem lookup_snoc_of_ne [BEq K] [LawfulBEq K] (pairs : List (K × V)) {k k' : K} (hne : k' ≠ k) (v : V) :
    (pairs ++ [(k, v)]).lookup k' = pairs.lookup k' := by
  have hbeq : (k' == k) = false := by simpa using hne
  rw [List.lookup_append, List.lookup_cons, hbeq]
  exact Option.or_none

/-- Every bucket holds the pairs of its number, in order. -/
def Placed (number : K → Nat) (pairs : List (K × V)) (buckets : List (List (K × V))) : Prop :=
  ∀ i bucket, buckets[i]? = some bucket → bucket = pairs.filter fun x => number x.1 == i

variable {number : K → Nat}

theorem placed_replicate (n : Nat) : Placed number [] (List.replicate n ([] : List (K × V))) := by
  intro i bucket h
  have hmem := List.mem_of_getElem? h
  rw [List.eq_of_mem_replicate hmem]
  rfl

/-- A pair appended to its bucket. -/
theorem Placed.snoc {pairs : List (K × V)} {buckets : List (List (K × V))}
    (h : Placed number pairs buckets) {k : K} {bucket : List (K × V)}
    (hbucket : buckets[number k]? = some bucket) (v : V) :
    Placed number (pairs ++ [(k, v)]) (buckets.set (number k) (bucket ++ [(k, v)])) := by
  intro i b hb
  rw [List.filter_append]
  by_cases hi : number k = i
  · subst hi
    obtain ⟨hlt, -⟩ := List.getElem?_eq_some_iff.1 hbucket
    rw [List.getElem?_set_self hlt, Option.some.injEq] at hb
    rw [← hb, h _ _ hbucket, List.filter_cons_of_pos (by simp), List.filter_nil]
  · rw [List.getElem?_set_ne hi] at hb
    rw [h i b hb, List.filter_cons_of_neg (by simpa using hi), List.filter_nil, List.append_nil]

/-- A search in the bucket of a key. -/
theorem Placed.lookup [BEq K] [LawfulBEq K] {pairs : List (K × V)} {buckets : List (List (K × V))}
    (h : Placed number pairs buckets) {k : K} {bucket : List (K × V)}
    (hbucket : buckets[number k]? = some bucket) : bucket.lookup k = pairs.lookup k := by
  rw [h _ _ hbucket]
  exact lookup_filter (p := fun x => number x == number k) (by simp) pairs

end CppMisc.Library
