import CppMisc.Library.Buckets
import CppMisc.Stl.HashTable

/-!
# Lookups in `stl/hashtable.cc`

With its nodes read as pairs the table keeps the placement invariant of hashing with chaining, so
`hash_find` searches the list of all insertions from the front, whatever the hash function is and however
the keys collide. The index stays below 13 and is not changed by the narrowing to `int`.

Since `insert` appends without looking for the key and returns true in any case, a value inserted for a
key that is present is not found: the earlier one is.
-/

set_option autoImplicit false

namespace CppMisc.Stl

open CppMisc.Library

universe u v

variable {K : Type u} {V : Type v}

/-- A node as a pair. -/
def HashNode.pair (node : HashNode K V) : K × V := (node.key, node.value)

/-- The buckets with pairs for nodes. -/
def HashTable.pairs (h : HashTable K V) : List (List (K × V)) := h.buckets.map (List.map HashNode.pair)

/-- Small numbers are kept by the narrowing. -/
theorem toInt_of_lt {n : Nat} (h : n < 2 ^ 31) : toInt n = n := by
  apply Int.bmod_eq_of_le
  · norm_num
  · norm_num
    omega

section Index

variable (hashOf : K → UInt64)

/-- The number of a key's bucket. -/
def number (key : K) : Nat := (hashOf key).toNat % mHashsize

theorem number_lt (key : K) : number hashOf key < mHashsize := by
  simp only [number, mHashsize]
  omega

/-- The narrowing to `int` keeps the index. -/
theorem hash_eq (key : K) : hash hashOf key = number hashOf key := by
  have hlt := number_lt hashOf key
  rw [mHashsize] at hlt
  exact toInt_of_lt (hlt.trans (by norm_num))

theorem bucket_eq (h : HashTable K V) (key : K) :
    h.bucket (hash hashOf key) = h.buckets[number hashOf key]? := by
  rw [hash_eq, HashTable.bucket, if_pos (Int.natCast_nonneg _), Int.toNat_natCast]

end Index

/-- The loop of `hash_find` is a search in a list of pairs. -/
theorem findNode_eq_lookup [BEq K] (key : K) (nodes : List (HashNode K V)) :
    findNode key nodes = (nodes.map HashNode.pair).lookup key := by
  induction nodes with
  | nil => rfl
  | cons node rest ih =>
      rw [findNode, List.map_cons, HashNode.pair, List.lookup_cons, ih]
      cases key == node.key with
      | true => rfl
      | false => rfl

/-! ## The invariant -/

/-- The table has its 13 lists, and the insertions so far are placed in them. -/
structure Holds (hashOf : K → UInt64) (h : HashTable K V) (pairs : List (K × V)) : Prop where
  length : h.buckets.length = mHashsize
  placed : Placed (number hashOf) pairs h.pairs

variable {hashOf : K → UInt64} {h : HashTable K V} {pairs : List (K × V)}

theorem holds_create (hashOf : K → UInt64) : Holds hashOf (HashTable.create : HashTable K V) [] := by
  refine ⟨List.length_replicate, ?_⟩
  have hpairs : (HashTable.create : HashTable K V).pairs = List.replicate mHashsize [] := by
    simp [HashTable.create, HashTable.pairs]
  rw [hpairs]
  exact placed_replicate mHashsize

/-- The index of a key is one of the vector. -/
theorem Holds.bucket (hh : Holds hashOf h pairs) (key : K) :
    ∃ nodes, h.bucket (hash hashOf key) = some nodes ∧
      h.pairs[number hashOf key]? = some (nodes.map HashNode.pair) := by
  have hlt : number hashOf key < h.buckets.length := hh.length ▸ number_lt hashOf key
  refine ⟨h.buckets[number hashOf key], ?_, ?_⟩
  · rw [bucket_eq, List.getElem?_eq_getElem hlt]
  · rw [HashTable.pairs, List.getElem?_map, List.getElem?_eq_getElem hlt]
    rfl

/-- An insertion returns true and adds its pair behind the others. -/
theorem Holds.insert (hh : Holds hashOf h pairs) (key : K) (value : V) :
    ∃ h', Stl.insert hashOf h key value = some (true, h') ∧
      Holds hashOf h' (pairs ++ [(key, value)]) := by
  obtain ⟨nodes, hnodes, hpairs⟩ := hh.bucket key
  refine ⟨⟨h.buckets.set (hash hashOf key).toNat (nodes ++ [⟨key, value⟩])⟩, ?_, ?_, ?_⟩
  · rw [Stl.insert, hnodes]
    rfl
  · rw [List.length_set]
    exact hh.length
  · have hset := hh.placed.snoc hpairs value
    simp only [HashTable.pairs, hash_eq, Int.toNat_natCast, List.map_set, List.map_append]
    exact hset

theorem Holds.insertAll (more : List (K × V)) : ∀ {h : HashTable K V} {pairs : List (K × V)},
    Holds hashOf h pairs →
      ∃ h', Stl.insertAll hashOf h more = some h' ∧ Holds hashOf h' (pairs ++ more) := by
  induction more with
  | nil =>
      intro h pairs hh
      exact ⟨h, rfl, by rwa [List.append_nil]⟩
  | cons x more ih =>
      intro h pairs hh
      obtain ⟨t, ht, hholds⟩ := hh.insert x.1 x.2
      obtain ⟨h', hall, hh'⟩ := ih hholds
      refine ⟨h', ?_, ?_⟩
      · rw [Stl.insertAll, ht]
        exact hall
      · rwa [List.append_assoc] at hh'

/-- `hash_find` searches the insertions from the front. -/
theorem Holds.hashFind [BEq K] [LawfulBEq K] (hh : Holds hashOf h pairs) (key : K) :
    Stl.hashFind hashOf h key = some (pairs.lookup key) := by
  obtain ⟨nodes, hnodes, hpairs⟩ := hh.bucket key
  rw [Stl.hashFind, hnodes, Option.map_some, findNode_eq_lookup, hh.placed.lookup hpairs]

/-! ## Insertions and lookups -/

/-- **The table is an association list.** For every hash function, every type of keys with a lawful test
for equality and every sequence of insertions into a new table, the index of every key is below the
number of buckets, and `hash_find` returns the value of the earliest pair with the key, or nothing if
there is none. -/
theorem hash_find_eq_lookup [BEq K] [LawfulBEq K] (hashOf : K → UInt64) (pairs : List (K × V)) :
    ∃ h, insertAll hashOf HashTable.create pairs = some h ∧ ∀ key,
      (0 ≤ hash hashOf key ∧ hash hashOf key < mHashsize) ∧
        hashFind hashOf h key = some (pairs.lookup key) := by
  obtain ⟨h, hall, hh⟩ := Holds.insertAll pairs (holds_create hashOf)
  rw [List.nil_append] at hh
  refine ⟨h, hall, fun key => ⟨?_, hh.hashFind key⟩⟩
  have hlt := number_lt hashOf key
  rw [hash_eq]
  omega

/-- Control: two pairs with the key 1 and one with the key 14, all in one bucket. -/
theorem hash_find_eq_lookup_oneBucket :
    ∃ h, insertAll (fun _ => 5) HashTable.create [(1, 10), (14, 20), (1, 30)] = some h ∧
      hashFind (fun _ => 5) h 1 = some (some 10) ∧ hashFind (fun _ => 5) h 14 = some (some 20) ∧
        hashFind (fun _ => 5) h 27 = some none := by
  obtain ⟨h, hall, hfind⟩ :=
    hash_find_eq_lookup (fun _ : Nat => 5) [(1, 10), (14, 20), (1, 30)]
  exact ⟨h, hall, (hfind 1).2, (hfind 14).2, (hfind 27).2⟩

/-! ## Visible insertions -/

/-- If the insertion returns true, its value is found until the key is inserted again, and what is found
for other keys is the same before and after it. -/
def Visible [BEq K] (hashOf : K → UInt64) (h : HashTable K V) (key : K) (value : V) : Prop :=
  ∀ h', insert hashOf h key value = some (true, h') →
    (∀ more h'', (∀ x ∈ more, x.1 ≠ key) → insertAll hashOf h' more = some h'' →
      hashFind hashOf h'' key = some (some value)) ∧
    ∀ other, other ≠ key → hashFind hashOf h' other = hashFind hashOf h other

/-- After an insertion the earliest value of the key is found, whatever is inserted later. -/
theorem Holds.find_inserted [BEq K] [LawfulBEq K] {h' h'' : HashTable K V} {key : K} {value : V}
    (hh' : Holds hashOf h' (pairs ++ [(key, value)])) {more : List (K × V)}
    (hall : Stl.insertAll hashOf h' more = some h'') :
    Stl.hashFind hashOf h'' key = some (some ((pairs.lookup key).getD value)) := by
  obtain ⟨t, ht, hholds⟩ := hh'.insertAll more
  obtain rfl := Option.some.inj (hall.symm.trans ht)
  rw [hholds.hashFind, List.lookup_append, lookup_snoc]
  rfl

/-- **Visible insertions.** For every hash function, every table reached by insertions, and every key and
value: if the insertion returns true, the value is found until the next insertion of the key, and nothing
changes for other keys, if and only if no pair with the key was inserted before, or the earliest of them
has the same value. -/
theorem insert_visible_iff [BEq K] [LawfulBEq K] (hashOf : K → UInt64) {pairs : List (K × V)}
    {h : HashTable K V} (hall : insertAll hashOf HashTable.create pairs = some h) (key : K) (value : V) :
    Visible hashOf h key value ↔ ∀ v, pairs.lookup key = some v → v = value := by
  obtain ⟨t, ht, hh⟩ := Holds.insertAll pairs (holds_create hashOf)
  rw [List.nil_append] at hh
  obtain rfl := Option.some.inj (hall.symm.trans ht)
  obtain ⟨h', hinsert, hh'⟩ := hh.insert key value
  constructor
  · intro hvisible v hv
    obtain ⟨hfound, -⟩ := hvisible h' hinsert
    have hnow := hfound [] h' (fun _ hx => absurd hx List.not_mem_nil) rfl
    rw [hh'.hashFind, lookup_snoc, hv] at hnow
    exact Option.some.inj (Option.some.inj hnow)
  · intro hvalue h₁ h₁eq
    obtain rfl : h' = h₁ := congrArg Prod.snd (Option.some.inj (hinsert.symm.trans h₁eq))
    refine ⟨fun more h'' _ hlater => ?_, fun other hne => ?_⟩
    · rw [hh'.find_inserted hlater]
      cases hlookup : pairs.lookup key with
      | none => rfl
      | some v =>
          rw [hvalue v hlookup]
          rfl
    · rw [hh'.hashFind, hh.hashFind, lookup_snoc_of_ne pairs hne]

/-- Control: the first insertion of a key whose bucket is not empty. -/
theorem insert_visible_newKey :
    ∃ h, insertAll (fun _ => 5) HashTable.create [(1, 10)] = some h ∧
      Visible (fun _ => 5) h 14 20 := by
  obtain ⟨h, hall, -⟩ := Holds.insertAll [(1, 10)] (holds_create (fun _ : Nat => 5))
  exact ⟨h, hall, (insert_visible_iff (fun _ => 5) hall 14 20).2 (by decide)⟩

/-- The second insertion of a key returns true, and the first value is still found. -/
theorem insert_hidden_presentKey :
    ∃ h h', insertAll (fun _ => 5) HashTable.create [(1, 10)] = some h ∧
      insert (fun _ => 5) h 1 30 = some (true, h') ∧ hashFind (fun _ => 5) h' 1 = some (some 10) ∧
      ¬ Visible (fun _ => 5) h 1 30 := by
  obtain ⟨h, hall, hh⟩ := Holds.insertAll [(1, 10)] (holds_create (fun _ : Nat => 5))
  obtain ⟨h', hinsert, hh'⟩ := hh.insert 1 30
  refine ⟨h, h', hall, hinsert, hh'.hashFind 1, fun hvisible => ?_⟩
  obtain ⟨hfound, -⟩ := hvisible h' hinsert
  have hnow := hfound [] h' (fun _ hx => absurd hx List.not_mem_nil) rfl
  rw [hh'.hashFind 1] at hnow
  cases hnow

end CppMisc.Stl
