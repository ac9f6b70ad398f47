import Mathlib.Tactic

/-!
# The hash table of `stl/hashtable.cc`

A vector of 13 lists. The hash of a key, a `size_t`, is reduced modulo the number of buckets and narrowed
to an `int`, which is the index of the key's list. `insert` appends a node to that list and `hash_find`
goes through it from the front. An access outside the vector has no result.

`hashOf` stands for the function object `::hash<K>`, which may be any function.
-/

set_option autoImplicit false

namespace CppMisc.Stl

universe u v

/-- `HashNode`. -/
structure HashNode (K : Type u) (V : Type v) where
  key : K
  value : V

/-- `HashTable`. -/
structure HashTable (K : Type u) (V : Type v) where
  buckets : List (List (HashNode K V))

/-- `m_hashsize`. -/
def mHashsize : Nat := 13

/-- The conversion of a `size_t` to `int`. -/
def toInt (n : Nat) : Int := Int.bmod n (2 ^ 32)

variable {K : Type u} {V : Type v}

/-- The constructor. -/
def HashTable.create : HashTable K V := ⟨List.replicate mHashsize []⟩

/-- `m_buckets[index]`. -/
def HashTable.bucket (h : HashTable K V) (index : Int) : Option (List (HashNode K V)) :=
  if 0 ≤ index then h.buckets[index.toNat]? else none

/-- The loop of `hash_find`. -/
def findNode [BEq K] (key : K) : List (HashNode K V) → Option V
  | [] => none
  | node :: rest => if key == node.key then some node.value else findNode key rest

section Operations

variable (hashOf : K → UInt64)

/-- `HashTable::hash`. -/
def hash (key : K) : Int := toInt ((hashOf key).toNat % mHashsize)

/-- `HashTable::insert`: what it returns, and the table after it. -/
def insert (h : HashTable K V) (key : K) (value : V) : Option (Bool × HashTable K V) :=
  (h.bucket (hash hashOf key)).map fun bucket =>
    (true, ⟨h.buckets.set (hash hashOf key).toNat (bucket ++ [⟨key, value⟩])⟩)

/-- `HashTable::hash_find`. -/
def hashFind [BEq K] (h : HashTable K V) (key : K) : Option (Option V) :=
  (h.bucket (hash hashOf key)).map (findNode key)

/-- A sequence of calls of `insert`. -/
def insertAll : HashTable K V → List (K × V) → Option (HashTable K V)
  | h, [] => some h
  | h, (key, value) :: pairs => (insert hashOf h key value).bind fun r => insertAll r.2 pairs

end Operations

end CppMisc.Stl
