import CppMisc.Library.Runs

/-!
# The copy-on-update map of `muduo/copy_on_update.cc`

`UserData` guards a `shared_ptr<Map>` by a mutex. A reader takes a reference under the lock
(`getData`) and drops it later without the lock; a writer (`update`) works under the lock and looks
at `data_.unique()` to decide whether it may write in place.

The state holds every map ever allocated with its use count, the statements of the writer's locked
section as a program counter (`Writer`), and the snapshots that readers hold. `step` takes one
statement of the section at a time, so a reader may drop its reference between any two of them.
`lockedStep` runs a whole section as one step; it is built from `step`.

Two fields record history: a snapshot keeps the contents it was obtained with, and `updates` lists
the completed updates, the most recent first.
-/

set_option autoImplicit false

namespace CppMisc.CopyOnUpdate

open CppMisc.Library

/-- `std::string`. -/
abbrev Key := String

/-- `uint64_t`. -/
abbrev Entry := UInt64

/-- `std::map<std::string, Entry>`; a key that is not in the map has no entry. -/
abbrev Map := Key → Option Entry

/-- A heap cell owned by `shared_ptr`s: the map and its use count. -/
structure MapCell where
  contents : Map
  useCount : Nat

/-- Program counter of the thread inside `update`, which is also the state of `mutex_`: the lock is
free exactly at `idle`. -/
inductive Writer where
  | idle
  | entered (key : Key) (entry : Entry)
  | swapping (key : Key) (entry : Entry)
  | dropping (key : Key) (entry : Entry) (newData : Nat)
  | asserting (key : Key) (entry : Entry)
  | writing (key : Key) (entry : Entry)
  | aborted
deriving DecidableEq

/-- A `MapPtr` held by a reader, with the contents the map had when `getData` returned it. -/
structure Snapshot where
  ptr : Nat
  seen : Map

/-- The object, the heap its pointers refer to, and the readers' snapshots. -/
structure UserData where
  heap : Nat → MapCell
  fresh : Nat
  data_ : Nat
  readTimes_ : UInt64
  swapTimes_ : UInt64
  writer : Writer
  readers : List Snapshot
  updates : List (Key × Entry)

/-- The map without keys. -/
def emptyMap : Map := fun _ => none

/-- A default-constructed `UserData`: `data_` is the only reference to an empty map. -/
def initial : UserData where
  heap := fun p => if p = 0 then ⟨emptyMap, 1⟩ else ⟨emptyMap, 0⟩
  fresh := 1
  data_ := 0
  readTimes_ := 0
  swapTimes_ := 0
  writer := .idle
  readers := []
  updates := []

/-- Copying a `shared_ptr` to the cell `p`. -/
def retain (heap : Nat → MapCell) (p : Nat) : Nat → MapCell :=
  Function.update heap p { heap p with useCount := (heap p).useCount + 1 }

/-- Destroying a `shared_ptr` to the cell `p`. -/
def release (heap : Nat → MapCell) (p : Nat) : Nat → MapCell :=
  Function.update heap p { heap p with useCount := (heap p).useCount - 1 }

/-- `(*p)[key] = entry`. -/
def assign (heap : Nat → MapCell) (p : Nat) (key : Key) (entry : Entry) : Nat → MapCell :=
  Function.update heap p
    { heap p with contents := Function.update (heap p).contents key (some entry) }

/-- `data_.unique()`. -/
def unique (s : UserData) : Bool := (s.heap s.data_).useCount == 1

/-- `getData`, a section under the lock. -/
def getData (s : UserData) : UserData :=
  { s with
    readTimes_ := s.readTimes_ + 1
    heap := retain s.heap s.data_
    readers := s.readers ++ [⟨s.data_, (s.heap s.data_).contents⟩] }

/-- The body of `if (!data_.unique())`: a new empty map is swapped in, and the local `newData` now
holds the old one. -/
def swapIn (s : UserData) (key : Key) (entry : Entry) : UserData :=
  { s with
    heap := Function.update s.heap s.fresh ⟨emptyMap, 1⟩
    fresh := s.fresh + 1
    data_ := s.fresh
    swapTimes_ := s.swapTimes_ + 1
    writer := .dropping key entry s.data_ }

/-- The next statement of `update` in the thread that holds the lock. -/
def updateStep (s : UserData) : Option UserData :=
  match s.writer with
  | .idle => none
  | .entered key entry =>
      if unique s then some { s with writer := .asserting key entry }
      else some { s with writer := .swapping key entry }
  | .swapping key entry => some (swapIn s key entry)
  | .dropping key entry newData =>
      some { s with heap := release s.heap newData, writer := .asserting key entry }
  | .asserting key entry =>
      if unique s then some { s with writer := .writing key entry }
      else some { s with writer := .aborted }
  | .writing key entry =>
      some { s with
        heap := assign s.heap s.data_ key entry
        writer := .idle
        updates := (key, entry) :: s.updates }
  | .aborted => none

/-- One action of some thread. -/
inductive Act where
  | getData
  | release (reader : Nat)
  | lock (key : Key) (entry : Entry)
  | update

/-- One step: `getData` and the entry of `update` need the lock, a reader's `release` does not. -/
def step (s : UserData) : Act → Option UserData
  | .getData => if s.writer = .idle then some (getData s) else none
  | .release r =>
      match s.readers[r]? with
      | none => none
      | some snap =>
          some { s with heap := release s.heap snap.ptr, readers := s.readers.eraseIdx r }
  | .lock key entry =>
      if s.writer = .idle then some { s with writer := .entered key entry } else none
  | .update => updateStep s

/-- Run the locked section until the lock is free again. -/
def finishUpdate : Nat → UserData → Option UserData
  | 0, s => if s.writer = .idle then some s else none
  | n + 1, s => if s.writer = .idle then some s else (updateStep s).bind (finishUpdate n)

/-- A whole call of `update`: at most five statements follow the lock. -/
def update (s : UserData) (key : Key) (entry : Entry) : Option UserData :=
  (step s (.lock key entry)).bind (finishUpdate 5)

/-- One action with each locked section taken as one step. -/
inductive Call where
  | getData
  | release (reader : Nat)
  | update (key : Key) (entry : Entry)

/-- One step with each locked section taken as one step. -/
def lockedStep (s : UserData) : Call → Option UserData
  | .getData => step s .getData
  | .release r => step s (.release r)
  | .update key entry => update s key entry

/-- The entry of the most recent update of `key`. -/
def lastEntry (updates : List (Key × Entry)) (key : Key) : Option Entry :=
  (updates.find? fun u => u.1 = key).map Prod.snd

end CppMisc.CopyOnUpdate
