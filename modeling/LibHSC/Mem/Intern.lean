import LibHSC.Library.OpenTable
import LibHSC.Mem.Cache
import Mathlib.Algebra.Group.Nat.Defs

/-!
The unique table: values addressed by ids, one id a value. Ids are unsigned and
narrower than the sizes they are compared with, so `idBound` is the number of ids
the type has; counts and generations have 32 bits. What an operation would do
outside the arrays, or never come back from, is `none`.
-/

namespace LibHSC.Mem

open OpenTable

/-- The content-addressed direction: a set of ids, 0 is an empty slot. -/
structure IdTable where
  slots : List Nat
  size : Nat

def IdTable.new (initialBuckets : Nat) : IdTable :=
  ⟨List.replicate (roundUp initialBuckets) 0, 0⟩

/-- Load factor 0.7. -/
def IdTable.overloaded (t : IdTable) : Prop := t.size * 10 ≥ t.slots.length * 7

instance (t : IdTable) : Decidable t.overloaded :=
  inferInstanceAs (Decidable (t.size * 10 ≥ t.slots.length * 7))

def IdTable.place (t : IdTable) (slot id : Nat) : IdTable := ⟨t.slots.set slot id, t.size + 1⟩

/-- The ids put one after the other into an empty table of so many slots. -/
def IdTable.fill (buckets : Nat) (ids : List Nat) (hashOf : Nat → Nat) : IdTable :=
  ⟨OpenTable.rehash hashOf ids (List.replicate (roundUp buckets) 0),
    ids.countP fun id => decide (id ≠ 0)⟩

def IdTable.rehash (t : IdTable) (buckets : Nat) (hashOf : Nat → Nat) : IdTable :=
  .fill (if buckets < t.size * 2 then t.size * 2 else buckets) t.slots hashOf

def IdTable.rebuild (ids : List Nat) (hashOf : Nat → Nat) : IdTable :=
  .fill (ids.length * 2 + 8) ids hashOf

/-- The bound of the 32-bit counters. -/
def counterBound : Nat := 2 ^ 32

structure Intern (T : Type) where
  /-- From ids to values; a null pointer is `none`. -/
  index : List (Option T)
  table : IdTable
  generations : List Nat
  marks : List Bool
  /-- The free list, the last id pushed first. -/
  free : List Nat
  /-- Reference counts; an id without references has none. -/
  refs : List (Option Nat)

/-- What asking for an id comes to. -/
inductive Got where
  | id (id : Nat)
  | exhausted
  deriving DecidableEq

namespace Intern

variable {T : Type}

/-- Id 0 is absence: its place in the index is taken. -/
def new (initialCapacity : Nat) : Intern T :=
  ⟨[none], .new initialCapacity, [0], [false], [], []⟩

/-- The value of an id. -/
def resolve (st : Intern T) (id : Nat) : Option T := st.index.getD id none

/-- The hash of the value of the id `v + 1`, as the table counts them. -/
def hashOf (hash : T → Nat) (st : Intern T) (v : Nat) : Nat :=
  match st.resolve (v + 1) with
  | none => 0
  | some x => hash x

def growTable (hash : T → Nat) (st : Intern T) : Intern T :=
  { st with table := st.table.rehash (st.table.slots.length * 2) (st.hashOf hash) }

/-! ## Interning -/

/-- An id for a new value, off the free list or a fresh one. -/
def allocateId (idBound : Nat) (st : Intern T) : Option (Nat × Intern T) :=
  match st.free with
  | id :: free => some (id, { st with free := free, marks := st.marks.set id false })
  | [] =>
    if st.index.length > idBound - 1 then none
    else
      some (st.index.length % idBound, { st with
        index := st.index ++ [none], generations := st.generations ++ [0],
        marks := st.marks ++ [false] })

/-- The id of a value, interning it if new. The number of slots is a power of two. -/
def get [DecidableEq T] (idBound : Nat) (hash : T → Nat) (st : Intern T) (x : T) :
    Option (Got × Intern T) :=
  let st := if st.table.overloaded then st.growTable hash else st
  match probe st.index.tail st.table.slots (some x) st.table.slots.length
      (hash x % st.table.slots.length) with
  | .found v => some (.id (v + 1), st)
  | .free slot =>
    match st.allocateId idBound with
    | none => some (.exhausted, st)
    | some (id, st) =>
      some (.id id, { st with
        index := st.index.set id (some x), table := st.table.place slot id })
  | .full => none

/-! ## Certificates and roots -/

def generation (st : Intern T) (id : Nat) : Nat :=
  if id < st.generations.length then st.generations.getD id 0 else 0

def valid (st : Intern T) (id gen : Nat) : Bool :=
  id ≠ 0 ∧ id < st.index.length ∧ (st.resolve id).isSome ∧ st.generations.getD id 0 = gen

def refCount (st : Intern T) (id : Nat) : Nat :=
  if id < st.refs.length then (st.refs.getD id none).getD 0 else 0

/-- One reference more; an id without any has no count. -/
def bump : Option Nat → Nat
  | some count => (count + 1) % counterBound
  | none => 1

def ref (st : Intern T) (id : Nat) : Intern T :=
  let refs := if st.refs.length ≤ id
    then st.refs ++ List.replicate (3 * id / 2 + 8 - st.refs.length) none else st.refs
  { st with refs := refs.set id (some (bump (refs.getD id none))) }

def deref (st : Intern T) (id : Nat) : Option (Intern T) :=
  match st.refs.getD id none with
  | none => none
  | some count =>
    if count = 1 then some { st with refs := st.refs.set id none }
    else some { st with refs := st.refs.set id (some ((count + counterBound - 1) % counterBound)) }

/-! ## Collection -/

/-- The referenced ids, in the order they are pushed. -/
def roots (st : Intern T) : List Nat :=
  (List.range st.refs.length).filter fun id => (st.refs.getD id none).isSome

/-- The cited ids that are not marked yet, pushed on the work list. -/
def push (marks : List Bool) : List Nat → List Nat → List Nat
  | [], work => work
  | id :: ids, work =>
    push marks ids (if id ≠ 0 ∧ marks.getD id false = false then id :: work else work)

/-- The ids on the work list and all they lead to, marked. -/
def mark (children : T → List Nat) : Nat → List Nat → Intern T → Option (Intern T)
  | 0, _, _ => none
  | _ + 1, [], st => some st
  | fuel + 1, id :: work, st =>
    if st.marks.getD id false then mark children fuel work st
    else
      match st.resolve id with
      | none => none
      | some x =>
        let marks := st.marks.set id true
        mark children fuel (push marks (children x) work) { st with marks := marks }

/-- One id of the sweep: kept, freed, or free already. -/
def sweepId (id : Nat) (survivors : List Nat) (st : Intern T) : List Nat × Intern T :=
  match st.resolve id with
  | none => (survivors, st)
  | some _ =>
    if st.marks.getD id false then
      (survivors ++ [id], { st with marks := st.marks.set id false })
    else
      (survivors, { st with
        index := st.index.set id none, free := id :: st.free,
        generations := st.generations.set id ((st.generations.getD id 0 + 1) % counterBound) })

/-- The loop of the sweep; its counter is an id, so it wraps around. -/
def sweep (idBound : Nat) : Nat → Nat → List Nat → Intern T → Option (List Nat × Intern T)
  | 0, _, _, _ => none
  | fuel + 1, id, survivors, st =>
    if id < st.index.length then
      let (survivors, st) := sweepId id survivors st
      sweep idBound fuel ((id + 1) % idBound) survivors st
    else some (survivors, st)

/-- Mark and sweep from the referenced ids, in so many turns of each loop. -/
def collect (idBound : Nat) (hash : T → Nat) (children : T → List Nat) (fuel : Nat)
    (st : Intern T) : Option (Intern T) := do
  let st ← mark children fuel st.roots.reverse st
  let (survivors, st) ← sweep idBound fuel 1 [] st
  return { st with table := .rebuild survivors (st.hashOf hash) }

end Intern

end LibHSC.Mem
