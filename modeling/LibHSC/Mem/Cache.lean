import LibHSC.Library.Links
import Mathlib.Data.List.Range
import Mathlib.Data.List.Perm.Basic

/-!
The bounded operation cache: entries in a fixed storage, each linked into the
chain of its bucket and into the recency list, oldest first. A pointer to an
entry is the number of its slot, a null pointer is `none`. The meters are left
out: nothing reads them back.
-/

namespace LibHSC.Mem

open Links

structure Entry (Op R : Type) where
  bucketNext : Option Nat
  older : Option Nat
  newer : Option Nat
  hash : Nat
  operation : Op
  result : R

/-- The slots of the storage, each raw or holding an entry. -/
abbrev Slots (Op R : Type) := Nat → Option (Entry Op R)

structure Cache (Op R : Type) where
  capacity : Nat
  evictBatch : Nat
  buckets : List (Option Nat)
  storage : Slots Op R
  /-- The unused slots, the last one pushed first. -/
  free : List Nat
  front : Option Nat
  back : Option Nat
  size : Nat
  filter : Op → Bool

/-- Double `p` until it is no less than `n`; `n` doublings are enough. -/
def doubleUpTo (n : Nat) : Nat → Nat → Nat
  | 0, p => p
  | fuel + 1, p => if p < n then doubleUpTo n fuel (p * 2) else p

/-- A power of two no less than `n`, at least 8. -/
def roundUp (n : Nat) : Nat := doubleUpTo n n 8

namespace Cache

variable {Op R : Type}

/-- A cache for `capacity` results. The load factor is 0.85 = 17/20. -/
def new (capacity evictBatch : Nat) : Cache Op R where
  capacity := if capacity = 0 then 1 else capacity
  evictBatch := if evictBatch = 0 then 1 else evictBatch
  buckets := List.replicate (roundUp ((if capacity = 0 then 1 else capacity) * 20 / 17)) none
  storage := fun _ => none
  free := List.range (if capacity = 0 then 1 else capacity)
  front := none
  back := none
  size := 0
  filter := fun _ => true

/-- The bucket of a hash. The number of buckets is a power of two. -/
def bucket (c : Cache Op R) (h : Nat) : Nat := h &&& (c.buckets.length - 1)

/-! ## The chain of a bucket -/

/-- Walk a chain to the entry of the operation. A chain has no more links than
there are slots. -/
def findFrom [DecidableEq Op] (storage : Slots Op R) (h : Nat) (op : Op) :
    Nat → Option Nat → Option (Nat × R)
  | 0, _ => none
  | fuel + 1, link =>
    match link with
    | none => none
    | some s =>
      match storage s with
      | none => none
      | some e =>
        if e.hash = h ∧ e.operation = op then some (s, e.result)
        else findFrom storage h op fuel e.bucketNext

def find [DecidableEq Op] (c : Cache Op R) (h : Nat) (op : Op) : Option (Nat × R) :=
  findFrom c.storage h op c.capacity (c.buckets.getD (c.bucket h) none)

/-- The owner of the link to `s`: the bucket itself (`some none`), or an entry. -/
def linkOwner (storage : Slots Op R) (s : Nat) : Nat → Option Nat → Option Nat → Option (Option Nat)
  | 0, _, _ => none
  | fuel + 1, owner, link =>
    if link = some s then some owner
    else
      match link with
      | none => none
      | some p => linkOwner storage s fuel (some p) ((storage p).bind Entry.bucketNext)

/-- Write to the fields of an entry. -/
def modify (storage : Slots Op R) (s : Nat) (f : Entry Op R → Entry Op R) : Slots Op R :=
  Function.update storage s ((storage s).map f)

def unlinkFromBucket (c : Cache Op R) (s : Nat) (e : Entry Op R) : Option (Cache Op R) :=
  match linkOwner c.storage s c.capacity none (c.buckets.getD (c.bucket e.hash) none) with
  | none => none
  | some none => some { c with buckets := c.buckets.set (c.bucket e.hash) e.bucketNext }
  | some (some p) =>
    some { c with storage := modify c.storage p fun o => { o with bucketNext := e.bucketNext } }

/-! ## The recency list -/

def unlinkFromLru (c : Cache Op R) (e : Entry Op R) : Cache Op R :=
  let c := match e.older with
    | some o => { c with storage := modify c.storage o fun p => { p with newer := e.newer } }
    | none => { c with front := e.newer }
  match e.newer with
  | some n => { c with storage := modify c.storage n fun p => { p with older := e.older } }
  | none => { c with back := e.older }

def linkAsNewest (c : Cache Op R) (s : Nat) : Cache Op R :=
  let c := { c with
    storage := modify c.storage s fun e => { e with older := c.back, newer := none } }
  let c := match c.back with
    | some b => { c with storage := modify c.storage b fun p => { p with newer := some s } }
    | none => { c with front := some s }
  { c with back := some s }

/-- Move an entry to the most recently used end. -/
def touch (c : Cache Op R) (s : Nat) : Option (Cache Op R) :=
  if c.back = some s then some c
  else
    match c.storage s with
    | none => none
    | some e => some ((c.unlinkFromLru e).linkAsNewest s)

/-! ## Eviction and insertion -/

/-- Drop the least recently used entry. -/
def evictOldest (c : Cache Op R) : Option (Cache Op R) := do
  let s ← c.front
  let e ← c.storage s
  let c ← c.unlinkFromBucket s e
  let c := c.unlinkFromLru e
  return { c with
    storage := Function.update c.storage s none, free := s :: c.free, size := c.size - 1 }

def evictTimes : Nat → Cache Op R → Option (Cache Op R)
  | 0, c => some c
  | n + 1, c => do
      let c ← c.evictOldest
      evictTimes n c

def evict (c : Cache Op R) : Option (Cache Op R) :=
  evictTimes (min c.evictBatch c.size) c

def insert (c : Cache Op R) (h : Nat) (op : Op) (result : R) : Option (Cache Op R) :=
  match c.free with
  | [] => none
  | s :: free =>
    let e : Entry Op R := ⟨c.buckets.getD (c.bucket h) none, none, none, h, op, result⟩
    let c := { c with
      free := free, storage := Function.update c.storage s (some e),
      buckets := c.buckets.set (c.bucket h) (some s) }
    let c := c.linkAsNewest s
    some { c with size := c.size + 1 }

/-- The slots from a link on, released. -/
def clearFrom : Nat → Option Nat → Slots Op R → List Nat → Slots Op R × List Nat
  | fuel + 1, some s, storage, free =>
    clearFrom fuel ((storage s).bind Entry.newer) (Function.update storage s none) (s :: free)
  | _, _, storage, free => (storage, free)

/-- Drop every entry. -/
def clear (c : Cache Op R) : Cache Op R :=
  let (storage, free) := clearFrom c.capacity c.front c.storage c.free
  { c with
    storage := storage, free := free, buckets := c.buckets.map fun _ => none
    front := none, back := none, size := 0 }

/-! ## A request -/

/-- How a request begins. -/
inductive Entered (R : Type) where
  | filtered
  | hit (result : R)
  | miss
  deriving DecidableEq

/-- A request up to the evaluation. `cacheable` is the operation's own filter. -/
def enter [DecidableEq Op] (c : Cache Op R) (cacheable : Op → Bool) (hash : Op → Nat) (op : Op) :
    Option (Entered R × Cache Op R) :=
  if ¬ (cacheable op && c.filter op) then some (.filtered, c)
  else
    match c.find (hash op) op with
    | some (s, result) => do
        let c ← c.touch s
        return (.hit result, c)
    | none => some (.miss, c)

/-- `if (free_.empty()) evict();` -/
def makeRoom (c : Cache Op R) : Option (Cache Op R) :=
  if c.free = [] then c.evict else some c

/-- A request from the evaluation on: the cache is probed again, since a nested
request may have inserted this very operation. -/
def leave [DecidableEq Op] (c : Cache Op R) (cacheResults : Bool) (hash : Op → Nat) (op : Op)
    (result : R) : Option (R × Cache Op R) :=
  match c.find (hash op) op with
  | some (s, raced) => do
      let c ← c.touch s
      return (raced, c)
  | none =>
    if ¬ cacheResults then some (result, c)
    else do
      let c ← c.makeRoom
      let c ← c.insert (hash op) op result
      let s ← c.back
      let e ← c.storage s
      return (e.result, c)

end Cache

end LibHSC.Mem
