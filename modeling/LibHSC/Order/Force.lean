import LibHSC.Library.Worklist
import Mathlib.Data.List.Sort
import Mathlib.Logic.Function.Iterate

/-!
FORCE: spring relaxation over the constraints, the cheapest order seen kept. An
order is read off the ranks by a stable sort of all variables, so it has every
variable once whatever the float operations make of the ranks.
-/

namespace LibHSC.Order

/-- The `float` and `double` operations of the relaxation; nothing is asked of them. -/
structure Arith where
  F : Type
  D : Type
  zero : F
  one : F
  two : F
  ofNat : Nat → F
  add : F → F → F
  sub : F → F → F
  mul : F → F → F
  div : F → F → F
  lt : F → F → Bool
  widen : F → D
  zeroD : D
  addD : D → D → D
  mulD : D → D → D
  ltD : D → D → Bool

namespace Arith

variable (A : Arith)

/-- `std::min`. -/
def min (a b : A.F) : A.F := if A.lt b a then b else a

/-- `std::max`. -/
def max (a b : A.F) : A.F := if A.lt a b then b else a

end Arith

/-- Variables one event touches, to be kept close. -/
structure Clique (A : Arith) where
  vars : List Nat
  weight : A.F

/-- Free when the order has `before` before `after`, else the distance times the weight. -/
structure Precedence (A : Arith) where
  before : Nat
  after : Nat
  weight : A.F

section Force

variable (A : Arith)

abbrev Ranks := List A.F

def rankOf (rank : Ranks A) (v : Nat) : A.F := rank.getD v A.zero

/-- The tops-biased span of a clique. -/
def cliqueCost (rank : Ranks A) (cost : A.D) (c : Clique A) : A.D :=
  if c.vars.length < 2 then cost
  else
    let r := rankOf A rank (c.vars.headD 0)
    let lo := c.vars.foldl (fun lo v => A.min lo (rankOf A rank v)) r
    let hi := c.vars.foldl (fun hi v => A.max hi (rankOf A rank v)) r
    A.addD cost (A.mulD (A.widen c.weight) (A.widen (A.sub hi (A.mul A.two lo))))

def precedenceCost (rank : Ranks A) (cost : A.D) (p : Precedence A) : A.D :=
  let d := A.sub (rankOf A rank p.before) (rankOf A rank p.after)
  if A.lt A.zero d then A.addD cost (A.mulD (A.widen p.weight) (A.widen d)) else cost

/-- Summed cost of the current ranks: clique spans and violated precedences. -/
def totalCost (cliques : List (Clique A)) (precedences : List (Precedence A)) (rank : Ranks A) :
    A.D :=
  precedences.foldl (precedenceCost A rank) (cliques.foldl (cliqueCost A rank) A.zeroD)

/-- The pull of each variable, and the weight it is summed over. -/
structure Springs where
  pull : List A.F
  total : List A.F

def Springs.attach (st : Springs A) (v : Nat) (pull weight : A.F) : Springs A :=
  ⟨st.pull.modify v (A.add · pull), st.total.modify v (A.add · weight)⟩

/-- Every variable of a clique is pulled to its center of gravity. -/
def pullClique (rank : Ranks A) (st : Springs A) (c : Clique A) : Springs A :=
  if c.vars.isEmpty then st
  else
    let cog := A.div (c.vars.foldl (fun s v => A.add s (rankOf A rank v)) A.zero)
      (A.ofNat c.vars.length)
    c.vars.foldl (fun st v => st.attach A v (A.mul c.weight cog) c.weight) st

/-- `before` is pulled to the smaller rank of the two, `after` to the larger. -/
def pullPrecedence (rank : Ranks A) (st : Springs A) (p : Precedence A) : Springs A :=
  let lo := A.min (rankOf A rank p.before) (rankOf A rank p.after)
  let hi := A.max (rankOf A rank p.before) (rankOf A rank p.after)
  (st.attach A p.before (A.mul p.weight lo) p.weight).attach A p.after (A.mul p.weight hi) p.weight

/-- The ranks after the pulls; a variable that nothing pulls keeps its own. -/
def move (nvars : Nat) (st : Springs A) (rank : Ranks A) : Ranks A :=
  (List.range nvars).map fun v =>
    let total := st.total.getD v A.zero
    if A.lt A.zero total then A.div (st.pull.getD v A.zero) total else rankOf A rank v

/-- All variables by their ranks, `std::stable_sort`. -/
def byRank (nvars : Nat) (rank : Ranks A) : List Nat :=
  (List.range nvars).insertionSort fun a b => A.lt (rankOf A rank b) (rankOf A rank a) = false

/-- The places of an order as ranks. -/
def places (perm : List Nat) (rank : Ranks A) : Ranks A :=
  perm.zipIdx.foldl (fun rank x => rank.set x.1 (A.ofNat x.2)) rank

structure Relaxation where
  rank : Ranks A
  cost : A.D
  best : List Nat

def relax (nvars : Nat) (cliques : List (Clique A)) (precedences : List (Precedence A))
    (st : Relaxation A) : Relaxation A :=
  let still : Springs A := ⟨List.replicate nvars A.zero, List.replicate nvars A.zero⟩
  let springs := precedences.foldl (pullPrecedence A st.rank)
    (cliques.foldl (pullClique A st.rank) still)
  let moved := move A nvars springs st.rank
  let perm := byRank A nvars moved
  let rank := places A perm moved
  let cost := totalCost A cliques precedences rank
  if A.ltD cost st.cost then ⟨rank, cost, perm⟩ else ⟨rank, st.cost, st.best⟩

/-- `std::iota` from `0.0f`. -/
def iota (nvars : Nat) : Ranks A := List.iterate (A.add · A.one) A.zero nvars

def force (nvars : Nat) (cliques : List (Clique A)) (precedences : List (Precedence A))
    (maxIters : Nat) : List Nat :=
  let best := List.range nvars
  if nvars < 2 ∨ (cliques.isEmpty ∧ precedences.isEmpty) then best
  else
    let maxIters := if maxIters = 0 then Min.min nvars 256 else maxIters
    let rank := iota A nvars
    ((relax A nvars cliques precedences)^[maxIters]
      ⟨rank, totalCost A cliques precedences rank, best⟩).best

/-- The frontier laid anew by FORCE. -/
def applyForce (order : List String) (cliques : List (Clique A))
    (precedences : List (Precedence A)) : List String :=
  Worklist.relist order (force A order.length cliques precedences 0)

variable {A} {nvars : Nat} {cliques : List (Clique A)} {precedences : List (Precedence A)}

theorem byRank_perm (rank : Ranks A) : (byRank A nvars rank).Perm (List.range nvars) :=
  List.perm_insertionSort _ _

/-- An iteration keeps the best order or takes that of the new ranks. -/
theorem relax_perm {st : Relaxation A} (h : st.best.Perm (List.range nvars)) :
    (relax A nvars cliques precedences st).best.Perm (List.range nvars) := by
  unfold relax
  dsimp only
  split
  · exact byRank_perm _
  · exact h

/-- The order returned has every variable once. -/
theorem force_perm (nvars : Nat) (cliques : List (Clique A)) (precedences : List (Precedence A))
    (maxIters : Nat) : (force A nvars cliques precedences maxIters).Perm (List.range nvars) := by
  unfold force
  dsimp only
  split
  · exact .refl _
  · generalize (if maxIters = 0 then Min.min nvars 256 else maxIters) = iters
    induction iters with
    | zero => exact .refl _
    | succ iters ih =>
      rw [Function.iterate_succ_apply']
      exact relax_perm ih

end Force

end LibHSC.Order
