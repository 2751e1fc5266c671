import LibHSC.Lia.Exact
import LibHSC.Library.Paths
import Mathlib.Data.List.Sort
import Mathlib.Data.List.Dedup

/-!
The CTL formulas: construction with normalisation, negation normal form, the
structural queries. A formula is modelled as its tree; the ids of the nodes only
order the operands of a connective. An atom of a formula has one of three truth
values at a state, and so has a formula.
-/

namespace LibHSC.Ctl

open Lia (ConnOp Truth)

/-- The path operators with one child. -/
inductive UnaryOp
  | ex
  | ax
  | ef
  | af
  | eg
  | ag
deriving DecidableEq, Repr

/-- The path operators with two: left, right. -/
inductive BinaryOp
  | eu
  | au
  | ew
  | aw
deriving DecidableEq, Repr

inductive Formula
  | atom (a : Nat)
  | tru
  | fls
  | not (f : Formula)
  | nary (k : ConnOp) (kids : List Formula)
  | unary (o : UnaryOp) (f : Formula)
  | binary (o : BinaryOp) (left right : Formula)

mutual

def Formula.beq : Formula → Formula → Bool
  | .atom a, .atom b => a == b
  | .tru, .tru => true
  | .fls, .fls => true
  | .not f, .not g => Formula.beq f g
  | .nary k fs, .nary k' gs => k == k' && Formula.beqList fs gs
  | .unary o f, .unary o' g => o == o' && Formula.beq f g
  | .binary o f g, .binary o' f' g' => o == o' && Formula.beq f f' && Formula.beq g g'
  | _, _ => false

def Formula.beqList : List Formula → List Formula → Bool
  | [], [] => true
  | f :: fs, g :: gs => Formula.beq f g && Formula.beqList fs gs
  | _, _ => false

end

mutual

theorem Formula.beq_iff : (f g : Formula) → (Formula.beq f g = true ↔ f = g)
  | .atom a, g => by cases g <;> simp [Formula.beq]
  | .tru, g => by cases g <;> simp [Formula.beq]
  | .fls, g => by cases g <;> simp [Formula.beq]
  | .not f, g => by cases g <;> simp [Formula.beq, Formula.beq_iff f]
  | .nary k fs, g => by cases g <;> simp [Formula.beq, Formula.beqList_iff fs]
  | .unary o f, g => by cases g <;> simp [Formula.beq, Formula.beq_iff f]
  | .binary o f f', g => by
    cases g <;> simp [Formula.beq, Formula.beq_iff f, Formula.beq_iff f', and_assoc]

theorem Formula.beqList_iff : (fs gs : List Formula) → (Formula.beqList fs gs = true ↔ fs = gs)
  | [], gs => by cases gs <;> simp [Formula.beqList]
  | f :: fs, gs => by
    cases gs <;> simp [Formula.beqList, Formula.beq_iff f, Formula.beqList_iff fs]

end

instance : DecidableEq Formula := fun f g => decidable_of_iff _ (Formula.beq_iff f g)

/-! ## Construction -/

def constant (b : Bool) : Formula := if b then .tru else .fls

def negation : Formula → Formula
  | .tru => .fls
  | .fls => .tru
  | .not f => f
  | f => .not f

def neutral : ConnOp → Formula
  | .conj => .tru
  | .disj => .fls

def absorbing : ConnOp → Formula
  | .conj => .fls
  | .disj => .tru

def dualConn : ConnOp → ConnOp
  | .conj => .disj
  | .disj => .conj

section Construction

variable (ids : Formula → Nat)

/-- Same-operator children spliced, neutral ones dropped. -/
def flattenKids (k : ConnOp) : List Formula → List Formula
  | [] => []
  | .nary k' fs :: gs =>
    if k' = k then fs ++ flattenKids k gs else .nary k' fs :: flattenKids k gs
  | f :: gs => if f = neutral k then flattenKids k gs else f :: flattenKids k gs

def packKids (k : ConnOp) : List Formula → Formula
  | [] => neutral k
  | [f] => f
  | fs => .nary k fs

def sortKids (fs : List Formula) : List Formula := fs.insertionSort fun f g => ids f ≤ ids g

/-- A conjunction or a disjunction: flattened, constants folded, deduplicated. -/
def nary (k : ConnOp) (kids : List Formula) : Formula :=
  if absorbing k ∈ kids then absorbing k
  else packKids k (sortKids ids (flattenKids k kids).dedup)

def UnaryOp.dual : UnaryOp → UnaryOp
  | .ex => .ax
  | .ax => .ex
  | .ef => .ag
  | .ag => .ef
  | .eg => .af
  | .af => .eg

def BinaryOp.dual : BinaryOp → BinaryOp
  | .eu => .aw
  | .au => .ew
  | .ew => .au
  | .aw => .eu

mutual

/-- Negation normal form: `not` only over atoms. -/
def nnf : Formula → Formula
  | .atom a => .atom a
  | .tru => .tru
  | .fls => .fls
  | .not f => negate f
  | .nary k kids => nary ids k (nnfList kids)
  | .unary o f => .unary o (nnf f)
  | .binary o f g => .binary o (nnf f) (nnf g)

/-- The negation normal form of the negation. -/
def negate : Formula → Formula
  | .atom a => negation (.atom a)
  | .tru => .fls
  | .fls => .tru
  | .not f => nnf f
  | .nary k kids => nary ids (dualConn k) (negateList kids)
  | .unary o f => .unary o.dual (negate f)
  | .binary o f g => .binary o.dual (negate g) (nary ids .conj [negate f, negate g])

def nnfList : List Formula → List Formula
  | [] => []
  | f :: fs => nnf f :: nnfList fs

def negateList : List Formula → List Formula
  | [] => []
  | f :: fs => negate f :: negateList fs

end

theorem nnfList_eq (fs : List Formula) : nnfList ids fs = fs.map (nnf ids) := by
  induction fs with
  | nil => rfl
  | cons f fs ih => rw [nnfList, List.map_cons, ih]

theorem negateList_eq (fs : List Formula) : negateList ids fs = fs.map (negate ids) := by
  induction fs with
  | nil => rfl
  | cons f fs ih => rw [negateList, List.map_cons, ih]

end Construction

/-! ## Structural queries -/

mutual

/-- A state formula: no path operator anywhere below. -/
def isState : Formula → Bool
  | .not f => isState f
  | .nary _ kids => isStateList kids
  | .unary _ _ => false
  | .binary _ _ _ => false
  | _ => true

def isStateList : List Formula → Bool
  | [] => true
  | f :: fs => isState f && isStateList fs

end

inductive Quantifiers
  | none
  | existential
  | universal
  | mixed
deriving DecidableEq, Repr

def UnaryOp.isExistential : UnaryOp → Bool
  | .ex => true
  | .ef => true
  | .eg => true
  | _ => false

def BinaryOp.isExistential : BinaryOp → Bool
  | .eu => true
  | .ew => true
  | _ => false

def quantifierOf (existential : Bool) : Quantifiers :=
  if existential then .existential else .universal

def Quantifiers.combine : Quantifiers → Quantifiers → Quantifiers
  | q, .none => q
  | .none, q => q
  | q, q' => if q = q' then q else .mixed

mutual

/-- The path quantifiers of a formula in negation normal form. -/
def pathQuantifiers : Formula → Quantifiers
  | .not f => pathQuantifiers f
  | .nary _ kids => pathQuantifiersList .none kids
  | .unary o f => (quantifierOf o.isExistential).combine (pathQuantifiers f)
  | .binary o f g =>
    ((quantifierOf o.isExistential).combine (pathQuantifiers f)).combine (pathQuantifiers g)
  | _ => .none

def pathQuantifiersList (q : Quantifiers) : List Formula → Quantifiers
  | [] => q
  | f :: fs => pathQuantifiersList (q.combine (pathQuantifiers f)) fs

end

mutual

/-- Convertible to forward form without putting a negation over a path operator. -/
def convertible (f : Formula) : Bool :=
  isState f || match f with
    | .unary o _ => o.isExistential
    | .binary o _ _ => o.isExistential
    | .nary _ kids => convertibleList kids
    | _ => false

def convertibleList : List Formula → Bool
  | [] => true
  | f :: fs => convertible f && convertibleList fs

end

end LibHSC.Ctl
