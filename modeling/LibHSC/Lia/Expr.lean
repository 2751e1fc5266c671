import LibHSC.IntSet
import Mathlib.Data.Int.Bitwise

/-!
Interned integer and boolean expressions over positions: the interchange
theory. A held expression is a value of `IExpr` or `BExpr`; the ids of the two
intern tables (`ExprIds`) only fix the order of commutative operands.

An inline constant and a wide one are both `const`: `isConst` tells them apart,
as the tag bit of a code does.
-/

namespace LibHSC.Lia

inductive NaryOp where
  | plus
  | mult
  deriving DecidableEq, Repr

inductive BinOp where
  | minus
  | div
  | mod
  | pow
  | bitAnd
  | bitOr
  | bitXor
  | lshift
  | rshift
  deriving DecidableEq, Repr

inductive CmpOp where
  | eq
  | neq
  | lt
  | leq
  | gt
  | geq
  deriving DecidableEq, Repr

inductive ConnOp where
  | conj
  | disj
  deriving DecidableEq, Repr

mutual

/-- An integer-valued expression; `undef` is the undefined one. -/
inductive IExpr where
  | undef
  | const (v : Int)
  | var (pos : Nat)
  | nary (k : NaryOp) (ops : List IExpr)
  | binary (k : BinOp) (a b : IExpr)
  | bitComp (a : IExpr)
  | array (cells : List Nat) (index : IExpr)
  | wrapBool (b : BExpr)

/-- A boolean-valued expression. -/
inductive BExpr where
  | bfalse
  | btrue
  | bundef
  | cmp (k : CmpOp) (l r : IExpr)
  | conn (k : ConnOp) (ops : List BExpr)
  | neg (a : BExpr)

end

/-! ## Equality of codes -/

mutual

def IExpr.beq : IExpr → IExpr → Bool
  | .undef, .undef => true
  | .const v, .const w => v == w
  | .var p, .var q => p == q
  | .nary k xs, .nary k' ys => k == k' && IExpr.beqList xs ys
  | .binary k a b, .binary k' a' b' => k == k' && IExpr.beq a a' && IExpr.beq b b'
  | .bitComp a, .bitComp a' => IExpr.beq a a'
  | .array cs i, .array cs' i' => cs == cs' && IExpr.beq i i'
  | .wrapBool b, .wrapBool b' => BExpr.beq b b'
  | _, _ => false

def IExpr.beqList : List IExpr → List IExpr → Bool
  | [], [] => true
  | x :: xs, y :: ys => IExpr.beq x y && IExpr.beqList xs ys
  | _, _ => false

def BExpr.beq : BExpr → BExpr → Bool
  | .bfalse, .bfalse => true
  | .btrue, .btrue => true
  | .bundef, .bundef => true
  | .cmp k l r, .cmp k' l' r' => k == k' && IExpr.beq l l' && IExpr.beq r r'
  | .conn k xs, .conn k' ys => k == k' && BExpr.beqList xs ys
  | .neg a, .neg a' => BExpr.beq a a'
  | _, _ => false

def BExpr.beqList : List BExpr → List BExpr → Bool
  | [], [] => true
  | x :: xs, y :: ys => BExpr.beq x y && BExpr.beqList xs ys
  | _, _ => false

end

mutual

theorem IExpr.beq_iff : (a b : IExpr) → (IExpr.beq a b = true ↔ a = b)
  | .undef, b => by cases b <;> simp [IExpr.beq]
  | .const v, b => by cases b <;> simp [IExpr.beq]
  | .var p, b => by cases b <;> simp [IExpr.beq]
  | .nary k xs, b => by cases b <;> simp [IExpr.beq, IExpr.beqList_iff xs]
  | .binary k x y, b => by
    cases b <;> simp [IExpr.beq, IExpr.beq_iff x, IExpr.beq_iff y, and_assoc]
  | .bitComp x, b => by cases b <;> simp [IExpr.beq, IExpr.beq_iff x]
  | .array cs i, b => by cases b <;> simp [IExpr.beq, IExpr.beq_iff i]
  | .wrapBool x, b => by cases b <;> simp [IExpr.beq, BExpr.beq_iff x]

theorem IExpr.beqList_iff : (xs ys : List IExpr) → (IExpr.beqList xs ys = true ↔ xs = ys)
  | [], ys => by cases ys <;> simp [IExpr.beqList]
  | x :: xs, ys => by
    cases ys <;> simp [IExpr.beqList, IExpr.beq_iff x, IExpr.beqList_iff xs]

theorem BExpr.beq_iff : (a b : BExpr) → (BExpr.beq a b = true ↔ a = b)
  | .bfalse, b => by cases b <;> simp [BExpr.beq]
  | .btrue, b => by cases b <;> simp [BExpr.beq]
  | .bundef, b => by cases b <;> simp [BExpr.beq]
  | .cmp k l r, b => by
    cases b <;> simp [BExpr.beq, IExpr.beq_iff l, IExpr.beq_iff r, and_assoc]
  | .conn k xs, b => by cases b <;> simp [BExpr.beq, BExpr.beqList_iff xs]
  | .neg x, b => by cases b <;> simp [BExpr.beq, BExpr.beq_iff x]

theorem BExpr.beqList_iff : (xs ys : List BExpr) → (BExpr.beqList xs ys = true ↔ xs = ys)
  | [], ys => by cases ys <;> simp [BExpr.beqList]
  | x :: xs, ys => by
    cases ys <;> simp [BExpr.beqList, BExpr.beq_iff x, BExpr.beqList_iff xs]

end

instance : DecidableEq IExpr := fun a b => decidable_of_iff _ (IExpr.beq_iff a b)

instance : DecidableEq BExpr := fun a b => decidable_of_iff _ (BExpr.beq_iff a b)

/-- The ids of the two expression tables. -/
structure ExprIds where
  iexpr : IExpr → Nat
  bexpr : BExpr → Nat

/-- An inline constant: magnitude below 2^30. A wider one is a node. -/
def isConst : IExpr → Bool
  | .const v => decide (-1073741824 < v ∧ v < 1073741824)
  | _ => false

/-- A value-bearing code: an inline constant or a wide constant node. -/
def isValue : IExpr → Bool
  | .const _ => true
  | _ => false

/-! ## Checked arithmetic -/

def fitsInt64 (v : Int) : Bool := decide (-9223372036854775808 ≤ v ∧ v ≤ 9223372036854775807)

/-- A 64-bit operation whose overflow is loud. -/
def checked64 (v : Int) : Except Err Int :=
  if fitsInt64 v then .ok v else .error .overflow

/-- A plain 64-bit operation: its overflow is undefined. -/
def plain64 (v : Int) : Except Err Int :=
  if fitsInt64 v then .ok v else .error .undefinedBehaviour

/-- A folded value must land back in a machine value; leaving it is loud. -/
def narrow (v : Int) : Except Err Int :=
  if InInt32 v then .ok v else .error .overflow

def powLoop (l : Int) : Nat → Int → Except Err Int
  | 0, acc => .ok acc
  | n + 1, acc => do powLoop l n (← checked64 (acc * l))

/-- Fold a binary operator over two values; `none` is the undefined result. -/
def fold : BinOp → Int → Int → Except Err (Option Int)
  | .minus, l, r => do return some (← plain64 (l - r))
  | .div, l, r => if r = 0 then .ok none else do return some (← plain64 (l.tdiv r))
  | .mod, l, r =>
    if r = 0 then .ok none
    else if l = -9223372036854775808 ∧ r = -1 then .error .undefinedBehaviour
    else .ok (some (l.tmod r))
  | .pow, l, r => if r < 0 then .ok none else do return some (← powLoop l r.toNat 1)
  | .bitAnd, l, r => .ok (some (Int.land l r))
  | .bitOr, l, r => .ok (some (Int.lor l r))
  | .bitXor, l, r => .ok (some (Int.xor l r))
  | .lshift, l, r =>
    if r < 0 ∨ 32 ≤ r then .ok none else do return some (← checked64 (l * 2 ^ r.toNat))
  | .rshift, l, r => if r < 0 ∨ 32 ≤ r then .ok none else .ok (some (l >>> r.toNat))

def cmpEval : CmpOp → Int → Int → Bool
  | .eq, l, r => l == r
  | .neq, l, r => l != r
  | .lt, l, r => decide (l < r)
  | .leq, l, r => decide (l ≤ r)
  | .gt, l, r => decide (l > r)
  | .geq, l, r => decide (l ≥ r)

def flipped : CmpOp → CmpOp
  | .eq => .neq
  | .neq => .eq
  | .lt => .geq
  | .geq => .lt
  | .gt => .leq
  | .leq => .gt

/-! ## Evaluation -/

/-- A guard can hold, fail, or be undefined. -/
inductive Truth where
  | no
  | yes
  | undef
  deriving DecidableEq, Repr

def NaryOp.neutral : NaryOp → Int
  | .plus => 0
  | .mult => 1

def NaryOp.eval : NaryOp → Int → Int → Int
  | .plus, l, r => l + r
  | .mult, l, r => l * r

def Truth.ofBool (b : Bool) : Truth := if b then .yes else .no

theorem Truth.ofBool_yes {b : Bool} : Truth.ofBool b = .yes ↔ b = true := by
  cases b <;> decide

def Truth.not : Truth → Truth
  | .yes => .no
  | .no => .yes
  | .undef => .undef

def ConnOp.neutral : ConnOp → BExpr
  | .conj => .btrue
  | .disj => .bfalse

def ConnOp.absorbing : ConnOp → BExpr
  | .conj => .bfalse
  | .disj => .btrue

/-- The truth value that decides a connective beside anything. -/
def ConnOp.decisive : ConnOp → Truth
  | .conj => .no
  | .disj => .yes

/-- Strong Kleene, one operand more: a decisive value wins even beside an
undefined one. -/
def ConnOp.step (k : ConnOp) (acc t : Truth) : Truth :=
  if acc = k.decisive ∨ t = k.decisive then k.decisive
  else if acc = .undef ∨ t = .undef then .undef
  else acc

mutual

/-- The value of an expression where `env` gives the value at each position;
`none` is undefined. An access whose index is still open reads as undefined. -/
def evalInt (env : List Int) : IExpr → Except Err (Option Int)
  | .undef => .ok none
  | .const v => .ok (some v)
  | .var p =>
    match env[p]? with
    | some v => .ok (some v)
    | none => .error .logic
  | .nary k ops => evalNary env k k.neutral ops
  | .binary k a b => do
      match ← evalInt env a with
      | none => return none
      | some l =>
        match ← evalInt env b with
        | none => return none
        | some r => fold k l r
  | .bitComp a => do
      match ← evalInt env a with
      | none => return none
      | some v => return some (-v - 1)
  | .array _ _ => .ok none
  | .wrapBool b => do
      match ← evalBool env b with
      | .yes => return some 1
      | .no => return some 0
      | .undef => return none

def evalNary (env : List Int) (k : NaryOp) : Int → List IExpr → Except Err (Option Int)
  | acc, [] => .ok (some acc)
  | acc, x :: xs => do
      match ← evalInt env x with
      | none => return none
      | some v => evalNary env k (← checked64 (k.eval acc v)) xs

def evalBool (env : List Int) : BExpr → Except Err Truth
  | .bfalse => .ok .no
  | .btrue => .ok .yes
  | .bundef => .ok .undef
  | .cmp k l r => do
      match ← evalInt env l with
      | none => return .undef
      | some x =>
        match ← evalInt env r with
        | none => return .undef
        | some y => return Truth.ofBool (cmpEval k x y)
  | .conn k ops => evalConn env k (k.decisive.not) ops
  | .neg a => do return (← evalBool env a).not

/-- Every operand is read: a decided connective does not stop early. -/
def evalConn (env : List Int) (k : ConnOp) : Truth → List BExpr → Except Err Truth
  | acc, [] => .ok acc
  | acc, x :: xs => do evalConn env k (k.step acc (← evalBool env x)) xs

end

end LibHSC.Lia
