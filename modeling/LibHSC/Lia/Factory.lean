import LibHSC.Lia.Expr
import Mathlib.Data.List.Sort
import Mathlib.Data.List.Dedup

/-!
The normalizing constructors of expressions and the walks built on them:
substitution of a position, substitution of a subexpression, re-rooting, and
the positions an expression reads. Every constructor folds constants, flattens
same-kind operands and orders commutative ones by their ids; a folded constant
that leaves the machine range is loud.
-/

namespace LibHSC.Lia

/-! ## Integer constructors -/

/-- One constant more in the accumulated value. A sum of machine values cannot
leave 64 bits, a product can. -/
def NaryOp.accumulate : NaryOp → Int → Int → Except Err Int
  | .plus, acc, v => .ok (acc + v)
  | .mult, acc, v => checked64 (acc * v)

/-- Splice the operands of a same-kind child: constants into the accumulated
value, the others behind the flat list. -/
def spliceOps (k : NaryOp) : List IExpr → Int → List IExpr → Except Err (Int × List IExpr)
  | [], acc, flat => .ok (acc, flat)
  | .const v :: ops, acc, flat => do spliceOps k ops (← k.accumulate acc v) flat
  | op :: ops, acc, flat => spliceOps k ops acc (flat ++ [op])

/-- The operands flattened and the constants merged; `none` when an operand is
undefined. -/
def gatherOps (k : NaryOp) : List IExpr → Int → List IExpr → Except Err (Option (Int × List IExpr))
  | [], acc, flat => .ok (some (acc, flat))
  | .undef :: _, _, _ => .ok none
  | .const v :: xs, acc, flat => do gatherOps k xs (← k.accumulate acc v) flat
  | .nary k' ops :: xs, acc, flat =>
    if k' = k then do
      let (acc', flat') ← spliceOps k ops acc flat
      gatherOps k xs acc' flat'
    else gatherOps k xs acc (flat ++ [.nary k' ops])
  | x :: xs, acc, flat => gatherOps k xs acc (flat ++ [x])

def sortOps (R : ExprIds) (xs : List IExpr) : List IExpr :=
  xs.insertionSort fun a b => R.iexpr a ≤ R.iexpr b

/-- The merged constant is put back unless it is neutral beside other operands. -/
def withConst (k : NaryOp) (c : Int) (flat : List IExpr) : List IExpr :=
  if c ≠ k.neutral ∨ flat = [] then flat ++ [.const c] else flat

/-- A single operand stands for itself. -/
def packOps (R : ExprIds) (k : NaryOp) : List IExpr → IExpr
  | [x] => x
  | flat => .nary k (sortOps R flat)

/-- A sum or a product. A zero factor absorbs whatever stands beside it. -/
def nary (R : ExprIds) (k : NaryOp) (xs : List IExpr) : Except Err IExpr := do
  match ← gatherOps k xs k.neutral [] with
  | none => return .undef
  | some (acc, flat) =>
    if k = .mult ∧ acc = 0 then return .const 0
    return packOps R k (withConst k (← narrow acc) flat)

def add (R : ExprIds) (a b : IExpr) : Except Err IExpr := nary R .plus [a, b]

def binary (k : BinOp) (a b : IExpr) : Except Err IExpr :=
  match a, b with
  | .undef, _ => .ok .undef
  | _, .undef => .ok .undef
  | .const l, .const r => do
      match ← fold k l r with
      | none => return .undef
      | some v => return .const (← narrow v)
  | a, b => .ok (.binary k a b)

def bitComp : IExpr → IExpr
  | .undef => .undef
  | .const v => .const (-v - 1)
  | a => .bitComp a

/-- The access `tab[index]`. A constant index folds to the cell's variable, out
of range to the undefined expression. -/
def array (cells : List Nat) : IExpr → IExpr
  | .undef => .undef
  | .const i =>
    if i < 0 then .undef
    else match cells[i.toNat]? with
      | some p => .var p
      | none => .undef
  | index => .array cells index

def wrap : BExpr → IExpr
  | .btrue => .const 1
  | .bfalse => .const 0
  | .bundef => .undef
  | b => .wrapBool b

/-! ## Boolean constructors -/

/-- What reflexivity decides of `x op x`. -/
def CmpOp.reflexive : CmpOp → Bool
  | .eq => true
  | .leq => true
  | .geq => true
  | .neq => false
  | .lt => false
  | .gt => false

def ofBool (b : Bool) : BExpr := if b then .btrue else .bfalse

def compare (R : ExprIds) (k : CmpOp) (l r : IExpr) : BExpr :=
  match l, r with
  | .undef, _ => .bundef
  | _, .undef => .bundef
  | .const x, .const y => ofBool (cmpEval k x y)
  | l, r =>
    if l = r then ofBool k.reflexive
    else if (k = .eq ∨ k = .neq) ∧ R.iexpr r < R.iexpr l then .cmp k r l
    else .cmp k l r

/-- The operands of a connective, the neutral ones dropped and same-kind ones
spliced. An undefined operand is kept: the state decides. -/
def flattenConn (k : ConnOp) : List BExpr → List BExpr
  | [] => []
  | .conn k' ops :: xs =>
    if k' = k then ops ++ flattenConn k xs else .conn k' ops :: flattenConn k xs
  | x :: xs => if x = k.neutral then flattenConn k xs else x :: flattenConn k xs

def sortBools (R : ExprIds) (xs : List BExpr) : List BExpr :=
  xs.insertionSort fun a b => R.bexpr a ≤ R.bexpr b

def packBools (k : ConnOp) : List BExpr → BExpr
  | [] => k.neutral
  | [x] => x
  | flat => .conn k flat

def conn (R : ExprIds) (k : ConnOp) (xs : List BExpr) : BExpr :=
  if k.absorbing ∈ xs then k.absorbing
  else packBools k (sortBools R (flattenConn k xs).dedup)

def conj (R : ExprIds) (a b : BExpr) : BExpr := conn R .conj [a, b]

def neg (R : ExprIds) : BExpr → BExpr
  | .btrue => .bfalse
  | .bfalse => .btrue
  | .bundef => .bundef
  | .cmp k l r => compare R (flipped k) l r
  | .neg a => a
  | .conn k ops => .neg (.conn k ops)

/-! ## The rebuilding walk -/

section Walk

variable (R : ExprIds) (leaf : IExpr → Option IExpr) (cell : Nat → Nat)

mutual

/-- The walk shared by the substitutions and the re-rooting: a subexpression
that `leaf` knows is replaced, the others are rebuilt by their constructors.
`cell` moves the cells of an access, which are placement data. -/
def rebuild (e : IExpr) : Except Err IExpr :=
  match leaf e with
  | some v => .ok v
  | none =>
    match e with
    | .undef => .ok .undef
    | .const c => .ok (.const c)
    | .var p => .ok (.var p)
    | .nary k ops => do nary R k (← rebuildList ops)
    | .binary k a b => do binary k (← rebuild a) (← rebuild b)
    | .bitComp a => do return bitComp (← rebuild a)
    | .array cells index => do return array (cells.map cell) (← rebuild index)
    | .wrapBool b => do return wrap (← rebuildBool b)

def rebuildList : List IExpr → Except Err (List IExpr)
  | [] => .ok []
  | x :: xs => do return (← rebuild x) :: (← rebuildList xs)

def rebuildBool : BExpr → Except Err BExpr
  | .bfalse => .ok .bfalse
  | .btrue => .ok .btrue
  | .bundef => .ok .bundef
  | .cmp k l r => do return compare R k (← rebuild l) (← rebuild r)
  | .conn k ops => do return conn R k (← rebuildBoolList ops)
  | .neg a => do return neg R (← rebuildBool a)

def rebuildBoolList : List BExpr → Except Err (List BExpr)
  | [] => .ok []
  | x :: xs => do return (← rebuildBool x) :: (← rebuildBoolList xs)

end

end Walk

/-- The replacement of one subexpression. -/
def replacing (sub v e : IExpr) : Option IExpr := if e = sub then some v else none

/-- Replace position `pos` by `v`, renormalizing. The cells of an access are
never substituted into. -/
def subst (R : ExprIds) (e : IExpr) (pos : Nat) (v : IExpr) : Except Err IExpr :=
  rebuild R (replacing (.var pos) v) id e

def substBool (R : ExprIds) (e : BExpr) (pos : Nat) (v : IExpr) : Except Err BExpr :=
  rebuildBool R (replacing (.var pos) v) id e

/-- The assertion `(sub := v)` applied: every occurrence of `sub` is replaced,
renormalizing. -/
def substSubexpr (R : ExprIds) (e sub v : IExpr) : Except Err IExpr :=
  rebuild R (replacing sub v) id e

def substSubexprBool (R : ExprIds) (e : BExpr) (sub v : IExpr) : Except Err BExpr :=
  rebuildBool R (replacing sub v) id e

def shiftPos (delta : Int) (p : Nat) : Nat := ((p : Int) + delta).toNat

def shifting (delta : Int) : IExpr → Option IExpr
  | .var p => some (.var (shiftPos delta p))
  | _ => none

/-- Shift every scalar position and every cell position by `delta`. -/
def shiftPositions (R : ExprIds) (e : IExpr) (delta : Int) : Except Err IExpr :=
  if delta = 0 then .ok e else rebuild R (shifting delta) (shiftPos delta) e

def shiftPositionsBool (R : ExprIds) (e : BExpr) (delta : Int) : Except Err BExpr :=
  if delta = 0 then .ok e else rebuildBool R (shifting delta) (shiftPos delta) e

/-! ## Reading -/

mutual

/-- The scalar positions read, in the order of the walk. -/
def collect : IExpr → List Nat
  | .undef => []
  | .const _ => []
  | .var p => [p]
  | .nary _ ops => collectList ops
  | .binary _ a b => collect a ++ collect b
  | .bitComp a => collect a
  | .array _ index => collect index
  | .wrapBool b => collectBool b

def collectList : List IExpr → List Nat
  | [] => []
  | x :: xs => collect x ++ collectList xs

def collectBool : BExpr → List Nat
  | .bfalse => []
  | .btrue => []
  | .bundef => []
  | .cmp _ l r => collect l ++ collect r
  | .conn _ ops => collectBoolList ops
  | .neg a => collectBool a

def collectBoolList : List BExpr → List Nat
  | [] => []
  | x :: xs => collectBool x ++ collectBoolList xs

end

mutual

/-- Every position named as a cell by an access. -/
def collectArrays : IExpr → List Nat
  | .undef => []
  | .const _ => []
  | .var _ => []
  | .nary _ ops => collectArraysList ops
  | .binary _ a b => collectArrays a ++ collectArrays b
  | .bitComp a => collectArrays a
  | .array cells index => cells ++ collectArrays index
  | .wrapBool b => collectArraysBool b

def collectArraysList : List IExpr → List Nat
  | [] => []
  | x :: xs => collectArrays x ++ collectArraysList xs

def collectArraysBool : BExpr → List Nat
  | .bfalse => []
  | .btrue => []
  | .bundef => []
  | .cmp _ l r => collectArrays l ++ collectArrays r
  | .conn _ ops => collectArraysBoolList ops
  | .neg a => collectArraysBool a

def collectArraysBoolList : List BExpr → List Nat
  | [] => []
  | x :: xs => collectArraysBool x ++ collectArraysBoolList xs

end

/-- Ascending, deduplicated. -/
def sortPositions (ps : List Nat) : List Nat := ps.dedup.insertionSort (· ≤ ·)

def support (e : IExpr) : List Nat := sortPositions (collect e)

def supportBool (e : BExpr) : List Nat := sortPositions (collectBool e)

def arrayPositions (e : IExpr) : List Nat := sortPositions (collectArrays e)

def arrayPositionsBool (e : BExpr) : List Nat := sortPositions (collectArraysBool e)

end LibHSC.Lia
