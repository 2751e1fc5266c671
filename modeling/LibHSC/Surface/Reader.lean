import LibHSC.Surface.Parser
import LibHSC.Xpl.Fire

/-!
The expression reader of the surface: data to expressions over frontier
positions, the names resolved through a scope. A boolean form in integer
position reads as 0 or 1, an integer form in boolean position as `!= 0`.
-/

namespace LibHSC.Surface

open Lia

/-- What stops a translation. -/
inductive BuildError where
  | translate (line : Int) (message : String)
  /-- A folded constant leaves the machine range. -/
  | factory (e : Err)
  | eval (e : Xpl.EvalError)
  | interp (e : Xpl.InterpError)

def fail {α : Type} (d : Datum) (message : String) : Except BuildError α :=
  .error (.translate d.line message)

/-- A result of the expression factory. -/
def made {α : Type} : Except Err α → Except BuildError α
  | .ok a => .ok a
  | .error e => .error (.factory e)

/-- The value of a non-empty run of decimal digits. -/
def digits : List Char → Option Nat
  | [] => none
  | cs => cs.foldl (fun acc c => if c.isDigit then acc.map (10 * · + (c.toNat - 48)) else none)
      (some 0)

/-- A whole token read as a 32-bit integer: an optional minus, then digits. -/
def asInt (d : Datum) : Option Int :=
  if d.isAtom then
    let v : Option Int := match d.text.toList with
      | '-' :: cs => (digits cs).map fun n => -(n : Int)
      | cs => (digits cs).map Int.ofNat
    v.filter fun n => -2147483648 ≤ n ∧ n ≤ 2147483647
  else none

/-- The name resolution the reader needs: the position of a scalar leaf, the
positions of an array's cells. -/
structure Scope where
  position : String → Option Nat
  array : String → Option (List Nat)

def comparison : String → Option CmpOp
  | "==" => some .eq
  | "!=" => some .neq
  | "<" => some .lt
  | "<=" => some .leq
  | ">" => some .gt
  | ">=" => some .geq
  | _ => none

def isBoolHead (op : String) : Bool :=
  (comparison op).isSome || op = "and" || op = "or" || op = "not" || op = "imply" || op = "in"

def binaryOp : String → Option BinOp
  | "-" => some .minus
  | "/" => some .div
  | "%" => some .mod
  | "<<" => some .lshift
  | ">>" => some .rshift
  | "&" => some .bitAnd
  | "|" => some .bitOr
  | "^" => some .bitXor
  | _ => none

section Forms

variable (R : ExprIds) (sc : Scope) (d : Datum) (op : String) (xs : List Datum)
  (ints : List (Except BuildError IExpr)) (bools : List (Except BuildError BExpr))

/-- An enumeration: a disjunction of equalities. -/
def memberAlts (v : IExpr) : List Datum → Except BuildError (List BExpr)
  | [] => .ok []
  | k :: ks => do
      match asInt k with
      | none => fail k "'in' expects integer constants"
      | some c => return compare R .eq v (.const c) :: (← memberAlts v ks)

/-- A form with a boolean head, given the readings of its operands. -/
def boolForm : Except BuildError BExpr :=
  match comparison op with
  | some k =>
    match ints with
    | [a, b] => do return compare R k (← a) (← b)
    | _ => fail d ("'" ++ op ++ "' takes two operands")
  | none =>
    if op = "and" then do return conn R .conj (← bools.mapM id)
    else if op = "or" then do return conn R .disj (← bools.mapM id)
    else if op = "not" then
      match bools with
      | [a] => do return neg R (← a)
      | _ => fail d "'not' takes one operand"
    else if op = "imply" then
      match bools with
      | [a, b] => do
          let a ← a
          let b ← b
          return conn R .disj [neg R a, b]
      | _ => fail d "'imply' takes two operands"
    else
      match xs, ints with
      | _ :: k :: ks, v :: _ => do return conn R .disj (← memberAlts R (← v) (k :: ks))
      | _, _ => fail d "'in' takes a value and constants"

def takes (n : String) : Except BuildError IExpr :=
  fail d ("'" ++ op ++ "' takes " ++ n ++ " operands")

/-- A form with an integer head, given the readings of its operands. -/
def intForm : Except BuildError IExpr :=
  if op = "at" then
    match xs, ints with
    | [a, _], [_, i] =>
      match sc.array a.text with
      | none => fail a "not an array"
      | some cells => do return array cells (← i)
    | _, _ => takes d op "2"
  else if op = "~" then
    match ints with
    | [a] => do return bitComp (← a)
    | _ => takes d op "1"
  else
    match ints with
    | [a, b] => do
        let a ← a
        let b ← b
        if op = "+" then made (nary R .plus [a, b])
        else if op = "*" then made (nary R .mult [a, b])
        else
          match binaryOp op with
          | some k => made (binary k a b)
          | none => fail d ("unknown operator '" ++ op ++ "'")
    | _ => takes d op "2"

end Forms

section Read

variable (R : ExprIds) (sc : Scope)

/-- A constant or a scalar leaf. -/
def readAtom (d : Datum) : Except BuildError IExpr :=
  match asInt d with
  | some v => .ok (.const v)
  | none =>
    match sc.position d.text with
    | some p => .ok (.var p)
    | none =>
      if (sc.array d.text).isSome then fail d ("array '" ++ d.text ++ "' used bare")
      else fail d ("unknown leaf '" ++ d.text ++ "'")

mutual

def readInt : Datum → Except BuildError IExpr
  | .atom t n => readAtom sc (.atom t n)
  | .list [] n => fail (.list [] n) "empty expression"
  | .list (h :: xs) n =>
    let d := Datum.list (h :: xs) n
    if isBoolHead d.head then do
      return wrap (← boolForm R d d.head xs (readInts xs) (readBools xs))
    else intForm R sc d d.head xs (readInts xs)

def readBool : Datum → Except BuildError BExpr
  | .atom t n => do return compare R .neq (← readAtom sc (.atom t n)) (.const 0)
  | .list [] n => fail (.list [] n) "empty expression"
  | .list (h :: xs) n =>
    let d := Datum.list (h :: xs) n
    if isBoolHead d.head then boolForm R d d.head xs (readInts xs) (readBools xs)
    else do return compare R .neq (← intForm R sc d d.head xs (readInts xs)) (.const 0)

def readInts : List Datum → List (Except BuildError IExpr)
  | [] => []
  | x :: xs => readInt x :: readInts xs

def readBools : List Datum → List (Except BuildError BExpr)
  | [] => []
  | x :: xs => readBool x :: readBools xs

end

end Read

end LibHSC.Surface
