import LibHSC.Dve.Parser
import LibHSC.Surface.Reader

/-!
DVE expressions as surface expressions. Names resolve in the scope of a process and then
globally; constants fold away, variables become leaves, and an integer in boolean position
becomes a comparison with zero.
-/

namespace LibHSC.Dve

open Surface (Datum)

/-- What stops the transformation. -/
structure TransformError where
  line : Nat
  what : String
  deriving DecidableEq, Repr

/-! ## Names -/

structure LeafInfo where
  /-- The surface name. For an array the prefix, the cells being `leaf_i`. -/
  leaf : String
  isByte : Bool
  isArray : Bool
  size : Int
  deriving DecidableEq, Repr

/-- A scope, empty for the global one, and a name. -/
abbrev Key := String × String

/-- What the transformer knows of the names. -/
structure Names where
  consts : Key → Option Int
  vars : Key → Option LeafInfo
  processes : List Process

def atom (s : String) (line : Nat) : Datum := .atom s line

def num (v : Int) (line : Nat) : Datum := .atom (toString v) line

def list (items : List Datum) (line : Nat) : Datum := .list items line

namespace Names

variable (N : Names)

def findConst (scope name : String) : Option Int :=
  if scope ≠ "" then (N.consts (scope, name)).or (N.consts ("", name)) else N.consts ("", name)

/-- The variable a name resolves to, with its key. -/
def findVar (scope name : String) : Option (Key × LeafInfo) :=
  let global := (N.vars ("", name)).map fun v => (("", name), v)
  if scope ≠ "" then ((N.vars (scope, name)).map fun v => ((scope, name), v)).or global
  else global

def resolveVar (scope name : String) (line : Nat) : Except TransformError LeafInfo :=
  match N.findVar scope name with
  | some (_, v) => .ok v
  | none => .error ⟨line, "unknown variable '" ++ name ++ "'"⟩

def findProcess (name : String) : Option Process := N.processes.find? fun p => p.name = name

def resolveProcess (name : String) (line : Nat) : Except TransformError Process :=
  match N.findProcess name with
  | some p => .ok p
  | none => .error ⟨line, "unknown process '" ++ name ++ "'"⟩

end Names

def stateIndex (p : Process) (s : String) (line : Nat) : Except TransformError Nat :=
  match p.states.findIdx? fun t => t = s with
  | some i => .ok i
  | none => .error ⟨line, "unknown state '" ++ s ++ "' in process " ++ p.name⟩

/-! ## Expressions -/

def opText : Eop → String
  | .imply => "imply"
  | .or_ => "or"
  | .and_ => "and"
  | .bor => "|"
  | .band => "&"
  | .bxor => "^"
  | .eq => "=="
  | .ne => "!="
  | .lt => "<"
  | .le => "<="
  | .gt => ">"
  | .ge => ">="
  | .shl => "<<"
  | .shr => ">>"
  | .add => "+"
  | .sub => "-"
  | .mul => "*"
  | .div => "/"
  | .mod => "%"
  | _ => "?"

/-- `strtol` over a whole text, which is a numeral or a name here. -/
def wholeLong (text : String) : Option Int :=
  match text.toList with
  | '-' :: cs => (Surface.digits cs).map fun n => -(n : Int)
  | cs => (Surface.digits cs).map Int.ofNat

/-- The value of an index that is a numeral. -/
def constantIndex (idx : Datum) : Option Int := if idx.isAtom then wholeLong idx.text else none

def cellName (leaf : String) (i : Int) : String := leaf ++ "_" ++ toString i

section Expressions

variable (N : Names) (scope : String)

/-- `Proc.state` as a comparison of its leaf. -/
def procAtom (name field : String) (line : Nat) : Except TransformError Datum := do
  let p ← N.resolveProcess name line
  let k ← stateIndex p field line
  return list [atom "==" line, atom (p.name ++ "_state") line, num k line] line

/-- A prefix operator over an integer: there is no unary minus on the surface. -/
def unaryForm (op : Eop) (a : Datum) (line : Nat) : Datum :=
  match op with
  | .neg => list [atom "-" line, num 0 line, a] line
  | .comp => list [atom "~" line, a] line
  | _ => list [atom "not" line, a] line

/-- An integer-valued datum for an expression. -/
def toInt : Expr → Except TransformError Datum
  | .number v line => .ok (num v line)
  | .name x line =>
    match N.findConst scope x with
    | some c => .ok (num c line)
    | none => do
        let v ← N.resolveVar scope x line
        if v.isArray then .error ⟨line, "array '" ++ x ++ "' used bare"⟩
        else return atom v.leaf line
  | .arrayRef x a line => do
      let v ← N.resolveVar scope x line
      if !v.isArray then .error ⟨line, "'" ++ x ++ "' is not an array"⟩
      else
        let idx ← toInt a
        match constantIndex idx with
        | some i =>
          if i < 0 ∨ v.size ≤ i then
            .error ⟨line, "index " ++ toString i ++ " out of [0," ++ toString v.size ++
              ") for '" ++ x ++ "'"⟩
          else return atom (cellName v.leaf i) line
        | none => return list [atom "at" line, atom v.leaf line, idx] line
  | .procState p s line => procAtom N p s line
  | .unary op a line => do
      let a ← toInt a
      return unaryForm op a line
  | .binary op a b line => do
      let a ← toInt a
      let b ← toInt b
      return list [atom (opText op) line, a, b] line

/-- An integer read as a truth value. -/
def nonZero (line : Nat) (d : Datum) : Datum := list [atom "!=" line, d, num 0 line] line

/-- A boolean-valued datum for an expression. -/
def toBool : Expr → Except TransformError Datum
  | .procState p s line => procAtom N p s line
  | .unary .not_ a line => do
      let a ← toBool a
      return list [atom "not" line, a] line
  | .binary op a b line =>
    match op with
    | .and_ | .or_ => do
        let a ← toBool a
        let b ← toBool b
        return list [atom (opText op) line, a, b] line
    | .imply => do
        let a ← toBool a
        let b ← toBool b
        return list [atom "or" line, list [atom "not" line, a] line, b] line
    | .eq | .ne | .lt | .le | .gt | .ge => do
        let a ← toInt N scope a
        let b ← toInt N scope b
        return list [atom (opText op) line, a, b] line
    | _ => do return nonZero line (← toInt N scope (.binary op a b line))
  | .number v line => do return nonZero line (← toInt N scope (.number v line))
  | .name x line => do return nonZero line (← toInt N scope (.name x line))
  | .arrayRef x a line => do return nonZero line (← toInt N scope (.arrayRef x a line))
  | .unary op a line => do return nonZero line (← toInt N scope (.unary op a line))

end Expressions

/-! ## What an expression is worth -/

/-- The values of the variables, and the place of every process's state in its list. -/
structure Valuation where
  scalar : Key → Int
  cell : Key → Nat → Int
  control : String → Int

/-- A 32-bit value; what leaves the range is undefined. -/
def machine (v : Int) : Option Int := if InInt32 v then some v else none

def truth (b : Bool) : Int := if b then 1 else 0

def unaryValue : Eop → Int → Option Int
  | .neg, v => machine (-v)
  | .comp, v => machine (-v - 1)
  | _, v => some (truth (v = 0))

/-- The operators that read both sides. -/
def binaryValue : Eop → Int → Int → Option Int
  | .add, l, r => machine (l + r)
  | .sub, l, r => machine (l - r)
  | .mul, l, r => machine (l * r)
  | .div, l, r => if r = 0 then none else machine (l.tdiv r)
  | .mod, l, r => if r = 0 then none else machine (l.tmod r)
  | .shl, l, r => if r < 0 ∨ 32 ≤ r then none else machine (l * 2 ^ r.toNat)
  | .shr, l, r => if r < 0 ∨ 32 ≤ r then none else machine (l >>> r.toNat)
  | .band, l, r => machine (Int.land l r)
  | .bor, l, r => machine (Int.lor l r)
  | .bxor, l, r => machine (Int.xor l r)
  | .eq, l, r => some (truth (l = r))
  | .ne, l, r => some (truth (l ≠ r))
  | .lt, l, r => some (truth (l < r))
  | .le, l, r => some (truth (l ≤ r))
  | .gt, l, r => some (truth (l > r))
  | .ge, l, r => some (truth (l ≥ r))
  | _, _, _ => none

/-- The value of the left side that decides a connective, and the value it decides on. -/
def decided : Eop → Int → Option Int
  | .and_, l => if l = 0 then some 0 else none
  | .or_, l => if l = 0 then none else some 1
  | .imply, l => if l = 0 then some 1 else none
  | _, _ => none

def isConnective (op : Eop) : Bool := op = .and_ || op = .or_ || op = .imply

/-- What a bare name stands for: the variable or the constant of the innermost scope. -/
inductive Meaning where
  | variable (key : Key) (info : LeafInfo)
  | constant (c : Int)

def Names.meaningAt (N : Names) (key : Key) : Option Meaning :=
  ((N.vars key).map (.variable key)).or ((N.consts key).map .constant)

def Names.meaning (N : Names) (scope name : String) : Option Meaning :=
  if scope ≠ "" then (N.meaningAt (scope, name)).or (N.meaningAt ("", name))
  else N.meaningAt ("", name)

section Value

variable (N : Names) (σ : Valuation) (scope : String)

/-- The C-like value of an expression, where it has one. A connective does not read the
right side once the left one decides it. -/
def value : Expr → Option Int
  | .number v _ => machine v
  | .name x _ =>
    match N.meaning scope x with
    | some (.variable key info) => if info.isArray then none else machine (σ.scalar key)
    | some (.constant c) => machine c
    | none => none
  | .arrayRef x a _ =>
    match N.findVar scope x with
    | some (key, info) =>
      if info.isArray then
        (value a).bind fun i =>
          if 0 ≤ i ∧ i < info.size then machine (σ.cell key i.toNat) else none
      else none
    | none => none
  | .procState name field _ =>
    (N.findProcess name).bind fun p =>
      (p.states.findIdx? fun s => s = field).map fun k => truth (σ.control name = k)
  | .unary op a _ => (value a).bind (unaryValue op)
  | .binary op a b _ =>
    (value a).bind fun l =>
      if isConnective op then (decided op l).or ((value b).map fun r => truth (r ≠ 0))
      else (value b).bind (binaryValue op l)

end Value

end LibHSC.Dve
