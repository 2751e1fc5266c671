import LibHSC.Fsp.Lts
import Mathlib.Algebra.Group.Int.Defs
import Mathlib.Algebra.Group.Nat.Defs

/-!
The grounding of one FSP process: expressions and ranges under an environment, label
patterns expanded to ground labels, named states explored through a queue while the
states inside a prefix chain are expanded in place.

Values are `long`: an operation whose result leaves its range, a shift by a count outside
it and the counter of a loop that ends at its largest value have no result.
-/

namespace LibHSC.Fsp

/-! ## The model as parsed -/

/-- `unary` and `binary` carry the operator token. -/
inductive Expr
  | integer (value : Int)
  | name (name : String)
  | unary (op : String) (a : Expr)
  | binary (op : String) (a b : Expr)

/-- A declared range, or inclusive bounds. -/
inductive Rng
  | named (name : String)
  | inline (lo hi : Expr)

mutual

/-- One element of a label pattern. -/
inductive LabelElem
  | name (text : String)
  | index (ix : Expr)
  | choice (range : Rng)
  | binder (var : String) (range : Rng)
  | set (alts : List LabelPattern)

inductive LabelPattern
  | mk (elems : List LabelElem) (line : Int)

end

/-- A state reference: target or initial. -/
structure StateRef where
  name : String
  args : List Expr
  isError : Bool
  line : Int

/-- One branch of a body. The parser gives it a label. -/
structure Branch where
  guard : Option Expr
  labels : List LabelPattern
  target : StateRef
  line : Int
  labelled : labels ≠ []

structure StateDef where
  name : String
  params : List (String × Rng)
  body : List Branch

/-- The initial local expression is a reference, or an anonymous body. -/
structure Process where
  name : String
  isProperty : Bool
  initRef : Option StateRef
  initBody : List Branch
  states : List StateDef
  extension : List LabelPattern
  hidden : List LabelPattern
  line : Int

structure Model where
  consts : List (String × Expr)
  ranges : List (String × Rng)

/-! ## Expressions -/

/-- How a grounding ends without a result: a `ground_error`, or arithmetic that the
language leaves undefined. -/
inductive Stop
  | error (line : Int) (what : String)
  | overflow

abbrev Env := List (String × Int)

def longMax : Int := 9223372036854775807

def longMin : Int := -9223372036854775808

def long (v : Int) : Except Stop Int :=
  if longMin ≤ v ∧ v ≤ longMax then .ok v else .error .overflow

def flag (b : Bool) : Int := if b then 1 else 0

def applyUnary (op : String) (a : Int) (line : Int) : Except Stop Int :=
  if op = "-" then long (-a)
  else if op = "!" then .ok (flag (a = 0))
  else .error (.error line ("unknown unary operator '" ++ op ++ "'"))

def divide (op : String) (a b : Int) (line : Int) : Except Stop Int :=
  if b = 0 then .error (.error line "division by zero")
  else if op = "/" then long (a.tdiv b)
  -- the remainder of the smallest value by -1 traps as the quotient does
  else (long (a.tdiv b)).map fun _ => a.tmod b

/-- The operators past the short circuits. -/
def applyBinary (op : String) (a b : Int) (line : Int) : Except Stop Int :=
  if op = "+" then long (a + b)
  else if op = "-" then long (a - b)
  else if op = "*" then long (a * b)
  else if op = "/" ∨ op = "%" then divide op a b line
  else if op = "<<" then
    if 0 ≤ b ∧ b < 64 then .ok ((a * 2 ^ b.toNat).bmod (2 ^ 64)) else .error .overflow
  else if op = ">>" then
    if 0 ≤ b ∧ b < 64 then .ok (a / 2 ^ b.toNat) else .error .overflow
  else if op = "==" then .ok (flag (a = b))
  else if op = "!=" then .ok (flag (a ≠ b))
  else if op = "<" then .ok (flag (a < b))
  else if op = "<=" then .ok (flag (a ≤ b))
  else if op = ">" then .ok (flag (a > b))
  else if op = ">=" then .ok (flag (a ≥ b))
  else .error (.error line ("unknown operator '" ++ op ++ "'"))

def eval : Expr → Env → Int → Except Stop Int
  | .integer v, _, _ => .ok v
  | .name n, env, line =>
    match env.lookup n with
    | none => .error (.error line ("unknown name '" ++ n ++ "'"))
    | some v => .ok v
  | .unary op a, env, line => do applyUnary op (← eval a env line) line
  | .binary op a b, env, line => do
      let x ← eval a env line
      if op = "&&" then
        if x = 0 then return 0
        return flag ((← eval b env line) ≠ 0)
      if op = "||" then
        if x ≠ 0 then return 1
        return flag ((← eval b env line) ≠ 0)
      applyBinary op x (← eval b env line) line

def evalAll (env : Env) (line : Int) : List Expr → Except Stop (List Int)
  | [] => .ok []
  | e :: es => do
      let v ← eval e env line
      return v :: (← evalAll env line es)

/-! ## Constants and declared ranges -/

abbrev Ranges := List (String × Int × Int)

def bounds (ranges : Ranges) : Rng → Env → Int → Except Stop (Int × Int)
  | .named n, _, line =>
    match ranges.lookup n with
    | none => .error (.error line ("unknown range '" ++ n ++ "'"))
    | some b => .ok b
  | .inline lo hi, env, line => do
      let l ← eval lo env line
      return (l, ← eval hi env line)

/-- In file order, a later declaration over an earlier one. -/
def constants (line : Int) : List (String × Expr) → Env → Except Stop Env
  | [], consts => .ok consts
  | (n, e) :: rest, consts => do
      let v ← eval e consts line
      constants line rest ((n, v) :: consts)

def declaredRanges (consts : Env) (line : Int) : List (String × Rng) → Ranges → Except Stop Ranges
  | [], ranges => .ok ranges
  | (n, r) :: rest, ranges => do
      let b ← bounds ranges r consts line
      declaredRanges consts line rest ((n, b) :: ranges)

/-! ## Label patterns -/

/-- The values of an inclusive range. -/
def intRange (lo hi : Int) : List Int :=
  (List.range (hi + 1 - lo).toNat).map fun n : Nat => lo + n

/-- The bodies of a loop one after the other, their results appended. -/
def collect {α β : Type} (f : α → Except Stop (List β)) : List α → Except Stop (List β)
  | [] => .ok []
  | x :: xs => do
      let here ← f x
      return here ++ (← collect f xs)

/-- `for (long v = lo; v <= hi; ++v)`: after the largest value the counter overflows. -/
def forRange {β : Type} (lo hi : Int) (f : Int → Except Stop (List β)) : Except Stop (List β) := do
  let out ← collect f (intRange lo hi)
  if lo ≤ hi ∧ longMax ≤ hi then .error .overflow else return out

section Patterns

variable (ranges : Ranges)

mutual

/-- Element by element: sets and anonymous ranges choose, binders choose and bind for the
rest. -/
def expandElems (line : Int) : List LabelElem → GLabel → Env → Except Stop (List (GLabel × Env))
  | [], acc, env => .ok [(acc, env)]
  | el :: rest, acc, env => expandElem line el acc env (expandElems line rest)

/-- One element, then the rest of its pattern. -/
def expandElem (line : Int) : LabelElem → GLabel → Env →
    (GLabel → Env → Except Stop (List (GLabel × Env))) → Except Stop (List (GLabel × Env))
  | .name text, acc, env, rest => rest (acc ++ [text]) env
  | .index ix, acc, env, rest => do
      let v ← eval ix env line
      rest (acc ++ [toString v]) env
  | .choice r, acc, env, rest => do
      let b ← bounds ranges r env line
      forRange b.1 b.2 fun v => rest (acc ++ [toString v]) env
  | .binder var r, acc, env, rest => do
      let b ← bounds ranges r env line
      forRange b.1 b.2 fun v => rest (acc ++ [toString v]) ((var, v) :: env)
  | .set alts, acc, env, rest => expandAlts alts acc env rest

/-- Every alternative of a set in full, the bindings kept. -/
def expandAlts : List LabelPattern → GLabel → Env →
    (GLabel → Env → Except Stop (List (GLabel × Env))) → Except Stop (List (GLabel × Env))
  | [], _, _, _ => .ok []
  | alt :: alts, acc, env, rest => do
      let subs ← expandPattern alt [] env
      let here ← collect (fun sub => rest (acc ++ sub.1) sub.2) subs
      return here ++ (← expandAlts alts acc env rest)

def expandPattern : LabelPattern → GLabel → Env → Except Stop (List (GLabel × Env))
  | .mk elems line, acc, env => expandElems line elems acc env

end

end Patterns

/-! ## States -/

/-- The ground LTS under construction, the numbers of the named states, the meaning of
each number and the named states to expand. -/
structure Grounder where
  out : GroundLts
  ids : List ((Nat × List Int) × Nat)
  meaning : List (Option (Nat × List Int))
  queue : List Nat

/-- `rel[l].emplace_back(e)`. -/
def relInsert (l : GLabel) (e : Int × Int) :
    List (GLabel × List (Int × Int)) → List (GLabel × List (Int × Int))
  | [] => [(l, [e])]
  | (k, es) :: rest =>
    if l = k then (k, es ++ [e]) :: rest
    else if l < k then (l, [e]) :: (k, es) :: rest
    else (k, es) :: relInsert l e rest

def Grounder.addEdge (g : Grounder) (l : GLabel) (e : Int × Int) : Grounder :=
  { g with out := { g.out with rel := relInsert l e g.out.rel } }

/-- A fresh anonymous state, numbered by the states before it. -/
def Grounder.newState (g : Grounder) (name : String) : Grounder :=
  { g with
    out := { g.out with stateNames := g.out.stateNames ++ [name] }
    meaning := g.meaning ++ [none] }

def Grounder.size (g : Grounder) : Nat := g.out.stateNames.length

def pretty (base : String) (args : List Int) : String :=
  args.foldl (fun s a => s ++ "." ++ toString a) base

/-- The first definition of the name. -/
def defIndex (p : Process) (name : String) : Option Nat :=
  p.states.findIdx? fun d => d.name = name

def unknownState (p : Process) (name : String) (line : Int) : Stop :=
  .error line ("unknown state '" ++ name ++ "' in process '" ++ p.name ++ "'")

section States

variable (consts : Env) (ranges : Ranges) (p : Process)

/-- The arguments against the ranges of the parameters, under the earlier ones. -/
def inBoundsFrom (line : Int) : List (String × Rng) → List Int → Env → Except Stop Bool
  | (v, r) :: params, a :: args, env => do
      let b ← bounds ranges r env line
      if a < b.1 ∨ a > b.2 then return false
      inBoundsFrom line params args ((v, a) :: env)
  | _, _, _ => .ok true

def inBounds (d : StateDef) (args : List Int) (line : Int) : Except Stop Bool :=
  inBoundsFrom ranges line d.params args consts

/-- A named state first met is numbered and queued. -/
def Grounder.enter (g : Grounder) (i : Nat) (d : StateDef) (args : List Int) : Grounder × Int :=
  match g.ids.lookup (i, args) with
  | some n => (g, n)
  | none =>
    ({ out := { g.out with stateNames := g.out.stateNames ++ [pretty d.name args] }
       ids := ((i, args), g.size) :: g.ids
       meaning := g.meaning ++ [some (i, args)]
       queue := g.queue ++ [g.size] }, g.size)

def intern (i : Nat) (d : StateDef) (args : List Int) (line : Int) (g : Grounder) :
    Except Stop (Grounder × Int) := do
  if args.length ≠ d.params.length then
    throw (.error line ("state '" ++ d.name ++ "' takes " ++ toString d.params.length ++
      " arguments"))
  unless ← inBounds consts ranges d args line do
    throw (.error line ("argument of state '" ++ d.name ++ "' outside its declared range"))
  return g.enter i d args

/-- An argument out of its range leads to ERROR; the name of the process is its initial
state. -/
def resolveTarget (r : StateRef) (env : Env) (g : Grounder) : Except Stop (Grounder × Int) :=
  if r.isError then .ok (g, -1)
  else match defIndex p r.name with
    | some i => match p.states[i]? with
      | none => .error (unknownState p r.name r.line)
      | some d => do
          let args ← evalAll env r.line r.args
          if args.length = d.params.length then
            unless ← inBounds consts ranges d args r.line do
              return (g, -1)
          intern consts ranges i d args r.line g
    | none =>
      if r.name = p.name ∧ r.args = [] then .ok (g, 0)
      else .error (unknownState p r.name r.line)

/-- The chain from a label on: an edge for every choice, to the target on the last label,
to a fresh anonymous state expanded in place otherwise. -/
def expandChain (target : StateRef) :
    List LabelPattern → Nat → Nat → Env → Grounder → Except Stop Grounder
  | [], _, _, _, g => .ok g
  | label :: rest, pos, src, env, g => do
      let grounds ← expandPattern ranges label [] env
      grounds.foldlM (fun g ground =>
        if rest = [] then do
          let t ← resolveTarget consts ranges p target ground.2 g
          return t.1.addEdge ground.1 (src, t.2)
        else
          let name := g.out.stateNames.getD src "" ++ "@" ++ toString (pos + 1)
          expandChain target rest (pos + 1) g.size ground.2
            ((g.newState name).addEdge ground.1 (src, g.size))) g

def expandBranch (src : Nat) (env : Env) (g : Grounder) (b : Branch) :
    Except Stop Grounder := do
  match b.guard with
  | none => expandChain consts ranges p b.target b.labels 0 src env g
  | some e =>
    if (← eval e env b.line) = 0 then return g
    expandChain consts ranges p b.target b.labels 0 src env g

def expandBody (src : Nat) (body : List Branch) (env : Env) (g : Grounder) :
    Except Stop Grounder :=
  body.foldlM (expandBranch consts ranges p src env) g

/-- Nothing is numbered yet. -/
def Grounder.fresh : Grounder :=
  ⟨⟨p.name, p.isProperty, [], [], [], []⟩, [], [], []⟩

def seed : Except Stop Grounder :=
  match p.initRef with
  | some r => do
      if r.isError then
        throw (.error r.line "a process cannot start in ERROR")
      let args ← evalAll consts r.line r.args
      match defIndex p r.name with
      | none => throw (unknownState p r.name r.line)
      | some i => match p.states[i]? with
        | none => throw (unknownState p r.name r.line)
        | some d => return (← intern consts ranges i d args r.line (Grounder.fresh p)).1
  | none =>
    expandBody consts ranges p 0 p.initBody consts ((Grounder.fresh p).newState (p.name ++ ".0"))

/-- The parameters over the constants, a later one over an earlier one. -/
def bindParams : List (String × Rng) → List Int → Env → Env
  | (v, _) :: params, a :: args, env => bindParams params args ((v, a) :: env)
  | _, _, env => env

/-- One turn of the loop: the first state of the queue is expanded. -/
def turn (s : Nat) (g : Grounder) : Except Stop Grounder :=
  match g.meaning[s]? with
  | some (some (i, args)) => match p.states[i]? with
    | some d => expandBody consts ranges p s d.body (bindParams d.params args consts) g
    | none => .ok g
  | _ => .ok g

/-- The loop over the queue; `none` is out of fuel. -/
def runQueue : Nat → Grounder → Option (Except Stop Grounder)
  | 0, _ => none
  | fuel + 1, g =>
    match g.queue with
    | [] => some (.ok g)
    | s :: queue =>
      match turn consts ranges p s { g with queue := queue } with
      | .error e => some (.error e)
      | .ok g' => runQueue fuel g'

/-- The labels of the patterns, under the constants alone. -/
def groundLabels (pats : List LabelPattern) : Except Stop (List GLabel) :=
  collect (fun pat => do
    return (← expandPattern ranges pat [] consts).map Prod.fst) pats

def finish (g : Grounder) : Except Stop GroundLts := do
  let extension ← groundLabels consts ranges p.extension
  let prefixes ← groundLabels consts ranges p.hidden
  return finishAlphabetAndHiding g.out extension prefixes

end States

def setup (m : Model) (p : Process) : Except Stop (Env × Ranges) := do
  let consts ← constants p.line m.consts []
  return (consts, ← declaredRanges consts p.line m.ranges [])

/-- `none` is out of fuel. -/
def ground (fuel : Nat) (m : Model) (p : Process) : Option (Except Stop GroundLts) :=
  match setup m p with
  | .error e => some (.error e)
  | .ok (consts, ranges) => match seed consts ranges p with
    | .error e => some (.error e)
    | .ok g => (runQueue consts ranges p fuel g).map fun r => do
        finish consts ranges p (← r)

end LibHSC.Fsp
