import LibHSC.Surface.Reader

/-!
Event forms to the explicit transition relation, and the declared side of a
specification. Every `when` of an event is hoisted into one filter before the
updates, one for each `do`.
-/

namespace LibHSC.Surface

open Lia Xpl

/-- One event as declared: the clause forms, verbatim. -/
structure Source where
  name : String
  line : Int
  clauses : List Datum

section Build

variable (R : ExprIds) (sc : Scope)

def asValue (d : Datum) (what : String) : Except BuildError Int :=
  if d.isAtom then
    match asInt d with
    | some v => .ok v
    | none => fail d ("expected an integer " ++ what ++ ", found '" ++ d.text ++ "'")
  else fail d ("expected an integer " ++ what)

/-- The value of an inline constant: a static index is a plain cell. -/
def staticIndex (index : IExpr) : Option Int :=
  match index with
  | .const v => if isConst index then some v else none
  | _ => none

/-- An assignment target, and the expression that reads the same cell. -/
def readTarget (d : Datum) : Except BuildError (Target × IExpr) :=
  if d.isAtom then
    match sc.position d.text with
    | none => fail d ("unknown leaf '" ++ d.text ++ "'")
    | some p => .ok (⟨[p], none⟩, .var p)
  else
    match d.items with
    | [_, a, i] =>
      if d.head ≠ "at" then fail d "an assignment target is a leaf or (at ARRAY INDEX)"
      else
        match sc.array a.text with
        | none => fail d ("unknown array '" ++ a.text ++ "'")
        | some cells => do
            let index ← readInt R sc i
            match staticIndex index with
            | none => return (⟨cells, some index⟩, array cells index)
            | some v =>
              match (if v < 0 then none else cells[v.toNat]?) with
              | some p => return (⟨[p], none⟩, array cells index)
              | none => fail d ("index " ++ toString v ++ " out of bounds for '" ++ a.text ++
                  "' (" ++ toString cells.length ++ " cells)")
    | _ => fail d "an assignment target is a leaf or (at ARRAY INDEX)"

def readAction (d : Datum) : Except BuildError Action :=
  if d.items.isEmpty then fail d "malformed action"
  else if d.head = "havoc" then
    match d.items with
    | [_, lhs, lo, hi] => do
        let (target, _) ← readTarget R sc lhs
        return .havoc target (← asValue lo "havoc low bound") (← asValue hi "havoc high bound")
    | _ => fail d "havoc is (havoc LHS LO HI)"
  else if d.head = ":=" ∨ d.head = "+=" ∨ d.head = "-=" then
    match d.items with
    | [_, lhs, e] => do
        let (target, self) ← readTarget R sc lhs
        let rhs ← readInt R sc e
        if d.head = ":=" then return .assign target rhs
        else if d.head = "+=" then return .assign target (← made (Lia.add R self rhs))
        else return .assign target (← made (binary .minus self rhs))
    | _ => fail d "an action is (:= LHS EXPR), (+= LHS EXPR), (-= LHS EXPR) or (havoc LHS K K)"
  else fail d "an action is (:= LHS EXPR), (+= LHS EXPR), (-= LHS EXPR) or (havoc LHS K K)"

/-- The atoms of a `when`, conjoined to the guard so far. -/
def hoist : List Datum → BExpr → Except BuildError BExpr
  | [], guard => .ok guard
  | d :: ds, guard => do hoist ds (conj R guard (← readBool R sc d))

/-- The clauses of one event: the guard and the updates so far. -/
def readClauses : List Datum → BExpr → List Xpl.Term → Except BuildError (BExpr × List Xpl.Term)
  | [], guard, kids => .ok (guard, kids)
  | cl :: cls, guard, kids =>
    if cl.items.isEmpty then fail cl "an event clause is (when …) or (do …)"
    else if cl.head = "when" then do readClauses cls (← hoist R sc cl.items.tail guard) kids
    else if cl.head = "do" then do
      readClauses cls guard (kids ++ [.update (← cl.items.tail.mapM (readAction R sc))])
    else fail cl "an event clause is (when …) or (do …)"

/-- The root of an event: the hoisted filter, then the updates. The empty body is the
identity. -/
def rootOf (guard : BExpr) (kids : List Xpl.Term) : Xpl.Term :=
  match (if guard = .btrue then kids else .filter guard :: kids) with
  | [kid] => kid
  | kids => .seq kids

def buildEvent (src : Source) : Except BuildError Xpl.Event := do
  let (guard, kids) ← readClauses R sc src.clauses .btrue []
  return ⟨src.name, src.line, rootOf guard kids, guard⟩

def buildXplModel (arity : Nat) (sources : List Source) : Except BuildError Xpl.Model := do
  return ⟨arity, ← sources.mapM (buildEvent R sc)⟩

end Build

/-! ## The specification -/

structure LeafInfo where
  pos : Nat
  bounded : Bool
  lo : Int
  hi : Int

/-- The declarations of a specification. Every placed leaf stands on the frontier. -/
structure Spec where
  leaves : List (String × LeafInfo)
  order : List String
  arrays : List (String × List Nat)
  events : List Source
  initPairs : List (Nat × Int)
  initEvent : List Datum
  placed : ∀ x ∈ leaves, x.2.pos < order.length

namespace Spec

variable (s : Spec)

def scope : Scope where
  position name := (s.leaves.lookup name).map LeafInfo.pos
  array name := s.arrays.lookup name

/-- The declared bound of the leaf at a position, as `[lo, hi)`. -/
def bound (pos : Nat) : Option (Int × Int) :=
  (s.order[pos]?).bind fun name => (s.leaves.lookup name).bind fun l =>
    if l.bounded then some (l.lo, l.hi) else none

/-- The defaults, edited by the pair inits. -/
def base : Xpl.Word :=
  let defaults := s.leaves.foldl (fun w x => if x.2.bounded then w.set x.2.pos x.2.lo else w)
    (List.replicate s.order.length 0)
  s.initPairs.foldl (fun w x => w.set x.1 x.2) defaults

/-- The initial states: the base word, or its image by the init event. -/
def seeds (R : ExprIds) : Except BuildError (List Xpl.Word) :=
  if s.initEvent.isEmpty then .ok [s.base]
  else do
    let m ← buildXplModel R s.scope s.order.length [⟨"init", 0, s.initEvent⟩]
    let out ←
      match quickEnabled m 0 s.base with
      | .error (.inl e) => .error (.eval e)
      | .error (.inr e) => .error (.interp e)
      | .ok false => .ok []
      | .ok true =>
        match fire m 0 s.base with
        | .error e => .error (.interp e)
        | .ok out => .ok out
    if out.isEmpty then .error (.translate 0 "init event: empty image, malformed model")
    else return out.map Successor.s

/-- The explicit model of the specification. -/
def xpl (R : ExprIds) : Except BuildError Xpl.Model :=
  buildXplModel R s.scope s.order.length s.events

end Spec

end LibHSC.Surface
