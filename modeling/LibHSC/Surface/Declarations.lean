import LibHSC.Surface.Session

/-!
The declarations as the symbolic translator keeps them: leaves, arrays, the shape with
the frontier it fixes, the base word. A declared bound is read in two places only, for
the defaults of the frontier and for the boxes of `full`; the forms that read neither
are a parameter, over what they see of the declarations.
-/

namespace LibHSC.Surface

open Xpl

/-- Where a leaf stands. The index of a leaf that is not placed is 0. -/
structure Place where
  placed : Bool
  index : Nat

/-- The declarations without the bounds. -/
structure Frame where
  leaves : List (String × Place)
  arrays : List (String × List String)
  order : List String
  top : Option Datum

structure Decls where
  frame : Frame
  bounds : List (String × Option (Int × Int))
  defaults : Xpl.Word
  init : Xpl.Word

def Decls.empty : Decls := ⟨⟨[], [], [], none⟩, [], [], []⟩

/-! ## Syntax helpers -/

def arg (f : Datum) (i : Nat) (what : String) : Except Thrown Datum :=
  match f.items[i]? with
  | some d => .ok d
  | none => .error (.build (.translate f.line ("missing " ++ what)))

def refuseForm {α : Type} (d : Datum) (message : String) : Except Thrown α :=
  .error (.build (.translate d.line message))

def sym (d : Datum) : Except Thrown String :=
  if d.isAtom then .ok d.text else refuseForm d "expected a symbol, found a list"

def needInt (d : Datum) : Except Thrown Int :=
  if !d.isAtom then refuseForm d "expected an integer, found a list"
  else
    match asInt d with
    | some v => .ok v
    | none => refuseForm d ("expected an integer, found '" ++ d.text ++ "'")

/-- The value of a 32-bit field. -/
def int32 (v : Int) : Int := (v + 2147483648) % 4294967296 - 2147483648

/-! ## Leaves, arrays, the shape -/

namespace Frame

variable (fr : Frame)

def doArray (f : Datum) : Except Thrown Frame := do
  let name ← sym (← arg f 1 "array name")
  if f.items.length < 3 then refuseForm f "array needs at least one cell"
  else if (fr.arrays.lookup name).isSome then refuseForm f ("array '" ++ name ++ "' redeclared")
  else do
    let cells ← (f.items.drop 2).mapM fun d => do
      let cell ← sym d
      if (fr.leaves.lookup cell).isSome then .ok cell
      else refuseForm d ("array cell '" ++ cell ++ "' is not a leaf")
    return { fr with arrays := fr.arrays ++ [(name, cells)] }

/-- The leaf takes the next place of the frontier. -/
def placeLeaf (d : Datum) : Except Thrown Frame :=
  if d.text = "unit" then .ok fr
  else
    match fr.leaves.lookup d.text with
    | none => refuseForm d ("shape uses undeclared leaf '" ++ d.text ++ "'")
    | some pl =>
      if pl.placed then refuseForm d ("leaf '" ++ d.text ++ "' used twice in the shape")
      else .ok { fr with
        leaves := fr.leaves.map fun x =>
          if x.1 = d.text then (x.1, ⟨true, fr.order.length⟩) else x
        order := fr.order ++ [d.text] }

mutual

def buildSort (fr : Frame) : Datum → Except Thrown Frame
  | .atom text line => fr.placeLeaf (.atom text line)
  | .list [] line => refuseForm (.list [] line) "unknown sort constructor ''"
  | .list (h :: ds) line =>
    let d := Datum.list (h :: ds) line
    if d.head = "pair" then
      if ds.length ≠ 2 then refuseForm d "pair takes exactly two sorts" else buildSorts fr ds
    else if d.head = "spine" then buildSorts fr ds
    else if d.head = "balanced" then
      if ds.length < 1 then refuseForm d "balanced needs at least one sort" else buildSorts fr ds
    else refuseForm d ("unknown sort constructor '" ++ d.head ++ "'")

/-- The frontier of a node is that of its children in order, however they are paired. -/
def buildSorts (fr : Frame) : List Datum → Except Thrown Frame
  | [] => .ok fr
  | d :: ds => do buildSorts (← buildSort fr d) ds

end

def doShape (f : Datum) : Except Thrown Frame :=
  if fr.top.isSome then refuseForm f "shape declared twice"
  else do
    let d ← arg f 1 "sort"
    let built ← buildSort { fr with order := [] } d
    match built.leaves.find? fun x => !x.2.placed with
    | some x => refuseForm f ("leaf '" ++ x.1 ++ "' is not in the shape")
    | none => return { built with top := some d }

def requireLeaf (d : Datum) : Except Thrown Place := do
  let name ← sym d
  match fr.leaves.lookup name with
  | none => refuseForm d ("unknown leaf '" ++ name ++ "'")
  | some pl =>
    if fr.top.isNone then refuseForm d "leaf used before the shape is declared" else .ok pl

/-- The pairs of an `init` or of a `word`, over a word. -/
def setPairs (message : String) : List Datum → Xpl.Word → Except Thrown Xpl.Word
  | [], w => .ok w
  | pair :: rest, w =>
    if pair.items.length ≠ 2 then refuseForm pair message
    else do
      let pl ← fr.requireLeaf (pair.item 0)
      let v ← needInt (pair.item 1)
      setPairs message rest (w.set pl.index v)

/-- The first item decides whether an `init` is of pairs. -/
def isPairs (f : Datum) : Bool :=
  decide ((f.item 1).items.length = 2) && ((f.item 1).item 0).isAtom &&
    (fr.leaves.lookup ((f.item 1).item 0).text).isSome

end Frame

namespace Decls

variable (d : Decls)

def addLeaf (name : String) (bound : Option (Int × Int)) : Decls :=
  { d with
    frame := { d.frame with leaves := d.frame.leaves ++ [(name, ⟨false, 0⟩)] }
    bounds := d.bounds ++ [(name, bound)] }

def readBound (f : Datum) : Except Thrown (Option (Int × Int)) :=
  if f.items.length > 2 then do
    let lo ← needInt (← arg f 2 "lower bound")
    let hi ← needInt (← arg f 3 "upper bound")
    if hi ≤ lo then refuseForm f ("empty domain [" ++ toString lo ++ "," ++ toString hi ++ ")")
    else return some (lo, hi)
  else .ok none

def doLeaf (f : Datum) : Except Thrown Decls := do
  let name ← sym (← arg f 1 "leaf name")
  if (d.frame.leaves.lookup name).isSome then refuseForm f ("leaf '" ++ name ++ "' redeclared")
  else do
    let bound ← readBound f
    return d.addLeaf name bound

/-- The bound of a leaf, by its name. -/
def boundOf (name : String) : Option (Int × Int) := (d.bounds.lookup name).join

/-- A bounded leaf is at its lower bound, any other at 0. -/
def defaultOf (name : String) : Int := ((d.boundOf name).map Prod.fst).getD 0

def doArray (f : Datum) : Except Thrown Decls := do
  return { d with frame := ← d.frame.doArray f }

def doShape (f : Datum) : Except Thrown Decls := do
  let frame ← d.frame.doShape f
  let defaults := frame.order.map d.defaultOf
  return { d with frame := frame, defaults := defaults, init := defaults }

/-- A pair `init`, over the base word. -/
def setInit (pairs : List Datum) : Except Thrown Decls := do
  return { d with init := ← d.frame.setPairs "init entry must be (leaf value)" pairs d.init }

/-- The domain a leaf has in a box, closed; empty without a declared bound. -/
def rangeOf (name : String) : Int × Int :=
  match d.boundOf name with
  | some (lo, hi) => (lo, hi - 1)
  | none => (0, -1)

def setRanges : List Datum → List (Int × Int) → Except Thrown (List (Int × Int))
  | [], range => .ok range
  | t :: rest, range =>
    if t.items.length ≠ 3 then refuseForm t "full takes (LEAF LO HI) triples"
    else do
      let name ← sym (t.item 0)
      match d.frame.leaves.lookup name with
      | none => refuseForm (t.item 0) "full: unknown leaf"
      | some pl =>
        if !pl.placed then refuseForm (t.item 0) "full: unknown leaf"
        else
          match stoll (t.item 1).text, stoll (t.item 2).text with
          | some lo, some hi => setRanges rest (range.set pl.index (int32 lo, int32 hi))
          | _, _ => .error .number

/-- The box of a `full`. -/
def boxOf (f : Datum) : Except Thrown (List (Int × Int)) :=
  if d.frame.top.isNone then refuseForm f "full before shape"
  else do
    let _ ← sym (← arg f 1 "result name")
    let range ← d.setRanges (f.items.drop 2) (d.frame.order.map d.rangeOf)
    match (d.frame.order.zip range).find? fun x => decide (x.2.2 < x.2.1) with
    | some x => refuseForm f ("full: leaf " ++ x.1 ++
        " has no domain (declare a bound, or give one)")
    | none => return range

/-- The state of a `word`. -/
def wordOf (f : Datum) : Except Thrown Xpl.Word :=
  if d.frame.top.isNone then refuseForm f "word before shape"
  else do
    let _ ← sym (← arg f 1 "result name")
    d.frame.setPairs "word entry must be (leaf value)" (f.items.drop 2) d.defaults

end Decls

/-! ## The translator -/

/-- The rest of the translator: events and families, which see the frame, and the other
forms, which see the base word too. -/
structure Queries (Q : Type) where
  event : Frame → Q → Datum → Q × String × Option Thrown
  other : Frame → Xpl.Word → Q → Datum → Q × String × Option Thrown
  seeded : Q → Bool
  bindWord : Q → String → Xpl.Word → Q
  bindBox : Q → String → List (Int × Int) → Q × String
  failures : Q → Nat
  hasResult : Q → String → Bool
  wordsOf : Q → String → Nat → Option (List Xpl.Word)

section Translator

variable {Q : Type} (P : Queries Q)

/-- A form that changes the declarations, or is refused. -/
def declare (t : Decls × Q) (x : Except Thrown Decls) : (Decls × Q) × String × Option Thrown :=
  match x with
  | .ok d => ((d, t.2), "", none)
  | .error e => (t, "", some e)

def doInit (t : Decls × Q) (f : Datum) : (Decls × Q) × String × Option Thrown :=
  if t.1.frame.top.isNone then (t, "", some (.build (.translate f.line "init before shape")))
  else if f.items.length = 1 then (t, "", none)
  else if t.1.frame.isPairs f then
    if P.seeded t.2 then
      (t, "", some (.build (.translate f.line "pair init after an init event")))
    else declare t (t.1.setInit f.items.tail)
  else
    let (q, text, e) := P.other t.1.frame t.1.init t.2 f
    ((t.1, q), text, e)

def translate (t : Decls × Q) (f : Datum) : (Decls × Q) × String × Option Thrown :=
  if f.head = "leaf" then declare t (t.1.doLeaf f)
  else if f.head = "array" then declare t (t.1.doArray f)
  else if f.head = "shape" then declare t (t.1.doShape f)
  else if f.head = "init" then doInit P t f
  else if f.head = "event" ∨ f.head = "family" then
    let (q, text, e) := P.event t.1.frame t.2 f
    ((t.1, q), text, e)
  else if f.head = "word" then
    match t.1.wordOf f with
    | .error e => (t, "", some e)
    | .ok w => ((t.1, P.bindWord t.2 (f.item 1).text w), "", none)
  else if f.head = "full" then
    match t.1.boxOf f with
    | .error e => (t, "", some e)
    | .ok range =>
      let (q, text) := P.bindBox t.2 (f.item 1).text range
      ((t.1, q), text, none)
  else
    let (q, text, e) := P.other t.1.frame t.1.init t.2 f
    ((t.1, q), text, e)

/-- The engines of a run over this translator. -/
def Queries.engines (base : Engines Unit) : Engines (Decls × Q) where
  form := translate P
  translatorFailures t := P.failures t.2
  hasResult t := P.hasResult t.2
  wordsOf t := P.wordsOf t.2
  apply := base.apply
  ids := base.ids
  fuel := base.fuel
  cause := base.cause
  what := base.what
  writable := base.writable

end Translator

end LibHSC.Surface
