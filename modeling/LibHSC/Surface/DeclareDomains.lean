import LibHSC.Surface.Declarations
import LibHSC.Surface.Numerals

/-!
The pass `(declare-domains)`: a bare leaf whose inferred domain is finite gets its hull
as a declaration, a declared one whose hull is tighter is re-declared to it.

A declaration is read for more than the domain: the lower bound is the default of the
leaf where an `init` or a `word` does not list it.
-/

namespace LibHSC.Surface

open Lia Xpl

/-- The cells of the arrays, by the forms that declare them. -/
def arrayCellsOf (forms : List Datum) : List (String × List String) :=
  (forms.filter fun f => decide (f.head = "array") && decide (3 ≤ f.items.length)).foldl
    (fun m f => mapInsert (f.item 1).text
      ((m.lookup (f.item 1).text).getD [] ++ (f.items.drop 2).map Datum.text) m) []

/-- The hull of a finite domain, as `[lo, hi)`. -/
def hull (r : DomainReport) : Option (Int × Int) :=
  match r.dom with
  | .set vals =>
    if vals.list.isEmpty then none
    else some (int32 (vals.list.headD 0), int32 (vals.list.getLastD 0 + 1))
  | .interval lo hi => some (int32 lo, int32 (hi + 1))
  | _ => none

structure Redeclared where
  fresh : List (String × (Int × Int))
  /-- The old bounds, and the new ones. -/
  tighter : List (String × ((Int × Int) × (Int × Int)))
  defied : List String

namespace Redeclared

def add (u : UnitDomain) (x : Redeclared) (name : String) : Redeclared :=
  match u.declared, hull u.report with
  | none, some b => { x with fresh := mapInsert name b x.fresh }
  | none, none => { x with defied := x.defied ++ [name] }
  | some old, some new =>
    if old.1 < new.1 ∨ new.2 < old.2 then
      { x with tighter := mapInsert name (old, new) x.tighter }
    else x
  | some _, none => x

/-- An array is one unit: its hull redeclares every cell. -/
def targets (cells : List (String × List String)) (u : UnitDomain) : List String :=
  if u.isArray then (cells.lookup u.name).getD [] else [u.name]

def ofUnits (cells : List (String × List String)) (units : List UnitDomain) : Redeclared :=
  units.foldl (fun x u => (targets cells u).foldl (add u) x) ⟨[], [], []⟩

variable (x : Redeclared)

/-- The bounds a `leaf` form gets. -/
def boundsOf (f : Datum) : Option (Int × Int) :=
  if f.items.length = 2 then x.fresh.lookup (f.item 1).text
  else if f.items.length = 4 then (x.tighter.lookup (f.item 1).text).map Prod.snd
  else none

def redeclare (f : Datum) (b : Int × Int) : Datum :=
  .list [f.item 0, f.item 1, .atom (toString b.1) f.line, .atom (toString b.2) f.line] f.line

def onForm (f : Datum) : Datum :=
  if f.head = "leaf" then
    match x.boundsOf f with
    | some b => redeclare f b
    | none => f
  else f

def rangeText (b : Int × Int) : String := "[" ++ toString b.1 ++ "," ++ toString b.2 ++ ")"

def trace : String :=
  toString x.fresh.length ++ " declared, " ++ toString x.tighter.length ++ " tightened" ++
    String.join (x.fresh.map fun y => "\n  " ++ y.1 ++ ": " ++ rangeText y.2) ++
    String.join (x.tighter.map fun y =>
      "\n  " ++ y.1 ++ ": " ++ rangeText y.2.1 ++ " -> " ++ rangeText y.2.2) ++
    String.join (x.defied.map fun n => "\n  note: " ++ n ++ " defies analysis; left bare")

end Redeclared

/-- The pass; `none` when the fuel of the inference runs out. -/
def declareDomains (R : ExprIds) (fuel : Nat) (forms : List Datum) :
    Except BuildError (Option Rewritten) := do
  match ← analyzeDomains R fuel forms with
  | none => return none
  | some units =>
    let x := Redeclared.ofUnits (arrayCellsOf forms) units
    if x.fresh.isEmpty ∧ x.tighter.isEmpty then
      return some ⟨forms, false, if x.defied.isEmpty then "every leaf domain already tight"
        else "no domain could be declared"⟩
    else return some ⟨forms.map x.onForm, true, x.trace⟩

end LibHSC.Surface
