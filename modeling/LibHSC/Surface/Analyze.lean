import LibHSC.Surface.SpecRead
import LibHSC.Xpl.Domains
import Mathlib.Data.List.Sort

/-!
The decoration step: the domains of a specification, one report for each unit, and
their print.
-/

namespace LibHSC.Surface

open Lia Xpl

/-- The domain of one unit: a scalar, or an array by its name. -/
structure UnitDomain where
  name : String
  isArray : Bool
  declared : Option (Int × Int)
  report : DomainReport

namespace Spec

variable (s : Spec)

/-- The cells of each array, ascending. -/
def groups : List (String × List Nat) :=
  s.arrays.map fun x => (x.1, x.2.insertionSort (· ≤ ·))

/-- The last array with these cells. -/
def groupName (positions : List Nat) : Option String :=
  ((s.groups.filter fun x => decide (x.2 = positions)).getLast?).map Prod.fst

def declared : List (Option (Int × Int)) := (List.range s.order.length).map s.bound

def unitOf (r : DomainReport) : UnitDomain :=
  let front := r.positions.headD 0
  let declared := s.bound front
  match s.groupName r.positions with
  | some name => ⟨name, true, declared, r⟩
  | none =>
    if r.positions.length = 1 then ⟨s.order.getD front "", false, declared, r⟩
    -- merged beyond the declarations
    else ⟨s.order.getD front "" ++ "+", false, declared, r⟩

/-- The domains of a specification; `none` when the fuel of the inference runs out. -/
def analyze (R : ExprIds) (fuel : Nat) : Except BuildError (Option (List UnitDomain)) :=
  if s.order.isEmpty then .ok (some [])
  else do
    let m ← s.xpl R
    let seeds ← s.seeds R
    return (inferDomains fuel m seeds (s.groups.map Prod.snd) s.declared).map (List.map s.unitOf)

end Spec

def analyzeDomains (R : ExprIds) (fuel : Nat) (forms : List Datum) :
    Except BuildError (Option (List UnitDomain)) := do
  (← Spec.read forms).analyze R fuel

/-! ## The print -/

namespace UnitDomain

variable (u : UnitDomain)

def kindText : String :=
  match u.report.dom with
  | .set vals =>
    let lo := vals.list.headD 0
    let hi := vals.list.getLastD 0
    " kind=set size=" ++ toString vals.list.length ++ " lo=" ++ toString lo ++ " hi=" ++
      toString hi ++ " holes=" ++ toString ((hi - lo + 1).toNat - vals.list.length)
  | .interval lo hi =>
    " kind=interval size=0 lo=" ++ toString lo ++ " hi=" ++ toString hi ++ " holes=0"
  | _ => " kind=top size=0 lo=0 hi=0 holes=0"

def declText : String :=
  match u.declared with
  | some (lo, hi) => " decl=[" ++ toString lo ++ "," ++ toString hi ++ ")"
  | none => " decl=-"

/-- A small set is printed in full. -/
def valuesText : String :=
  match u.report.dom with
  | .set vals =>
    if vals.list.length ≤ 32 then
      " \x7b" ++ String.intercalate " " (vals.list.map toString) ++ "\x7d"
    else ""
  | _ => ""

def line : String :=
  "xdom " ++ u.name ++ u.kindText ++ u.declText ++ " frozen=" ++
    (if u.report.assigned then "0" else "1") ++ " mod=" ++ (if u.report.viaMod then "1" else "0") ++
    u.valuesText ++ "\n"

def isSet : Bool := match u.report.dom with | .set _ => true | _ => false

def isInterval : Bool := match u.report.dom with | .interval _ _ => true | _ => false

end UnitDomain

def printDomains (units : List UnitDomain) : String :=
  String.join (units.map UnitDomain.line) ++ "xdomains units=" ++ toString units.length ++
    " set=" ++ toString (units.countP UnitDomain.isSet) ++
    " interval=" ++ toString (units.countP UnitDomain.isInterval) ++
    " top=" ++ toString (units.countP fun u => !u.isSet && !u.isInterval) ++
    " frozen=" ++ toString (units.countP fun u => !u.report.assigned) ++ "\n"

end LibHSC.Surface
