import LibHSC.Petri.Net
import LibHSC.Surface.Emitted
import LibHSC.Surface.Spelling

/-!
The emission of a net with its unit tree as surface text: a leaf for each place, the
shape of the tree, the marked places, an event for each transition. The guard of an
event is the input arcs, its action the net effect on each place.
-/

namespace LibHSC.Petri

open Surface

/-! ## The unit tree -/

structure NupnUnit where
  places : List String
  subunits : List String

/-- The units by their ids. The order of the table is of no consequence. -/
structure UnitTree where
  units : List (String × NupnUnit)
  root : String
  safe : Bool

def UnitTree.present (t : UnitTree) : Bool := !t.units.isEmpty

/-- One child stands for itself, several are a spine. -/
def bracket : List String → String
  | [] => ""
  | [k] => k
  | kids => form "spine" kids

/-- The shape of a unit as a sort: its places, then the sorts of its subunits; under the
root the orphans. The tree is a table, so the recursion has fuel. -/
def sortOf (t : UnitTree) (extraRoot : List String) : Nat → String → Bool → Option String
  | 0, _, _ => none
  | fuel + 1, uid, isRoot =>
    match t.units.lookup uid with
    | none => some ""
    | some u => do
        let subs ← u.subunits.mapM fun s => sortOf t extraRoot fuel s false
        return bracket (u.places ++ subs.filter (· ≠ "") ++ if isRoot then extraRoot else [])

/-- The places declared but in no unit, in the order of the declaration. -/
def orphans (net : SparsePetriNet) (t : UnitTree) : List String :=
  net.pnames.filter fun p => !(t.units.any fun u => u.2.places.contains p)

/-! ## The text -/

inductive Examination where
  | none
  | modelOnly
  | stateSpace
  | oneSafe

structure EmitOptions where
  /-- The leaves are declared from 0 up to here, at least. -/
  bound : Int
  /-- Leave out the events that cannot change the marking. -/
  skipNoEffect : Bool
  exam : Examination
  /-- A shape to print as it is; empty for none. -/
  shapeForm : String

section Emit

variable (net : SparsePetriNet) (units : UnitTree) (opts : EmitOptions)

def leafBound : Int := net.marks.foldl (fun b m => max b (m + 1)) opts.bound

def header : List String :=
  [comment " Imported from PNML/NUPN by tools/nupn2hsc.",
    comment (" net " ++ net.name ++ ": " ++ toString net.pnames.length ++ " places, " ++
      toString net.tnames.length ++ " transitions, safe=" ++
      (if units.safe then "true" else "false") ++ ".")]

def leafLine (p : String) : String := form "leaf" [p, "0", toString (leafBound net opts)]

def shapeLines (fuel : Nat) : Option (List String) :=
  if opts.shapeForm ≠ "" then
    some [comment " shape given verbatim (a shape file).", form "shape" [opts.shapeForm]]
  else if units.present then do
    let extra := orphans net units
    let sort ← sortOf units extra fuel units.root true
    return (if extra = [] then [] else
        [comment (" note: " ++ toString extra.length ++
          " place(s) outside every unit, placed under the root.")]) ++ [form "shape" [sort]]
  else some [comment " no nupn unit tree: flat spine over all places.",
    form "shape" [form "spine" net.pnames]]

/-- The places that hold tokens at first. -/
def marked : List (String × Int) := (net.pnames.zip net.marks).filter fun x => x.2 ≠ 0

def initLine : String := form "init" ((marked net).map fun x => form x.1 [toString x.2])

/-- `delta[k] += d` in an ordered map. -/
def accumulate (k : Nat) (d : Int) : List (Nat × Int) → List (Nat × Int)
  | [] => [(k, d)]
  | (j, v) :: m =>
    if k < j then (k, d) :: (j, v) :: m
    else if k = j then (j, v + d) :: m
    else (j, v) :: accumulate k d m

/-- The net effect on each place: outputs add, inputs consume. -/
def delta (pre post : SparseArray) : List (Nat × Int) :=
  post.entries.foldl (fun m e => accumulate e.1 e.2 m)
    (pre.entries.foldl (fun m e => accumulate e.1 (-e.2) m) [])

def noEffect (d : List (Nat × Int)) : Bool := d.all fun e => decide (e.2 = 0)

def placeName (p : Nat) : String := net.pnames.getD p ""

def guardText (e : Nat × Int) : String := form ">=" [placeName net e.1, toString e.2]

def actionText (e : Nat × Int) : Option String :=
  if e.2 > 0 then some (form "+=" [placeName net e.1, toString e.2])
  else if e.2 < 0 then some (form "-=" [placeName net e.1, toString (-e.2)])
  else none

def eventLine (t : Nat) : String :=
  form "event" [net.tnames.getD t "", form "when" ((net.pre t).entries.map (guardText net)),
    form "do" ((delta (net.pre t) (net.post t)).filterMap (actionText net))]

/-- The transitions that get an event. -/
def emitted : List Nat :=
  (List.range net.tnames.length).filter fun t =>
    !(opts.skipNoEffect && noEffect (delta (net.pre t) (net.post t)))

def examLines : Examination → List String
  | .stateSpace => [form "states" []]
  | .oneSafe => [form "reach" ["R", "saturate"], form "max-value" ["R"]]
  | .none => [form "reach" ["R", "saturate"], form "count" ["R"], form "nodes" ["R"],
      form "bill" []]
  | .modelOnly => []

/-- The lines of the text; `none` is out of fuel, in a tree that does not unfold. -/
def toSurface (fuel : Nat) : Option (List String) := do
  let shape ← shapeLines net units opts fuel
  return header net units ++ (net.pnames.map (leafLine net opts) ++ (shape ++
    (initLine net :: ((emitted net opts).map (eventLine net) ++ examLines opts.exam))))

end Emit

/-! ## What the tree lists -/

/-- The places of the unfolded tree, left to right. -/
def leavesOf (t : UnitTree) (extraRoot : List String) : Nat → String → Bool → Option (List String)
  | 0, _, _ => none
  | fuel + 1, uid, isRoot =>
    match t.units.lookup uid with
    | none => some []
    | some u => do
        let subs ← u.subunits.mapM fun s => leavesOf t extraRoot fuel s false
        return u.places ++ subs.flatten ++ if isRoot then extraRoot else []

/-- The shape lists every place once: a given one, or the tree unfolded within `fuel` levels,
with no place only in a unit that the root does not reach. -/
def ListsPlaces (net : SparsePetriNet) (units : UnitTree) (opts : EmitOptions) (fuel : Nat) :
    Prop :=
  if opts.shapeForm ≠ "" then
    ∃ d names, Spells opts.shapeForm d ∧ flattenShape d = .ok names ∧ names.Perm net.pnames
  else if units.present then
    ∃ names, (units.units.lookup units.root).isSome ∧
      leavesOf units [] fuel units.root true = some names ∧ names.Nodup ∧
      (∀ p ∈ names, p ∈ net.pnames) ∧ ∀ u ∈ units.units, ∀ p ∈ u.2.places, p ∈ names
  else True

end LibHSC.Petri
