import LibHSC.Surface.XplBuild
import LibHSC.Cegar.Model
import Mathlib.Data.List.Lex
import Mathlib.Data.Int.Order.Basic

/-!
The bridge from a specification and property atoms to a model of the loop. It
accepts the separable fragment: bounded leaves, one seed, guard atoms and actions
each local to one leaf. The letters of a leaf are the distinct graphs of its local
actions over the declared domain; the monitor is the reachable part of the product
of the property leaves.

The texts of the refusals name the event and the construct; the cause that the
source appends to an undefined guard or action is left out.
-/

namespace LibHSC.Surface

open Lia Xpl

def refuse {α : Type} (line : Int) (message : String) : Except BuildError α :=
  .error (.translate line ("cegar: " ++ message))

mutual

/-- Arrays are outside the fragment: an access anywhere refuses. -/
def refuseAt (place : String) : Datum → Except BuildError Unit
  | .atom _ _ => .ok ()
  | .list items n =>
    if (Datum.list items n).head = "at" then refuse n ("array access in " ++ place)
    else refuseAtAll place items

def refuseAtAll (place : String) : List Datum → Except BuildError Unit
  | [] => .ok ()
  | d :: ds => do
      refuseAt place d
      refuseAtAll place ds

end

/-- One event's separable compile: its guard atoms and right-hand sides with their
leaf, in the order of the clauses. -/
structure LocalEvent where
  name : String
  line : Int
  /-- A constant guard atom is false. -/
  dead : Bool
  guards : List (Nat × BExpr)
  acts : List (Nat × IExpr)

namespace LocalEvent

variable (ev : LocalEvent) (p : Nat)

def guardsAt : List BExpr := ev.guards.filterMap fun x => if x.1 = p then some x.2 else none

def actsAt : List IExpr := ev.acts.filterMap fun x => if x.1 = p then some x.2 else none

/-- The leaves the event touches, ascending. -/
def touched : List Nat := sortPositions (ev.guards.map Prod.fst ++ ev.acts.map Prod.fst)

end LocalEvent

section Separable

variable (R : ExprIds) (sc : Scope) (seed : Xpl.Word)

/-- The atoms of a `when`. A constant one is decided once, against the seed. -/
def readAtoms : List Datum → LocalEvent → Except BuildError LocalEvent
  | [], ev => .ok ev
  | atom :: atoms, ev => do
      refuseAt ("event " ++ ev.name ++ " guard") atom
      let b ← readBool R sc atom
      match supportBool b with
      | [] =>
        match Xpl.evalBool seed b with
        | .error e => .error (.eval e)
        | .ok .undef => refuse atom.line ("event " ++ ev.name ++ ": guard is bottom")
        | .ok .no => readAtoms atoms { ev with dead := true }
        | .ok .yes => readAtoms atoms ev
      | [p] => readAtoms atoms { ev with guards := ev.guards ++ [(p, b)] }
      | _ => refuse atom.line ("event " ++ ev.name ++
          ": guard atom crosses leaves (non-separable; deferred)")

/-- The right-hand side of an action on the leaf `p`, with `+=` and `-=` desugared. -/
def readRhs (op : String) (p : Nat) (e : Datum) : Except BuildError IExpr := do
  let rhs ← readInt R sc e
  if op = ":=" then return rhs
  else if op = "+=" then made (Lia.add R (.var p) rhs)
  else made (binary .minus (.var p) rhs)

/-- The actions of a `do`; `written` are the leaves the clause has written. -/
def readActs : List Datum → List Nat → LocalEvent → Except BuildError LocalEvent
  | [], _, ev => .ok ev
  | act :: acts, written, ev =>
    match act.items with
    | [_, lhs, e] =>
      if ¬ (act.head = ":=" ∨ act.head = "+=" ∨ act.head = "-=") then
        refuse act.line ("event " ++ ev.name ++
          ": only :=, +=, -= actions are in the fragment (havoc and arrays deferred)")
      else if lhs.isAtom = false then
        refuse lhs.line ("event " ++ ev.name ++ ": array target (deferred)")
      else
        match sc.position lhs.text with
        | none => refuse lhs.line ("unknown leaf '" ++ lhs.text ++ "'")
        | some p =>
          if p ∈ written then
            refuse act.line ("event " ++ ev.name ++ ": leaf '" ++ lhs.text ++
              "' written twice in one do clause")
          else do
            refuseAt ("event " ++ ev.name ++ " action") e
            let rhs ← readRhs R sc act.head p e
            if (support rhs).any fun q => decide (q ≠ p) then
              refuse act.line ("event " ++ ev.name ++ ": action on '" ++ lhs.text ++
                "' reads another leaf (non-separable; deferred)")
            else
              readActs acts (written ++ [p]) { ev with acts := ev.acts ++ [(p, rhs)] }
    | _ => refuse act.line ("event " ++ ev.name ++
        ": only :=, +=, -= actions are in the fragment (havoc and arrays deferred)")

def readEventClauses : List Datum → LocalEvent → Except BuildError LocalEvent
  | [], ev => .ok ev
  | cl :: cls, ev =>
    if cl.items.isEmpty then refuse cl.line ("event " ++ ev.name ++ ": malformed clause")
    else if cl.head = "when" then do
      readEventClauses cls (← readAtoms R sc seed cl.items.tail ev)
    else if cl.head = "do" then do
      readEventClauses cls (← readActs R sc cl.items.tail [] ev)
    else refuse cl.line ("event " ++ ev.name ++ ": clause '" ++ cl.head ++
      "' is outside the fragment (alt/seq/havoc events deferred)")

def readEvent (src : Source) : Except BuildError LocalEvent :=
  readEventClauses R sc seed src.clauses ⟨src.name, src.line, false, [], []⟩

end Separable

/-! ## Local graphs -/

section Local

variable (ev : LocalEvent) (p : Nat)

/-- The guard atoms in order, up to the first that fails. -/
def guardsHold (env : Xpl.Word) : List BExpr → Except BuildError Bool
  | [] => .ok true
  | b :: bs =>
    match Xpl.evalBool env b with
    | .error e => .error (.eval e)
    | .ok .undef => refuse ev.line ("event " ++ ev.name ++ ": guard is bottom")
    | .ok .no => .ok false
    | .ok .yes => guardsHold env bs

/-- The right-hand sides in order, each in the state the last one left. -/
def runActs (env : Xpl.Word) : List IExpr → Int → Except BuildError Int
  | [], v => .ok v
  | rhs :: es, v =>
    match strictInt (env.set p v) rhs with
    | .error _ => refuse ev.line ("event " ++ ev.name ++ ": action is bottom")
    | .ok v' => runActs env es v'

/-- A leaf's declared window and its values, the seed's first. -/
structure Domain where
  lo : Int
  hi : Int
  valueOf : List Int

/-- The successor of one local state; `none` when the event is not enabled there. -/
def localStep (dom : Domain) (seed : Xpl.Word) (v : Int) : Except BuildError (Option Nat) := do
  if ← guardsHold ev (seed.set p v) (ev.guardsAt p) then
    let v' ← runActs ev p seed (ev.actsAt p) v
    if ev.actsAt p ≠ [] ∧ (v' < dom.lo ∨ dom.hi ≤ v') then
      refuse ev.line ("event " ++ ev.name ++ " drives a leaf to " ++ toString v' ++
        ", outside its bound [" ++ toString dom.lo ++ "," ++ toString dom.hi ++ ")")
    else return some (dom.valueOf.idxOf v')
  else return none

/-- The graph of the event on a leaf, over the leaf's whole domain. -/
def localGraph (dom : Domain) (seed : Xpl.Word) : Except BuildError (List (Option Nat)) :=
  dom.valueOf.mapM (localStep ev p dom seed)

end Local

/-! ## The model -/

section Bridge

variable (R : ExprIds) (s : Spec) (seed : Xpl.Word)

def buildDomain (p : Nat) : Except BuildError Domain :=
  let name := s.order.getD p ""
  match s.bound p with
  | none => refuse 0 ("leaf '" ++ name ++
      "' has no declared bound; the finite instance wants (leaf NAME LO HI)")
  | some (lo, hi) =>
    let sv := seed.getD p 0
    if sv < lo ∨ hi ≤ sv then
      refuse 0 ("leaf '" ++ name ++ "' starts at " ++ toString sv ++ ", outside its bound")
    else .ok ⟨lo, hi, sv :: (Xpl.valuesOf lo hi).filter fun v => decide (v ≠ sv)⟩

/-- The property atoms, each over at most one leaf. -/
def readProperty : List Datum → Except BuildError (List BExpr)
  | [] => .ok []
  | d :: ds => do
      refuseAt "property atom" d
      let b ← readBool R s.scope d
      if 1 < (supportBool b).length then
        refuse d.line "property atom crosses leaves (non-separable; deferred)"
      else return b :: (← readProperty ds)

/-- The graphs of one event, by leaf. -/
structure EvGraphs where
  name : String
  perLeaf : List (Nat × List (Option Nat))

def graphsOf (doms : List Domain) (ev : LocalEvent) : Except BuildError EvGraphs := do
  let perLeaf ← ev.touched.mapM fun p => do
    return (p, ← localGraph ev p (doms.getD p ⟨0, 0, []⟩) seed)
  return ⟨ev.name, perLeaf⟩

/-- The events with their graphs; an event that is dead is left out. -/
def compileEvents (doms : List Domain) : List Source → Except BuildError (List EvGraphs)
  | [] => .ok []
  | src :: srcs => do
      let ev ← readEvent R s.scope seed src
      if ev.dead then compileEvents doms srcs
      else do
        let eg ← graphsOf seed doms ev
        return eg :: (← compileEvents doms srcs)

/-- A graph as the source orders it: an undefined successor is `-1`. -/
def graphKey (g : List (Option Nat)) : List Int := g.map fun o => (o.map Int.ofNat).getD (-1)

/-- The letters of a leaf: its distinct graphs, in lexicographic order. -/
def lettersOf (compiled : List EvGraphs) (p : Nat) : List (List (Option Nat)) :=
  ((compiled.flatMap EvGraphs.perLeaf).filterMap fun x =>
    if x.1 = p then some x.2 else none).dedup.insertionSort fun g h => graphKey g ≤ graphKey h

/-- A letter has sixteen bits: the ranks start again at 0 behind 65535. -/
def letter (rank : Nat) : Nat := rank % 65536

/-- What the column of a letter keeps: the last graph written there, or nothing. -/
def columnOf (letters : List (List (Option Nat))) (a : Nat) : List (Option Nat) :=
  (letters.zipIdx.filterMap fun x => if letter x.2 = a then some x.1 else none).getLastD []

/-- The table is as wide as the leaf has distinct graphs. -/
def buildLeaf (compiled : List EvGraphs) (p : Nat) (dom : Domain) : Cegar.Lts where
  nStates := dom.valueOf.length
  nLetters := (lettersOf compiled p).length
  delta := (List.range dom.valueOf.length).flatMap fun st =>
    (List.range (lettersOf compiled p).length).map fun a =>
      (columnOf (lettersOf compiled p) a).getD st none
  valueOf := dom.valueOf

def buildCegarEvent (compiled : List EvGraphs) (eg : EvGraphs) : Cegar.Event where
  name := eg.name
  support := eg.perLeaf.map fun x => (x.1, letter ((lettersOf compiled x.1).idxOf x.2))

/-- The values of a tuple of the property leaves. -/
def tupleValues (m : Cegar.Model) (tuple : List Nat) : List Int :=
  (m.propLeaves.zip tuple).map fun x => (m.leaf x.1).valueOf.getD x.2 0

/-- The state an atom is decided in: the seed with the values of the property leaves. -/
def tupleWord (m : Cegar.Model) (tuple : List Nat) : Xpl.Word :=
  (m.propLeaves.zip (tupleValues m tuple)).foldl (fun w x => w.set x.1 x.2) seed

/-- Whether every atom holds, decided in order up to the first that fails. -/
def atomsHold (env : Xpl.Word) : List BExpr → Except BuildError Bool
  | [] => .ok true
  | b :: bs =>
    match Xpl.evalBool env b with
    | .error e => .error (.eval e)
    | .ok .undef => refuse 0 "property atom is bottom"
    | .ok .no => .ok false
    | .ok .yes => atomsHold env bs

/-- The reachable tuples of the property leaves, in the order of the walk. -/
def reachTuples (m : Cegar.Model) : Option (List (List Nat)) :=
  match Explore.explore (fun t e => m.tupleStep e t) (fun _ => false) (fun _ => false)
    (List.range m.events.length) ((m.propLeaves.map fun i => (m.leaf i).nStates).prod + 1)
    (List.replicate m.propLeaves.length 0) with
  | some (.closed states) => some (states.map Prod.fst)
  | _ => none

/-- The monitor over the events: the reachable sub-product of the property leaves. -/
def buildMonitor (m : Cegar.Model) (atoms : List BExpr) : Except BuildError Cegar.Model :=
  match reachTuples m with
  | none => .error (.factory .fuel)
  | some tuples => do
      let bad ← tuples.mapM fun t => atomsHold (tupleWord seed m t) atoms
      return { m with
        mon :=
          { nStates := tuples.length
            nEvents := m.events.length
            delta := tuples.flatMap fun t => (List.range m.events.length).map fun e =>
              (m.tupleStep e t).map fun t' => tuples.idxOf t'
            bad := bad }
        monitorValues := tuples.map (tupleValues m) }

/-- The built model, and the seed word. -/
structure CegarBridge where
  model : Cegar.Model
  seed : Xpl.Word

/-- How many letters each leaf needs. -/
def letterCounts : Except BuildError (List Nat) := do
  match ← s.seeds R with
  | [seed] =>
    let doms ← (List.range s.order.length).mapM (buildDomain s seed)
    let compiled ← compileEvents R s seed doms s.events
    return (List.range s.order.length).map fun p => (lettersOf compiled p).length
  | _ => return []

def joinAtoms (atoms : List Datum) : String :=
  String.intercalate " " (atoms.map fun d => String.ofList (write d))

def buildCegarModel (atoms : List Datum) : Except BuildError CegarBridge := do
  if s.order.isEmpty then refuse 0 "the spec declares no leaves"
  else do
    match ← s.seeds R with
    | [seed] =>
      let doms ← (List.range s.order.length).mapM (buildDomain s seed)
      let batoms ← readProperty R s atoms
      let compiled ← compileEvents R s seed doms s.events
      let m : Cegar.Model :=
        { leaves := (List.range s.order.length).map fun p =>
            buildLeaf compiled p (doms.getD p ⟨0, 0, []⟩)
          leafNames := s.order
          events := compiled.map (buildCegarEvent compiled)
          mon := ⟨0, 0, [], []⟩
          propLeaves := sortPositions (batoms.flatMap supportBool)
          monitorValues := []
          propertyText := joinAtoms atoms }
      return ⟨← buildMonitor seed m batoms, seed⟩
    | seeds => refuse 0 ("the model has " ++ toString seeds.length ++
        " initial states; the fragment wants one")

end Bridge

end LibHSC.Surface
