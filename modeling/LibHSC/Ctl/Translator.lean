import LibHSC.Ctl.Denote

/-!
The `(ctl NAME FORMULA)` command: the model handed to the checker, and which verdicts
are kept when the reachable set was cut by the deadline.

The inverter of the operations is a parameter here, over any states; what it promises of
a converse stands with it.
-/

namespace LibHSC.Ctl

open Lia (ConnOp Truth)
open Paths

/-- A declaration of the default system. An event has the atoms of its `when` clauses
and what its `do` clauses give; one that compiles to the identity is always enabled;
the guards of a family are not enumerable. -/
inductive Decl (σ : Type)
  | event (guards : List (σ → Truth)) (effect : σ → Finset σ)
  | idle
  | family (term : σ → Finset σ)

/-- The atoms of a guard all hold. -/
def enabled {σ : Type} (guards : List (σ → Truth)) (s : σ) : Bool :=
  guards.all fun g => g s == .yes

structure System (σ : Type) where
  decls : List (Decl σ)
  init : Finset σ
  atom : Nat → σ → Truth

/-- The converse of a term relative to a potential: true predecessors, and none of the
potential missing. -/
structure Inverter (σ : Type) where
  run : (σ → Finset σ) → Finset σ → Option (σ → Finset σ)
  sound : ∀ t P p, run t P = some p → ∀ x y, y ∈ p x → x ∈ t y
  complete : ∀ t P p, run t P = some p → ∀ x, ∀ y ∈ P, x ∈ t y → y ∈ p x

namespace System

variable {σ : Type} [DecidableEq σ] (D : System σ)

/-- The term an entry adds to the default system; an identity adds none. -/
def term : Decl σ → Option (σ → Finset σ)
  | .event guards effect => some fun s => if enabled guards s then effect s else ∅
  | .idle => none
  | .family t => some t

def isIdle : Decl σ → Bool
  | .idle => true
  | _ => false

def isFamily : Decl σ → Bool
  | .family _ => true
  | _ => false

def events : List (σ → Finset σ) := D.decls.filterMap term

def idleEvent : Bool := D.decls.any isIdle

def guardsComplete : Bool := !D.decls.any isFamily

/-- The events the temporal operators step with: a no-op is a self-loop. -/
def nextEvents : List (σ → Finset σ) :=
  if D.idleEvent then D.events ++ [fun s => {s}] else D.events

/-- The value of the guard of an entry: the conjunction of its atoms. -/
def guardValue : Decl σ → σ → Truth
  | .event guards _, s => guards.foldr (fun g acc => ConnOp.conj.step (g s) acc) .yes
  | .idle, _ => .yes
  | .family _, _ => .yes

/-- `(deadlock)`: the negation of the disjunction of the guards. -/
def deadlock (s : σ) : Truth :=
  (D.decls.foldr (fun d acc => ConnOp.disj.step (guardValue d s) acc) .no).not

/-- The deadlocks of a reachable set; none when the guards are not all known. -/
def dead (reach : Finset σ) : Finset σ :=
  if D.guardsComplete then reach.filter fun s => D.deadlock s = .yes else ∅

/-- The converses of the events against the reachable set, none when one of them has
none. One that leaves the set is protected by it. -/
def invertEvents (inv : Inverter σ) (reach : Finset σ) :
    List (σ → Finset σ) → Option (List (σ → Finset σ) × List (σ → Finset σ))
  | [] => some ([], [])
  | t :: ts => do
      let p ← inv.run t reach
      let (preds, raw) ← invertEvents inv reach ts
      let protectedPred := if image [p] reach ⊆ reach then p else fun x => p x ∩ reach
      return (protectedPred :: preds, p :: raw)

def converses (inv : Inverter σ) (reach : Finset σ) : List (σ → Finset σ) × List (σ → Finset σ) :=
  match invertEvents inv reach D.events with
  | none => ([], [])
  | some (preds, raw) =>
    if D.idleEvent && !preds.isEmpty then (preds ++ [fun s => {s}], raw ++ [fun s => {s}])
    else (preds, raw)

def model (inv : Inverter σ) (reach : Finset σ) : Model σ where
  next := D.nextEvents
  pred := (D.converses inv reach).1
  rawPred := (D.converses inv reach).2
  atom := D.atom
  reach := reach
  init := D.init
  dead := D.dead reach

section Command

variable (ids : Formula → Nat) (qids : SetExpr → Nat) (rounds depth : Nat)

/-- The verdict on a set that was cut, when it stands. -/
def keepPartial (phi : Formula) : Verdict → Verdict
  | .yes => if pathQuantifiers (nnf ids phi) = .existential then .yes else .unknown
  | .no => if pathQuantifiers (nnf ids phi) = .universal then .no else .unknown
  | .unknown => .unknown

/-- The command on a reachable set, cut or not. The question is asked as for one
initial state. -/
def doCtl (inv : Inverter σ) (reach : Finset σ) (reachPartial : Bool) (phi : Formula) :
    Except Halt Verdict := do
  let v ← (D.model inv reach).check ids rounds depth (convert ids qids phi true)
  return if reachPartial then keepPartial ids phi v else v

/-- What a model is built from: the default system as it is then, the reachable set, and
whether that was cut. -/
structure Built (σ : Type) where
  system : System σ
  reach : Finset σ
  reachPartial : Bool

/-- The first form of a session builds the model, and those after it ask the same one,
whatever was declared since. -/
def ctlForm (inv : Inverter σ) (kept : Option (Built σ)) (now : Built σ) (phi : Formula) :
    Except Halt Verdict :=
  let b := kept.getD now
  b.system.doCtl ids qids rounds depth inv b.reach b.reachPartial phi

end Command

/-! ## The reachability graph -/

/-- A step of the default system. -/
def Step (x y : σ) : Prop := ∃ t ∈ D.nextEvents, y ∈ t x

/-- The formula has the truth value `b` at a state. -/
def Sat (phi : Formula) (b : Bool) (x : σ) : Prop := phi.Sat D.Step D.atom b x

end System

end LibHSC.Ctl
