import LibHSC.Ctl.Forward
import Mathlib.Data.Finset.Union

/-!
The checker: set expressions and the backward `Sat` over a model, the verdict. A
code stands for the finite set of states it denotes, a term for the set of
successors it gives each state. The environment variables are at their defaults, and
a loop that is not done in the rounds it is given is a stopped one.
-/

namespace LibHSC.Ctl

open Lia (ConnOp Truth)

/-- A question the model cannot answer, and a run stopped by its deadline. -/
inductive Halt
  | refused
  | stopped
deriving DecidableEq, Repr

inductive Verdict
  | yes
  | no
  | unknown
deriving DecidableEq, Repr

/-- What the checker evaluates against. An empty list of converses means that there
are none. -/
structure Model (σ : Type) where
  next : List (σ → Finset σ)
  pred : List (σ → Finset σ)
  rawPred : List (σ → Finset σ)
  atom : Nat → σ → Truth
  reach : Finset σ
  init : Finset σ
  dead : Finset σ

mutual

/-- The value of a state formula. -/
def value {σ : Type} (atom : Nat → σ → Truth) : Formula → σ → Truth
  | .atom a, s => atom a s
  | .tru, _ => .yes
  | .fls, _ => .no
  | .not f, s => (value atom f s).not
  | .nary k kids, s => valueAll atom k kids s
  | _, _ => .undef

def valueAll {σ : Type} (atom : Nat → σ → Truth) (k : ConnOp) : List Formula → σ → Truth
  | [], _ => k.decisive.not
  | f :: fs, s => k.step (value atom f s) (valueAll atom k fs s)

end

section Sets

variable {σ : Type} [DecidableEq σ]

def successors (evs : List (σ → Finset σ)) (x : σ) : Finset σ :=
  evs.foldr (fun e acc => e x ∪ acc) ∅

/-- The one-step image under a list of terms. -/
def image (evs : List (σ → Finset σ)) (s : Finset σ) : Finset σ := s.biUnion (successors evs)

/-- The least fixpoint of `X ∪ h X` above a set. -/
def lfpLoop (h : Finset σ → Finset σ) : Nat → Finset σ → Except Halt (Finset σ)
  | 0, _ => .error .stopped
  | n + 1, x => if x ∪ h x = x then .ok x else lfpLoop h n (x ∪ h x)

/-- The greatest fixpoint of `X ∩ h X` below a set. -/
def gfpLoop (h : Finset σ → Finset σ) : Nat → Finset σ → Except Halt (Finset σ)
  | 0, _ => .error .stopped
  | n + 1, x => if x ∩ h x = x then .ok x else gfpLoop h n (x ∩ h x)

end Sets

namespace Model

variable {σ : Type} [DecidableEq σ] (M : Model σ) (ids : Formula → Nat) (rounds : Nat)

def events (backward : Bool) : List (σ → Finset σ) := if backward then M.pred else M.next

/-- The hulls step with the unprotected converses, when there are some. -/
def hullEvents (backward : Bool) : List (σ → Finset σ) :=
  if backward then (if M.rawPred.isEmpty then M.pred else M.rawPred) else M.next

/-- The states of a set where the state formula holds. -/
def filter (s : Finset σ) (f : Formula) : Finset σ := s.filter fun x => value M.atom f x = .yes

/-- The states of `x0` with an infinite path through it, in the direction asked. -/
def hull (backward : Bool) (x0 : Finset σ) : Except Halt (Finset σ) :=
  if x0 = ∅ ∨ (M.hullEvents backward).isEmpty then .ok x0
  else gfpLoop (image (M.hullEvents backward)) rounds x0

def hullNonempty (backward : Bool) (x0 : Finset σ) : Except Halt Bool :=
  if x0 = ∅ then .ok false else do return decide ((← M.hull rounds backward x0) ≠ ∅)

/-- Whether the reachable set has a cycle. -/
def hasCycles : Except Halt Bool :=
  if M.next.isEmpty then .ok false else M.hullNonempty rounds false M.reach

section Operators

variable (S : Formula → Except Halt (Finset σ))

/-- A set restricted to a formula: by its selector, or by its `Sat`. -/
def restrict (s : Finset σ) (q : Formula) : Except Halt (Finset σ) :=
  if isState q then .ok (M.filter s q) else do return s ∩ (← S q)

/-- The closure of a set under the events of a direction constrained by `q`, before
or after each step. -/
def constrainedLfp (backward : Bool) (start : Finset σ) (q : Formula) (before : Bool) :
    Except Halt (Finset σ) :=
  if start = ∅ then .ok ∅
  else if (M.events backward).isEmpty then .ok start
  else if q = .fls then .ok start
  else if isState q then
    if before then lfpLoop (fun x => image (M.events backward) (M.filter x q)) rounds start
    else lfpLoop (fun x => M.filter (image (M.events backward) x) q) rounds start
  else do
    let s ← S q
    if before then lfpLoop (fun x => image (M.events backward) (x ∩ s)) rounds start
    else lfpLoop (fun x => image (M.events backward) x ∩ s) rounds start

def satEu (f g : Formula) : Except Halt (Finset σ) := do
  let sg ← S g
  if M.pred.isEmpty then .error .refused else M.constrainedLfp rounds S true sg f false

/-- The states of `sf` with an infinite path through it, added where there are some. -/
def addHull (sf res : Finset σ) : Except Halt (Finset σ) :=
  if sf = ∅ then .ok res
  else do
    if ← M.hasCycles rounds then
      if ← M.hullNonempty rounds true sf then return res ∪ (← M.hull rounds true sf)
      else return res
    else return res

def satEg (f : Formula) : Except Halt (Finset σ) := do
  let sf ← S f
  if M.pred.isEmpty then .error .refused
  else do M.addHull rounds sf (← M.constrainedLfp rounds S true (M.dead ∩ sf) f false)

/-- Both computed, each refused or not. -/
def both (u g : Except Halt (Finset σ)) : Except Halt (Finset σ) :=
  match u, g with
  | .ok a, .ok b => .ok (a ∪ b)
  | .error .stopped, _ => .error .stopped
  | _, .error .stopped => .error .stopped
  | _, _ => .error .refused

def satAll (k : ConnOp) (acc : Finset σ) : List Formula → Except Halt (Finset σ)
  | [] => .ok acc
  | f :: fs => do
      let s ← S f
      satAll k (match k with | .conj => acc ∩ s | .disj => acc ∪ s) fs

end Operators

/-- The states that satisfy the formula, evaluated backward within the reachable set;
a universal operator through its existential dual. -/
def sat : Nat → Formula → Except Halt (Finset σ)
  | 0, _ => .error .stopped
  | n + 1, f =>
    if isState f then .ok (M.filter M.reach f)
    else match f with
      | .not g => do return M.reach \ (← sat n g)
      | .nary .conj kids => satAll (sat n) .conj M.reach kids
      | .nary .disj kids => satAll (sat n) .disj ∅ kids
      | .unary .ex g => do
          let s ← sat n g
          if M.pred.isEmpty then .error .refused else return image M.pred s
      | .unary .ax g => do
          let s ← sat n (negate ids g)
          if M.pred.isEmpty then .error .refused else return M.reach \ image M.pred s
      | .unary .ef g => M.satEu rounds (sat n) (constant true) g
      | .unary .ag g => do
          return M.reach \ (← M.satEu rounds (sat n) (constant true) (negate ids g))
      | .unary .eg g => M.satEg rounds (sat n) g
      | .unary .af g => do return M.reach \ (← M.satEg rounds (sat n) (negate ids g))
      | .binary .eu f g => M.satEu rounds (sat n) f g
      | .binary .ew f g => both (M.satEu rounds (sat n) f g) (M.satEg rounds (sat n) f)
      | .binary .au f g => do
          let nf := negate ids f
          let ng := negate ids g
          return M.reach \ (← both (M.satEu rounds (sat n) ng (nary ids .conj [nf, ng]))
            (M.satEg rounds (sat n) ng))
      | .binary .aw f g => do
          let nf := negate ids f
          let ng := negate ids g
          return M.reach \ (← M.satEu rounds (sat n) ng (nary ids .conj [nf, ng]))
      | _ => .error .refused

section Questions

variable (depth : Nat)

/-- The `q`-states reached from a set through `q`-states. -/
def reachThrough (a : Finset σ) (q : Formula) : Except Halt (Finset σ) := do
  let seed ← M.restrict (M.sat ids rounds depth) a q
  let rq ← M.constrainedLfp rounds (M.sat ids rounds depth) false seed q true
  M.restrict (M.sat ids rounds depth) rq q

/-- The set a set expression denotes. -/
def eval : SetExpr → Except Halt (Finset σ)
  | .init => .ok M.init
  | .filter r f => do return M.filter (← eval r) f
  | .ey r => do return image M.next (← eval r)
  | .fwdu r q => do M.constrainedLfp rounds (M.sat ids rounds depth) false (← eval r) q true
  | .fwdg r q => do
      let reachQ ← M.reachThrough ids rounds depth (← eval r) q
      if reachQ = ∅ ∨ M.next.isEmpty then return M.dead ∩ reachQ
      else if ← M.hasCycles rounds then
        return M.dead ∩ reachQ ∪ (← M.hull rounds false reachQ)
      else return M.dead ∩ reachQ
  | .restrict r f => do return (← eval r) ∩ (← M.sat ids rounds depth f)

/-- Breadth-first through `s`, the goal tested on each new frontier. -/
def search (s : Finset σ) (goal : Formula) : Nat → Finset σ → Finset σ → Except Halt Bool
  | 0, _, _ => .error .stopped
  | n + 1, seen, frontier =>
    if M.filter frontier goal ≠ ∅ then .ok true
    else
      let fresh := image M.next (frontier ∩ s) \ seen
      if fresh = ∅ then .ok false else search s goal n (seen ∪ fresh) fresh

def existsThrough (r0 : SetExpr) (q goal : Formula) : Except Halt Bool := do
  let a0 ← M.eval ids rounds depth r0
  if a0 = ∅ then return false
  else do
    let sq ← M.sat ids rounds depth q
    M.search sq goal rounds a0 a0

/-- Whether the set is nonempty, the outermost operator answered existentially. -/
def nonempty : SetExpr → Except Halt Bool
  | .init => .ok (decide (M.init ≠ ∅))
  | .filter (.fwdu r0 q) f =>
    if f = .fls then .ok false
    else if f ≠ .tru ∧ isState q = false then M.existsThrough ids rounds depth r0 q f
    else do return decide (M.filter (← M.eval ids rounds depth (.fwdu r0 q)) f ≠ ∅)
  | .filter r f =>
    if f = .fls then .ok false
    else do return decide (M.filter (← M.eval ids rounds depth r) f ≠ ∅)
  | .ey r => do return decide (image M.next (← M.eval ids rounds depth r) ≠ ∅)
  | .fwdu r _ => do return decide ((← M.eval ids rounds depth r) ≠ ∅)
  | .fwdg r q => do
      let reachQ ← M.reachThrough ids rounds depth (← M.eval ids rounds depth r) q
      if reachQ = ∅ then return false
      else if M.dead ∩ reachQ ≠ ∅ then return true
      else if M.next.isEmpty then return false
      else if ← M.hasCycles rounds then M.hullNonempty rounds false reachQ
      else return false
  | .restrict r f => do return decide ((← M.eval ids rounds depth (.restrict r f)) ≠ ∅)

/-- A refused leaf is unknown; a stopped one stops the question. -/
def askLeaf (s : SetExpr) : Except Halt Verdict :=
  match M.nonempty ids rounds depth s with
  | .ok b => .ok (if b then .yes else .no)
  | .error .refused => .ok .unknown
  | .error .stopped => .error .stopped

def askAny (unknown : Bool) : List SetExpr → Except Halt Verdict
  | [] => .ok (if unknown then .unknown else .no)
  | s :: ss => do
      match ← M.askLeaf ids rounds depth s with
      | .yes => return .yes
      | .no => askAny unknown ss
      | .unknown => askAny true ss

def ask : Question → Except Halt Verdict
  | .never => .ok .no
  | .nonempty s => M.askLeaf ids rounds depth s
  | .any ls => M.askAny ids rounds depth false ls

def check (form : ForwardForm) : Except Halt Verdict := do
  let v ← M.ask ids rounds depth form.root
  if form.negated then
    match v with
    | .yes => return .no
    | .no => return .yes
    | .unknown => return .unknown
  else return v

end Questions

end Model

end LibHSC.Ctl
