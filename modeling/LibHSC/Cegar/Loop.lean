import LibHSC.Cegar.Learner
import LibHSC.Library.Images

/-!
The verification loop: search the product of the monitor and the published
classifiers, replay the witness on the leaves, refine the leaves that refuse it
until they are certified again. Leaves with one transition table share a
learner.
-/

namespace LibHSC.Cegar

/-- Which culprits of a witness are refined. -/
inductive Culprits where
  | all
  | first
  | cheapest
  deriving DecidableEq, Repr

structure Options where
  pick : Culprits
  jumpExact : Bool
  intern : Bool
  cap : Int
  deriving DecidableEq, Repr

/-- The statistics of the wall clock are left out. -/
structure RunResult where
  v : Verdict
  rounds : Nat
  cexTotal : Nat
  budget : Nat
  leavesChaotic : Nat
  leavesIntermediate : Nat
  leavesExact : Nat
  invSize : Nat
  certificate : String
  finalValues : List Int
  deriving DecidableEq, Repr

/-! ## The profile -/

/-- One entry per distinct non-property leaf. A property leaf has none: the
monitor tracks it exactly. -/
structure Profile where
  entries : List Learner
  entryStates : List Nat
  entryLeaf : List Nat
  ofLeaf : List (Option Nat)
  deriving DecidableEq, Repr

namespace Profile

/-- The entry an interned leaf shares: the one of its key. -/
def shared (m : Model) (intern : Bool) (p : Profile) (i : Nat) : Option Nat :=
  if intern then p.entryLeaf.findIdx? fun j => (m.leaf j).serialize = (m.leaf i).serialize
  else none

def add (m : Model) (intern : Bool) (fuel : Nat) (p : Profile) (i : Nat) : Except Stop Profile :=
  if m.isProp i then .ok { p with ofLeaf := p.ofLeaf ++ [none] }
  else match p.shared m intern i with
    | some e => .ok { p with ofLeaf := p.ofLeaf ++ [some e] }
    | none => do
        let l ← Learner.start fuel (m.leaf i)
        return { entries := p.entries ++ [l]
                 entryStates := p.entryStates ++ [(m.leaf i).nStates]
                 entryLeaf := p.entryLeaf ++ [i]
                 ofLeaf := p.ofLeaf ++ [some p.entries.length] }

def addAll (m : Model) (intern : Bool) (fuel : Nat) : List Nat → Profile → Except Stop Profile
  | [], p => .ok p
  | i :: is, p => do addAll m intern fuel is (← add m intern fuel p i)

def build (m : Model) (intern : Bool) (fuel : Nat) : Except Stop Profile :=
  addAll m intern fuel (List.range m.leaves.length) ⟨[], [], [], []⟩

variable (p : Profile)

def budget : Nat := (p.entryStates.map (· + 1)).sum

def cexTotal : Nat := (p.entries.map Learner.nCex).sum

/-- The published classifiers, by entry. -/
def published : Except Stop (List Classifier) := p.entries.mapM Learner.published

def indexTotal : Except Stop Nat := do return ((← p.published).map Classifier.k).sum

/-- The classifier of a leaf; none for a property leaf. -/
def classifierOf (pubs : List Classifier) (i : Nat) : Option Classifier :=
  (p.ofLeaf.getD i none).bind fun e => pubs[e]?

end Profile

/-! ## Search and replay -/

/-- A leaf's move in the abstract product: its class steps, a dead class blocks,
and a property leaf is the monitor's. -/
def abstractMove (h : Nat → Option Classifier) (l c a : Nat) : Option Nat :=
  match h l with
  | none => some c
  | some H => if H.live (H.step c a) then some (H.step c a) else none

def search (m : Model) (h : Nat → Option Classifier) (cap : Int) (fuel : Nat) :
    Except Stop (Explore.Outcome (List Nat) Nat) :=
  match productWalk m (m.productStep (abstractMove h)) cap fuel with
  | none => .error .fuel
  | some o => .ok o

/-- The leaves that refuse their projection of a witness. -/
def replay (m : Model) (w : List Nat) : List Nat → Except Stop (List Nat)
  | [] => .ok []
  | i :: is =>
    if m.project w i = [] then replay m w is
    else if ((m.leaf i).fire (m.project w i)).isSome then replay m w is
    else if m.isProp i then .error (.die "property-leaf projection failed on replay")
    else do return i :: (← replay m w is)

/-! ## Refinement -/

section Refine

variable (leaf : Lts) (leafBudget : Nat) (closeFuel : Nat)

/-- Feed certification counterexamples back until the hypothesis is certified. -/
def certifyLoop : Nat → Learner → Except Stop Learner
  | 0, _ => .error .fuel
  | fuel + 1, l => do
      let c ← certify leaf (← l.published)
      if c.certified then return l
      else if leafBudget < l.nCex then .error (.die "budget exceeded")
      else certifyLoop fuel (← l.addCounterexample closeFuel c.counterexample)

/-- Refine until certified and rejecting `u`. -/
def refineUntilResolved (u : List Nat) : Nat → Learner → Except Stop Learner
  | 0, _ => .error .fuel
  | fuel + 1, l =>
    if leafBudget < l.nCex then .error (.die "budget exceeded")
    else do
      let h ← l.published
      if h.accepts u then
        let l' ← certifyLoop leaf leafBudget closeFuel (fuel + 1)
          (← l.addCounterexample closeFuel u)
        if (← l'.published).accepts u then refineUntilResolved u fuel l' else return l'
      else
        let c ← certify leaf h
        if c.certified then return l
        else refineUntilResolved u fuel (← l.addCounterexample closeFuel c.counterexample)

/-- Drive a hypothesis to the leaf's own language: certification one way, the
reverse gap the other. -/
def driveExact : Nat → Learner → Except Stop Learner
  | 0, _ => .error .fuel
  | fuel + 1, l =>
    if leafBudget + 1 < l.nCex then .error (.die "budget exceeded")
    else do
      let h ← l.published
      let c ← certify leaf h
      if c.certified then
        match ← reverseGap leaf h with
        | none => return l
        | some gap => driveExact fuel (← l.addCounterexample closeFuel gap)
      else driveExact fuel (← l.addCounterexample closeFuel c.counterexample)

/-- The refinement of one entry, with the exact jump when it is asked for. -/
def refineEntry (jumpExact : Bool) (u : List Nat) (fuel : Nat) (l : Learner) :
    Except Stop Learner := do
  let l' ← refineUntilResolved leaf leafBudget closeFuel u fuel l
  if jumpExact then driveExact leaf leafBudget closeFuel fuel l' else return l'

end Refine

/-- The culprits a policy refines. -/
def pickCulprits (h : Nat → Option Classifier) : Culprits → List Nat → List Nat
  | .all, culprits => culprits
  | .first, culprits => culprits.take 1
  | .cheapest, [] => []
  | .cheapest, c :: cs =>
    let size (i : Nat) : Nat := ((h i).map Classifier.k).getD 0
    [(c :: cs).foldl (fun best i => if size i < size best then i else best) c]

/-- Refine each entry of the picked culprits, once per round. -/
def refineCulprits (m : Model) (opt : Options) (fuel : Nat) (w : List Nat) :
    List Nat → List Nat → Profile → Except Stop Profile
  | [], _, p => .ok p
  | c :: cs, done, p =>
    match p.ofLeaf.getD c none with
    | none => refineCulprits m opt fuel w cs done p
    | some e =>
      if e ∈ done then refineCulprits m opt fuel w cs done p
      else match p.entries[e]? with
        | none => refineCulprits m opt fuel w cs done p
        | some l => do
            let l' ← refineEntry (m.leaf c) (p.entryStates.getD e 0 + 1) fuel opt.jumpExact
              (m.project w c) fuel l
            if (← l'.published).accepts (m.project w c) then
              .error (.die "refined witness still accepted")
            else
              refineCulprits m opt fuel w cs (e :: done)
                { p with entries := p.entries.set e l' }

/-! ## The certificate -/

section Certificate

variable (m : Model) (p : Profile) (h : Nat → Option Classifier)

def leafName (i : Nat) : String := m.leafNames.getD i ""

/-- The action lines of a table. -/
def emitActions (c : Classifier) : String :=
  String.join ((List.range c.k).flatMap fun cl => (List.range c.nLetters).map fun a =>
    "\n  (a " ++ toString cl ++ " " ++ toString a ++ " " ++ toString (c.step cl a) ++ ")")

def emitDead (c : Classifier) : String :=
  match c.dead with
  | none => "-1"
  | some d => toString d

/-- One table per entry, at its first leaf; the other leaves of the entry are
aliases. -/
def emitTable (i : Nat) : String :=
  match p.ofLeaf.getD i none, h i with
  | some e, some c =>
    let rep := p.ofLeaf.idxOf (some e)
    if rep = i then
      "(classifier " ++ leafName m i ++ " " ++ toString c.k ++ " " ++ emitDead c ++
        emitActions c ++ ")\n"
    else "(use " ++ leafName m i ++ " " ++ leafName m rep ++ ")\n"
  | _, _ => ""

/-- One state of the invariant: classes, and values for the property leaves. -/
def emitState (st : List Nat) : String :=
  let vals := m.monitorValues.getD (st.getD 0 0) []
  "(inv" ++ String.join ((List.range m.leaves.length).map fun i =>
    " (" ++ leafName m i ++ " " ++
      (if (p.ofLeaf.getD i none).isSome then toString (st.getD (i + 1) 0)
        else toString (vals.getD (m.propLeaves.idxOf i) 0)) ++ ")") ++ ")\n"

def emitCertificate (inv : List (List Nat)) : String :=
  "(certificate (select " ++ m.propertyText ++ "))\n" ++
    String.join ((List.range m.leaves.length).map (emitTable m p h)) ++
    String.join (inv.map (emitState m p))

end Certificate

/-! ## The run -/

/-- The rung of one entry: chaotic, exact or between. -/
def rung (m : Model) (p : Profile) (e : Nat) (c : Classifier) : Except Stop (Nat × Nat × Nat) :=
  if c.k = 1 ∧ c.dead = none then .ok (1, 0, 0)
  else do
    match ← reverseGap (m.leaf (p.entryLeaf.getD e 0)) c with
    | none => return (0, 0, 1)
    | some _ => return (0, 1, 0)

/-- The counts of the three rungs. -/
def countRungs (m : Model) (p : Profile) : List (Nat × Classifier) → Except Stop (Nat × Nat × Nat)
  | [] => .ok (0, 0, 0)
  | (e, c) :: rest => do
      let (a, b, x) ← rung m p e c
      let (a', b', x') ← countRungs m p rest
      return (a + a', b + b', x + x')

/-- The verdict with the statistics of the run. -/
def finish (m : Model) (p : Profile) (pubs : List Classifier) (rounds : Nat) (v : Verdict)
    (invSize : Nat) (certificate : String) (finalValues : List Int) : Except Stop RunResult := do
  let counts ← countRungs m p ((List.range pubs.length).zip pubs)
  return ⟨v, rounds, p.cexTotal, p.budget, counts.1, counts.2.1, counts.2.2, invSize,
    certificate, finalValues⟩

/-- The value of a leaf at the end of a validated witness. -/
def finalValue (m : Model) (w : List Nat) (i : Nat) : Except Stop Int :=
  match (m.leaf i).fire (m.project w i) with
  | none => .error (.die "validated witness stopped refiring")
  | some q => .ok ((m.leaf i).valueOf.getD q 0)

/-- The refinement of a round, with its progress and budget checks; the new
profile and its index. -/
def refineRound (m : Model) (opt : Options) (fuel : Nat) (p : Profile) (lastIndex : Nat)
    (w culprits : List Nat) : Except Stop (Profile × Nat) := do
  let p' ← refineCulprits m opt fuel w culprits [] p
  let idx ← p'.indexTotal
  if idx ≤ lastIndex then .error (.die "no progress in refinement round")
  else if p'.budget < p'.cexTotal then .error (.die "global budget exceeded")
  else return (p', idx)

/-- The rounds of the loop. -/
def rounds (m : Model) (opt : Options) (fuel : Nat) :
    Nat → Profile → Nat → Nat → Except Stop RunResult
  | 0, _, _, _ => .error .fuel
  | n + 1, p, lastIndex, round => do
      let pubs ← p.published
      let h := p.classifierOf pubs
      match ← search m h opt.cap fuel with
      | .capped states => finish m p pubs round ⟨.cap, [], states.length⟩ 0 "" []
      | .closed states =>
        finish m p pubs round ⟨.holds, [], states.length⟩ states.length
          (emitCertificate m p h (states.map Prod.fst)) []
      | .found w states =>
        let culprits ← replay m w (List.range m.leaves.length)
        if culprits = [] then
          let values ← (List.range m.leaves.length).mapM (finalValue m w)
          finish m p pubs round ⟨.violation, w, states.length⟩ 0 "" values
        else
          let next ← refineRound m opt fuel p lastIndex w (pickCulprits h opt.pick culprits)
          rounds m opt fuel n next.1 next.2 (round + 1)

/-- The loop on a model. `fuel` bounds the rounds and every loop inside one. -/
def run (m : Model) (opt : Options) (fuel : Nat) : Except Stop RunResult := do
  let p ← Profile.build m opt.intern fuel
  rounds m opt fuel fuel p (← p.indexTotal) 1

end LibHSC.Cegar
