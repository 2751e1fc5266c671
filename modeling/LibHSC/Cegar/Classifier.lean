import LibHSC.Cegar.Model

/-!
Class tables and the leaf-local oracles over them. A classifier is a complete
action on classes with at most one dead class; its language is the words whose
class is live. `canonicalize` brings any live/dead table to the one
presentation of its language, `certify` walks the inclusion of a leaf's traces
in that language.
-/

namespace LibHSC.Cegar

/-- How a run of the loop ends without a verdict: an invariant check that aborts,
or a loop that outlives the fuel of the model. -/
inductive Stop where
  | die (what : String)
  | fuel
  deriving DecidableEq, Repr

/-- A complete class table before canonicalization. Class 0 is the class of the
empty word. -/
structure RawTable where
  nLetters : Nat
  k : Nat
  act : List Nat
  live : List Bool
  deriving DecidableEq, Repr

namespace RawTable

def step (t : RawTable) (c a : Nat) : Nat := t.act.getD (c * t.nLetters + a) 0

def classify (t : RawTable) (w : List Nat) : Nat := w.foldl t.step 0

def isLive (t : RawTable) (c : Nat) : Bool := t.live.getD c false

end RawTable

/-- The canonical presentation: classes in the order of their least access words. -/
structure Classifier where
  nLetters : Nat
  k : Nat
  dead : Option Nat
  act : List Nat
  reps : List (List Nat)
  deriving DecidableEq, Repr

namespace Classifier

def live (h : Classifier) (c : Nat) : Bool := decide (h.dead ≠ some c)

def step (h : Classifier) (c a : Nat) : Nat := h.act.getD (c * h.nLetters + a) 0

def classify (h : Classifier) (w : List Nat) : Nat := w.foldl h.step 0

def accepts (h : Classifier) (w : List Nat) : Bool := h.live (h.classify w)

/-- The canonical bytes; the access words are derived and left out. -/
def serialize (h : Classifier) : Nat × Nat × Option Nat × List Nat :=
  (h.nLetters, h.k, h.dead, h.act)

end Classifier

/-- The one-class table of all words: the initial rung. -/
def chaos (nLetters : Nat) : Classifier where
  nLetters := nLetters
  k := 1
  dead := none
  act := List.replicate nLetters 0
  reps := [[]]

/-! ## Canonicalization -/

section Canonicalize

variable (t : RawTable)

def hasDead : Bool := (List.range t.k).any fun c => !t.isLive c

/-- The block of a class, then the blocks of its successors. -/
def signature (part : List Nat) (c : Nat) : List Nat :=
  part.getD c 0 :: (List.range t.nLetters).map fun a => part.getD (t.step c a) 0

/-- The signatures of the live classes, in the order of their first class. -/
def signatures (part : List Nat) : List (List Nat) :=
  (((List.range t.k).filter t.isLive).map (signature t part)).eraseDups

/-- One round of the refinement: a live class goes to the block of its signature,
the dead ones stay one block, past the live ones. -/
def refineBlocks (part : List Nat) : List Nat :=
  let sigs := signatures t part
  (List.range t.k).map fun c =>
    if t.isLive c then sigs.idxOf (signature t part c) else sigs.length

def blockCount (part : List Nat) : Nat :=
  (signatures t part).length + if hasDead t then 1 else 0

/-- Refine until the number of blocks is stable; the blocks and their number. -/
def moore : Nat → List Nat → Nat → List Nat × Nat
  | 0, part, n => (part, n)
  | fuel + 1, part, n =>
    if blockCount t part = n then (refineBlocks t part, n)
    else moore fuel (refineBlocks t part) (blockCount t part)

/-- The refined partition. Each round but the last adds a block. -/
def partition : List Nat × Nat :=
  moore t (t.k + 2) ((List.range t.k).map fun c => if t.isLive c then 0 else 1)
    (if hasDead t then 2 else 1)

def deadBlock : Option Nat := if hasDead t then some ((partition t).2 - 1) else none

/-- The successor of a block, through its first class. The dead block absorbs. -/
def blockStep (block a : Nat) : Option Nat :=
  if deadBlock t = some block then none
  else (partition t).1[t.step ((partition t).1.idxOf block) a]?

/-- The blocks reached from the block of the empty word, letters ascending, with
their least access words. -/
def reachedBlocks : List (Nat × List Nat) :=
  match Explore.explore (blockStep t) (fun _ => false) (fun _ => false)
    (List.range t.nLetters) (t.k + 2) ((partition t).1.getD 0 0) with
  | some (.closed states) => states
  | _ => []

def canonicalAct (order : List Nat) : List Nat :=
  order.flatMap fun block => (List.range t.nLetters).map fun a =>
    match blockStep t block a with
    | none => order.idxOf block
    | some next => order.idxOf next

/-- Merge the dead classes into one absorbing sink, minimize, drop the
unreachable classes, rename in the order of least access words. -/
def canonicalize : Classifier :=
  let reached := reachedBlocks t
  let order := reached.map Prod.fst
  { nLetters := t.nLetters
    k := order.length
    dead := (deadBlock t).bind fun d => if d ∈ order then some (order.idxOf d) else none
    act := canonicalAct t order
    reps := reached.map Prod.snd }

end Canonicalize

/-! ## The inclusion walks -/

structure CertResult where
  certified : Bool
  counterexample : List Nat
  deriving DecidableEq, Repr

/-- The pairs of a leaf's state and its class, along defined transitions. -/
def pairStep (l : Lts) (h : Classifier) (p : Nat × Nat) (a : Nat) : Option (Nat × Nat) :=
  (l.step p.1 a).map fun q => (q, h.step p.2 a)

/-- The leaf-local inclusion check: no trace of the leaf is classified dead. The pairs are
numbered in 32 bits in the source, so that `nStates * k` stays below `2 ^ 31`. -/
def certify (l : Lts) (h : Classifier) : Except Stop CertResult :=
  match Explore.explore (pairStep l h) (fun p => !h.live p.2) (fun _ => false)
    (List.range l.nLetters) (l.nStates * h.k + 2) (0, 0) with
  | some (.found w _) => .ok ⟨false, w⟩
  | some (.closed _) => .ok ⟨true, []⟩
  | some (.capped _) => .error .fuel
  | none => .error .fuel

/-- The pairs of a live class and a state of the sink-completed leaf. -/
def gapStep (l : Lts) (h : Classifier) (p : Nat × Option Nat) (a : Nat) :
    Option (Nat × Option Nat) :=
  if h.live (h.step p.1 a) then some (h.step p.1 a, p.2.bind fun q => l.step q a) else none

/-- A word classified live that the leaf cannot fire, if there is one; its pairs are numbered
the same way. -/
def reverseGap (l : Lts) (h : Classifier) : Except Stop (Option (List Nat)) :=
  match Explore.explore (gapStep l h) (fun p => p.2.isNone) (fun _ => false)
    (List.range l.nLetters) (h.k * (l.nStates + 1) + 2) (0, some 0) with
  | some (.found w _) => .ok (some w)
  | some (.closed _) => .ok none
  | some (.capped _) => .error .fuel
  | none => .error .fuel

/-! ## What certification says -/

/-- Every trace of the leaf that takes a step is classified live. -/
def Included (l : Lts) (h : Classifier) : Prop :=
  ∀ w, w ≠ [] → (∀ a ∈ w, a < l.nLetters) → (l.fire w).isSome = true → h.accepts w = true

theorem classify_snoc (h : Classifier) (w : List Nat) (a : Nat) :
    h.classify (w ++ [a]) = h.step (h.classify w) a := by
  simp [Classifier.classify]

/-- The chaos table rejects nothing. -/
theorem included_chaos (l : Lts) (n : Nat) : Included l (chaos n) := by
  intro w _ _ _
  simp [Classifier.accepts, Classifier.live, chaos]

/-- The pair walk follows the leaf and the table in step. -/
theorem run_pairStep {l : Lts} {h : Classifier} (w : List Nat) :
    Explore.run (pairStep l h) (0, 0) w = (l.fire w).map fun q => (q, h.classify w) := by
  induction w using List.reverseRecOn with
  | nil => rfl
  | append_singleton w a ih =>
    have hfire : l.fire (w ++ [a]) = (l.fire w).bind fun q => l.step q a :=
      Explore.run_snoc 0 w a
    rw [Explore.run_snoc, ih, hfire]
    cases l.fire w with
    | none => rfl
    | some q => simp [pairStep, classify_snoc]

theorem included_of_certify {l : Lts} {h : Classifier} {r : CertResult}
    (hr : certify l h = .ok r) (hc : r.certified = true) : Included l h := by
  intro w hne hw hf
  unfold certify at hr
  split at hr
  · cases hr
    cases hc
  · next st hst =>
    obtain ⟨q, hq⟩ := Option.isSome_iff_exists.mp hf
    have hrun : Explore.run (pairStep l h) (0, 0) w = some (q, h.classify w) := by
      rw [run_pairStep, hq]
      rfl
    have hlive := (Explore.explore_closed hst (fun a ha => List.mem_range.mpr (hw a ha)) hrun).2 hne
    simpa [Classifier.accepts] using hlive
  · cases hr
  · cases hr

end LibHSC.Cegar
