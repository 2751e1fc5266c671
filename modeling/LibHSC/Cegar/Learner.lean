import LibHSC.Cegar.Classifier

/-!
The learner of one leaf: an observation table of access words and experiments,
membership by firing the leaf, and the handling of a misclassified word. What it
publishes is chaos until the first counterexample, then the canonical form of
its table. Nothing is promised of a published hypothesis here: the certification
walk judges it.
-/

namespace LibHSC.Cegar

/-- The table: access words `S`, experiments `E`. The memo of memberships and the
cached publication are left out, both are functions of this state. -/
structure Learner where
  leaf : Lts
  S : List (List Nat)
  E : List (List Nat)
  virgin : Bool
  nCex : Nat
  deriving DecidableEq, Repr

namespace Learner

variable (l : Learner)

def member (w : List Nat) : Bool := (l.leaf.fire w).isSome

def row (u : List Nat) : List Bool := l.E.map fun e => l.member (u ++ e)

/-- The one-letter extensions of the access words, in the order of the scan. -/
def extensions : List (List Nat) :=
  l.S.flatMap fun s => (List.range l.leaf.nLetters).map fun a => s ++ [a]

/-- The first extension whose row no access word has. -/
def firstOpen : Option (List Nat) :=
  l.extensions.find? fun ua => !(l.S.any fun s => l.row s = l.row ua)

/-- Promote extensions until every row is an access word's. -/
def close : Nat → Learner → Except Stop Learner
  | 0, _ => .error .fuel
  | fuel + 1, l =>
    match l.firstOpen with
    | none => .ok l
    | some ua => close fuel { l with S := l.S ++ [ua] }

/-- The learner of a leaf, closed for the empty experiment. -/
def start (fuel : Nat) (leaf : Lts) : Except Stop Learner :=
  close fuel { leaf := leaf, S := [[]], E := [[]], virgin := true, nCex := 0 }

/-- The class of an extension: the first access word with its row. -/
def classOf (ua : List Nat) : Except Stop Nat :=
  match l.S.findIdx? fun s => l.row s = l.row ua with
  | none => .error (.die "table not closed")
  | some c => .ok c

/-- The table as an automaton. -/
def table : Except Stop RawTable := do
  let act ← l.extensions.mapM l.classOf
  return { nLetters := l.leaf.nLetters, k := l.S.length, act := act, live := l.S.map l.member }

/-- The current hypothesis, canonical. -/
def published : Except Stop Classifier :=
  if l.virgin then .ok (chaos l.leaf.nLetters) else do return canonicalize (← l.table)

/-- The shortest prefix that the table misclassifies. -/
def misclassified (t : RawTable) (w : List Nat) : Option (List Nat) :=
  w.inits.find? fun p => t.isLive (t.classify p) != l.member p

/-- Whether the rest of the word, read after the access word of the class of its
first `i` letters, is a trace. -/
def splice (t : RawTable) (bad : List Nat) (i : Nat) : Bool :=
  l.member (l.S.getD (t.classify (bad.take i)) [] ++ bad.drop i)

/-- The binary search for a flip between `lo` and `hi`; the distance halves. -/
def flip (t : RawTable) (bad : List Nat) (a0 : Bool) : Nat → Nat → Nat → Nat
  | 0, lo, _ => lo
  | fuel + 1, lo, hi =>
    if hi - lo ≤ 1 then lo
    else if l.splice t bad ((lo + hi) / 2) = a0 then flip t bad a0 fuel ((lo + hi) / 2) hi
    else flip t bad a0 fuel lo ((lo + hi) / 2)

/-- Process a misclassified word: the suffix past a flip is a new experiment, and
the table must grow. -/
def addCounterexample (fuel : Nat) (w : List Nat) : Except Stop Learner := do
  let t ← l.table
  match l.misclassified t w with
  | none =>
    if l.virgin then return { l with virgin := false }
    else .error (.die "counterexample agrees with the raw table")
  | some bad =>
    let a0 := l.splice t bad 0
    if a0 = l.splice t bad bad.length then .error (.die "no flip in counterexample")
    else do
      let exp := bad.drop (l.flip t bad a0 bad.length 0 bad.length + 1)
      if exp ∈ l.E then .error (.die "experiment already present")
      else do
        let l' ← close fuel { l with E := l.E ++ [exp], virgin := false }
        if l'.S.length ≤ l.S.length then
          .error (.die "counterexample did not grow the table")
        else return { l' with nCex := l'.nCex + 1 }

end Learner

end LibHSC.Cegar
