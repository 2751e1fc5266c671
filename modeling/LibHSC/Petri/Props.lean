import LibHSC.Petri.Firing
import LibHSC.Dve.TranslateSound

/-!
Properties of a net as query atoms over the leaves of the emitted model: linear atoms on
the marking, boolean combinations, the enabling condition of a transition, the dead
markings. What the text of a property reads to means what the property means.
-/

namespace LibHSC.Petri

open Surface Xpl Lia PetriNets

/-! ## Properties -/

inductive Cmp where
  | eq
  | neq
  | le
  | ge
  | lt
  | gt
deriving DecidableEq

/-- The sum of the terms, place and coefficient, against a constant. -/
structure LinearAtom where
  terms : List (Nat × Int)
  constant : Int
  op : Cmp
deriving DecidableEq

inductive Expression where
  | true
  | false
  | not (e : Expression)
  | and (es : List Expression)
  | or (es : List Expression)
  | atom (a : LinearAtom)

def Cmp.holds : Cmp → Int → Int → Bool
  | .eq, l, r => decide (l = r)
  | .neq, l, r => decide (l ≠ r)
  | .le, l, r => decide (l ≤ r)
  | .ge, l, r => decide (l ≥ r)
  | .lt, l, r => decide (l < r)
  | .gt, l, r => decide (l > r)

section Eval

variable (m : Nat → Int)

def LinearAtom.holds (a : LinearAtom) : Bool := a.op.holds (termsValue m a.terms) a.constant

mutual

def Expression.eval : Expression → Bool
  | .true => Bool.true
  | .false => Bool.false
  | .not e => !e.eval
  | .and es => evalAll es
  | .or es => evalAny es
  | .atom a => a.holds m

def evalAll : List Expression → Bool
  | [] => Bool.true
  | e :: es => e.eval && evalAll es

def evalAny : List Expression → Bool
  | [] => Bool.false
  | e :: es => e.eval || evalAny es

end

end Eval

section Atoms

variable (P : LinearAtom → Prop)

mutual

/-- Every atom of the tree is of the kind. -/
def Expression.AllAtoms : Expression → Prop
  | .true => True
  | .false => True
  | .not e => e.AllAtoms
  | .and es => EachAllAtoms es
  | .or es => EachAllAtoms es
  | .atom a => P a

def EachAllAtoms : List Expression → Prop
  | [] => True
  | e :: es => e.AllAtoms ∧ EachAllAtoms es

end

end Atoms

/-! ## Their texts -/

inductive PropError where
  | outOfRange (message : String)
  | logic (message : String)

def cmpText : Cmp → String
  | .eq => "=="
  | .neq => "!="
  | .le => "<="
  | .ge => ">="
  | .lt => "<"
  | .gt => ">"

section Text

variable (pnames : List String)

def termText (t : Nat × Int) : Except PropError String :=
  match pnames[t.1]? with
  | none => .error (.outOfRange ("property refers to place index " ++ toString t.1 ++
      " beyond the net"))
  | some p => .ok (if t.2 = 1 then p else form "*" [toString t.2, p])

def constantAtom (value : Bool) : Except PropError String :=
  match pnames with
  | [] => .error (.logic "a constant atom needs a leaf")
  | p :: _ => .ok (if value then form ">=" [p, "0"] else form "<=" [p, "-1"])

/-- Right-nested binary sums, built from the last term back. -/
def linearForm : List (Nat × Int) → Except PropError String
  | [] => .ok "0"
  | [t] => termText pnames t
  | t :: ts => do
      let acc ← linearForm ts
      return form "+" [← termText pnames t, acc]

/-- A comparison between constants is folded. -/
def atomText (a : LinearAtom) : Except PropError String :=
  if a.terms = [] then constantAtom pnames (a.op.holds 0 a.constant)
  else do return form (cmpText a.op) [← linearForm pnames a.terms, toString a.constant]

mutual

def queryAtom : Expression → Except PropError String
  | .true => constantAtom pnames true
  | .false => constantAtom pnames false
  | .atom a => atomText pnames a
  | .not e => do return form "not" [← queryAtom e]
  | .and [e] => queryAtom e
  | .and es => do return form "and" (← queryAtoms es)
  | .or [e] => queryAtom e
  | .or es => do return form "or" (← queryAtoms es)

def queryAtoms : List Expression → Except PropError (List String)
  | [] => .ok []
  | e :: es => do return (← queryAtom e) :: (← queryAtoms es)

end

end Text

section NetText

variable (net : SparsePetriNet)

/-- The enabling condition of a transition; none when nothing is asked. -/
def guardAtom (t : Nat) : Option String :=
  match (net.pre t).entries with
  | [] => none
  | [e] => some (guardText net e)
  | es => some (form "and" (es.map (guardText net)))

/-- The dead markings; none when some transition is always enabled. -/
def deadlockAtom : Except PropError (Option String) :=
  if net.tnames.length = 0 then do return some (← constantAtom net.pnames true)
  else .ok (((List.range net.tnames.length).mapM (guardAtom net)).map fun gs =>
    form "not" [form "or" gs])

end NetText

/-! ## What a text means -/

/-- The operands of a sum the reader builds: no constant, no sum. -/
def Summand (x : IExpr) : Prop := (∃ p, x = .var p) ∨ ∃ ops, x = .nary .mult ops

/-- What the reader makes of a linear form. -/
def Linear (x : IExpr) : Prop :=
  x = .const 0 ∨ Summand x ∨ ∃ ops, x = .nary .plus ops ∧ ∀ o ∈ ops, Summand o

section Means

variable (R : ExprIds) (sc : Scope) (net : SparsePetriNet) (names : List String)

/-- In integer position the text is a linear form of this value, at every marking. -/
def MeansInt (text : String) (f : (Fin net.pnames.length → Int) → Int) : Prop :=
  ∃ d, Spells text d ∧ ∀ d', d'.erase = d → ∃ x, readInt R sc d' = .ok x ∧ Linear x ∧
    ∀ m, InRange m → Dve.Good (wordOf net names m) x ∧
      exactInt (ofState (wordOf net names m)) x = some (f m)

/-- In boolean position the text is read, and is true exactly where `P` is. -/
def Means (text : String) (P : (Fin net.pnames.length → Int) → Bool) : Prop :=
  ∃ d, Spells text d ∧ ∀ d', d'.erase = d → ∃ b, readBool R sc d' = .ok b ∧
    ∀ m, InRange m → Dve.GoodBool (wordOf net names m) b ∧
      exactBool (ofState (wordOf net names m)) b = Truth.ofBool (P m)

end Means

end LibHSC.Petri
