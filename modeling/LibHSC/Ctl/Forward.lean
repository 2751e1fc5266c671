import LibHSC.Ctl.Quantifiers

/-!
The forward form: from a seed and a formula to questions of emptiness over set
expressions. The conversion pushes the seed inward through the existential path
operators; a universal operator under the seed is left to its backward evaluation.
-/

namespace LibHSC.Ctl

open Lia (ConnOp)

/-- How a forward set is built. -/
inductive SetExpr
  | init
  | filter (r : SetExpr) (f : Formula)
  | ey (r : SetExpr)
  | fwdu (r : SetExpr) (q : Formula)
  | fwdg (r : SetExpr) (q : Formula)
  | restrict (r : SetExpr) (f : Formula)
deriving DecidableEq

/-- A leaf asks whether a set is nonempty. `any` is flat: its children are leaves. -/
inductive Question
  | never
  | nonempty (s : SetExpr)
  | any (leaves : List SetExpr)
deriving DecidableEq

def Question.leaves : Question → List SetExpr
  | .never => []
  | .nonempty s => [s]
  | .any ls => ls

structure ForwardForm where
  root : Question
  negated : Bool
deriving DecidableEq

section Forward

variable (ids : Formula → Nat) (qids : SetExpr → Nat)

/-- The disjunction of questions, flattened, `never` dropped, deduplicated. -/
def anyOf (kids : List Question) : Question :=
  match ((kids.flatMap Question.leaves).dedup).insertionSort (fun s t => qids s ≤ qids t) with
  | [] => .never
  | [s] => .nonempty s
  | ls => .any ls

/-- The seed filtered by a state formula, asked. -/
def stateRule (f : Formula) (r : SetExpr) : Question :=
  match f with
  | .fls => .never
  | .tru => .nonempty r
  | f => .nonempty (.filter r f)

/-- One conjunct with a path operator: the first convertible one seen goes on
forward, every other restricts the seed. -/
def conjunct (acc : SetExpr × Option (SetExpr → Question))
    (k : Formula × (SetExpr → Question)) : SetExpr × Option (SetExpr → Question) :=
  match acc.2 with
  | none => if convertible k.1 then (acc.1, some k.2) else (.restrict acc.1 k.1, none)
  | some g => (.restrict acc.1 k.1, some g)

section Choice

variable (fromLeft : Bool)

/-- A conjunction: its state formulas are one filter of the seed, and the last
convertible conjunct goes on forward, or the first one `fromLeft`. `rest` holds the
others with their rules. -/
def andRule (state : List Formula) (rest : List (Formula × (SetExpr → Question)))
    (r : SetExpr) : Question :=
  let cur := if state = [] then r else .filter r (nary ids .conj state)
  match (if fromLeft then rest else rest.reverse).foldl conjunct (cur, none) with
  | (cur, some g) => g cur
  | (cur, none) => .nonempty cur

mutual

/-- The question whether a state of `r` satisfies the formula. -/
def ruleFrom (f : Formula) : SetExpr → Question :=
  if isState f then stateRule f
  else match f with
    | .unary .ex g => fun r => ruleFrom g (.ey r)
    | .unary .ef g => fun r => ruleFrom g (.fwdu r (constant true))
    | .unary .eg q => fun r => .nonempty (.fwdg r q)
    | .binary .eu q g => fun r => ruleFrom g (.fwdu r q)
    | .binary .ew q g => fun r => anyOf qids [ruleFrom g (.fwdu r q), .nonempty (.fwdg r q)]
    | .nary .disj kids => fun r => anyOf qids ((rules kids).map fun k => k.2 r)
    | .nary .conj kids =>
      andRule ids fromLeft (kids.filter isState) ((rules kids).filter fun k => !isState k.1)
    | f => fun r => .nonempty (.restrict r f)

/-- The operands, each with its rule. -/
def rules : List Formula → List (Formula × (SetExpr → Question))
  | [] => []
  | f :: fs => (f, ruleFrom f) :: rules fs

end

theorem rules_eq (fs : List Formula) :
    rules ids qids fromLeft fs = fs.map fun f => (f, ruleFrom ids qids fromLeft f) := by
  induction fs with
  | nil => rfl
  | cons f fs ih => rw [rules, List.map_cons, ih]

end Choice

/-- The rule at its default choice. -/
def rule (f : Formula) : SetExpr → Question := ruleFrom ids qids false f

/-- With one initial state the side of the question is the one whose top is
convertible; with several it is always the negation. -/
def convert (phi : Formula) (singleInitial : Bool) : ForwardForm :=
  let nf := nnf ids phi
  if singleInitial && convertible nf then ⟨rule ids qids nf .init, false⟩
  else ⟨rule ids qids (negate ids nf) .init, true⟩

end Forward

end LibHSC.Ctl
