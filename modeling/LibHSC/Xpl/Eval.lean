import LibHSC.Lia.Factory

/-!
Concrete evaluation of expressions against one state of the explicit engine:
every fold step lands back in a machine value, leaving it is loud. Undefined is
Kleene inside a guard and an error at any decision; a decided connective stops.
-/

namespace LibHSC.Xpl

open Lia

/-- A state: one value for each position. -/
abbrev Word := List Int

/-- What stops an evaluation. The texts of the source only name the culprit. -/
inductive EvalError where
  | undefined
  | overflow (v : Int)
  | outside (pos arity : Nat)
  | targetIndex (i : Int) (cells : Nat)
  | twoWrites
  /-- An unchecked access of the source. -/
  | undefinedBehaviour
  deriving DecidableEq, Repr

def check32 (v : Int) : Except EvalError Int :=
  if InInt32 v then .ok v else .error (.overflow v)

def powSteps (l : Int) : Nat → Int → Except EvalError Int
  | 0, acc => .ok acc
  | n + 1, acc => do powSteps l n (← check32 (acc * l))

/-- One binary step; `none` is undefined. -/
def foldStep : BinOp → Int → Int → Except EvalError (Option Int)
  | .minus, l, r => do return some (← check32 (l - r))
  | .div, l, r => if r = 0 then .ok none else do return some (← check32 (l.tdiv r))
  | .mod, l, r => if r = 0 then .ok none else do return some (← check32 (l.tmod r))
  | .pow, l, r =>
    if r < 0 then .ok none else do return some (← check32 (← powSteps l r.toNat 1))
  | .bitAnd, l, r => do return some (← check32 (Int.land l r))
  | .bitOr, l, r => do return some (← check32 (Int.lor l r))
  | .bitXor, l, r => do return some (← check32 (Int.xor l r))
  | .lshift, l, r =>
    if r < 0 ∨ 32 ≤ r then .ok none else do return some (← check32 (l * 2 ^ r.toNat))
  | .rshift, l, r =>
    if r < 0 ∨ 32 ≤ r then .ok none else do return some (← check32 (l >>> r.toNat))

mutual

/-- The value in the state `env`; `none` is undefined. -/
def evalInt (env : Word) : IExpr → Except EvalError (Option Int)
  | .undef => .ok none
  | .const v => .ok (some v)
  | .var p =>
    match env[p]? with
    | some v => .ok (some v)
    | none => .error (.outside p env.length)
  | .nary k ops => evalNary env k k.neutral ops
  | .binary k a b => do
      match ← evalInt env a with
      | none => return none
      | some l =>
        match ← evalInt env b with
        | none => return none
        | some r => foldStep k l r
  | .bitComp a => do
      match ← evalInt env a with
      | none => return none
      | some v => return some (-v - 1)
  | .array cells index => do
      match ← evalInt env index with
      | none => return none
      | some i =>
        if i < 0 then return none
        else
          match cells[i.toNat]? with
          | none => return none
          | some p =>
            match env[p]? with
            | some v => return some v
            | none => .error .undefinedBehaviour
  | .wrapBool b => do
      match ← evalBool env b with
      | .yes => return some 1
      | .no => return some 0
      | .undef => return none

def evalNary (env : Word) (k : NaryOp) : Int → List IExpr → Except EvalError (Option Int)
  | acc, [] => .ok (some acc)
  | acc, x :: xs => do
      match ← evalInt env x with
      | none => return none
      | some v => evalNary env k (← check32 (k.eval acc v)) xs

def evalBool (env : Word) : BExpr → Except EvalError Truth
  | .bfalse => .ok .no
  | .btrue => .ok .yes
  | .bundef => .ok .undef
  | .cmp k l r => do
      match ← evalInt env l with
      | none => return .undef
      | some x =>
        match ← evalInt env r with
        | none => return .undef
        | some y => return Truth.ofBool (cmpEval k x y)
  | .conn k ops => evalConn env k false ops
  | .neg a => do return (← evalBool env a).not

/-- The operands in order, up to the first decisive one. -/
def evalConn (env : Word) (k : ConnOp) : Bool → List BExpr → Except EvalError Truth
  | sawUndef, [] => .ok (if sawUndef then .undef else k.decisive.not)
  | sawUndef, x :: xs => do
      let t ← evalBool env x
      if t = k.decisive then return k.decisive
      else evalConn env k (sawUndef || decide (t = .undef)) xs

end

/-- A guard as a decision. -/
def decideGuard (env : Word) (g : BExpr) : Except EvalError Bool := do
  match ← evalBool env g with
  | .yes => return true
  | .no => return false
  | .undef => .error .undefined

/-- An integer as a decision: a right-hand side or a target index. -/
def strictInt (env : Word) (e : IExpr) : Except EvalError Int := do
  match ← evalInt env e with
  | some v => return v
  | none => .error .undefined

/-- A conjunction holds where its operands do: a decided one stops, but at `no`. -/
theorem evalConn_conj {env : Word} {xs : List BExpr} : ∀ {saw : Bool},
    (evalConn env .conj saw xs = .ok .yes ↔ saw = false ∧ ∀ x ∈ xs, evalBool env x = .ok .yes) := by
  induction xs with
  | nil =>
    intro saw
    cases saw with
    | true => simp [evalConn]
    | false => simp [evalConn, ConnOp.decisive, Truth.not]
  | cons x xs ih =>
    intro saw
    rw [evalConn, List.forall_mem_cons]
    cases hx : evalBool env x with
    | error e => simp [bind, Except.bind]
    | ok t =>
      cases t with
      | no => simp [bind, Except.bind, ConnOp.decisive, pure, Except.pure]
      | yes =>
        simp only [bind, Except.bind, ConnOp.decisive, reduceCtorEq, if_false, decide_false,
          Bool.or_false, true_and]
        exact ih
      | undef =>
        simp only [bind, Except.bind, ConnOp.decisive, reduceCtorEq, if_false, decide_true,
          Bool.or_true]
        refine iff_of_false (fun h => ?_) (by simp)
        exact absurd (ih.mp h).1 (by simp)

/-! ## What an evaluation reads -/

/-- The states agree where the expression reads. -/
structure Agree (env env' : Word) (ps : List Nat) : Prop where
  length : env.length = env'.length
  same : ∀ p ∈ ps, env[p]? = env'[p]?

theorem Agree.left {env env' : Word} {ps qs : List Nat} (h : Agree env env' (ps ++ qs)) :
    Agree env env' ps :=
  ⟨h.length, fun p hp => h.same p (List.mem_append_left _ hp)⟩

theorem Agree.right {env env' : Word} {ps qs : List Nat} (h : Agree env env' (ps ++ qs)) :
    Agree env env' qs :=
  ⟨h.length, fun p hp => h.same p (List.mem_append_right _ hp)⟩

section Congruence

variable {env env' : Word}

mutual

/-- An evaluation is a function of the scalars and the cells it names. -/
theorem evalInt_congr : (e : IExpr) → Agree env env' (collect e) →
    Agree env env' (collectArrays e) → evalInt env e = evalInt env' e
  | .undef, _, _ => rfl
  | .const _, _, _ => rfl
  | .var p, h, _ => by
    rw [evalInt, evalInt, h.same p (List.mem_singleton.mpr rfl), h.length]
  | .nary k ops, h, ha => by
    rw [evalInt, evalInt, evalNary_congr k ops h ha]
  | .binary k a b, h, ha => by
    rw [evalInt, evalInt, evalInt_congr a h.left ha.left, evalInt_congr b h.right ha.right]
  | .bitComp a, h, ha => by rw [evalInt, evalInt, evalInt_congr a h ha]
  | .array cells index, h, ha => by
    rw [evalInt, evalInt, evalInt_congr index h ha.right]
    congr 1
    funext r
    cases r with
    | none => rfl
    | some i =>
      dsimp only
      split
      · rfl
      · cases hi : cells[i.toNat]? with
        | none => rfl
        | some p =>
          have hp := ha.same p (List.mem_append_left _ (List.mem_of_getElem? hi))
          simp only [hp]
  | .wrapBool b, h, ha => by rw [evalInt, evalInt, evalBool_congr b h ha]

theorem evalNary_congr (k : NaryOp) : (xs : List IExpr) → Agree env env' (collectList xs) →
    Agree env env' (collectArraysList xs) → ∀ {acc}, evalNary env k acc xs = evalNary env' k acc xs
  | [], _, _ => rfl
  | x :: xs, h, ha => by
    rw [evalNary, evalNary, evalInt_congr x h.left ha.left]
    congr 1
    funext r
    cases r with
    | none => rfl
    | some v =>
      dsimp only
      congr 1
      funext a
      exact evalNary_congr k xs h.right ha.right

theorem evalBool_congr : (b : BExpr) → Agree env env' (collectBool b) →
    Agree env env' (collectArraysBool b) → evalBool env b = evalBool env' b
  | .bfalse, _, _ => rfl
  | .btrue, _, _ => rfl
  | .bundef, _, _ => rfl
  | .cmp k l r, h, ha => by
    rw [evalBool, evalBool, evalInt_congr l h.left ha.left, evalInt_congr r h.right ha.right]
  | .conn k ops, h, ha => by rw [evalBool, evalBool, evalConn_congr k ops h ha]
  | .neg a, h, ha => by rw [evalBool, evalBool, evalBool_congr a h ha]

theorem evalConn_congr (k : ConnOp) : (xs : List BExpr) → Agree env env' (collectBoolList xs) →
    Agree env env' (collectArraysBoolList xs) →
    ∀ {saw}, evalConn env k saw xs = evalConn env' k saw xs
  | [], _, _ => rfl
  | x :: xs, h, ha => by
    rw [evalConn, evalConn, evalBool_congr x h.left ha.left]
    congr 1
    funext t
    split
    · rfl
    · exact evalConn_congr k xs h.right ha.right

end

end Congruence

end LibHSC.Xpl
