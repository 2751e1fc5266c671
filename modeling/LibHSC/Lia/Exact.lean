import LibHSC.Lia.Factory
import LibHSC.Library.Images
import Mathlib.Algebra.Order.Ring.Int

/-!
The exact meaning of an expression, in unbounded arithmetic: what evaluation
returns whenever no machine operation overflows. A reading gives the value at a
position and the value of an access; the evaluator reads a list of values and
leaves every access undefined.
-/

namespace LibHSC.Lia

/-- The values an expression is read in. -/
structure Reading where
  pos : Nat → Option Int
  access : List Nat → Int → Option Int

/-- What the evaluator reads. -/
def Reading.ofEnv (env : List Int) : Reading := ⟨fun p => env[p]?, fun _ _ => none⟩

/-- The reading of the positions from `n` on. -/
def Reading.drop (ρ : Reading) (n : Nat) : Reading := ⟨fun p => ρ.pos (p + n), ρ.access⟩

/-- A binary operator over unbounded values; `none` is the undefined result. -/
def foldExact : BinOp → Int → Int → Option Int
  | .minus, l, r => some (l - r)
  | .div, l, r => if r = 0 then none else some (l.tdiv r)
  | .mod, l, r => if r = 0 then none else some (l.tmod r)
  | .pow, l, r => if r < 0 then none else some (l ^ r.toNat)
  | .bitAnd, l, r => some (Int.land l r)
  | .bitOr, l, r => some (Int.lor l r)
  | .bitXor, l, r => some (Int.xor l r)
  | .lshift, l, r => if r < 0 ∨ 32 ≤ r then none else some (l * 2 ^ r.toNat)
  | .rshift, l, r => if r < 0 ∨ 32 ≤ r then none else some (l >>> r.toNat)

/-- A comparison of two values, undefined when one of them is. -/
def cmpExact (k : CmpOp) : Option Int → Option Int → Truth
  | some x, some y => Truth.ofBool (cmpEval k x y)
  | _, _ => .undef

def Truth.toInt : Truth → Option Int
  | .yes => some 1
  | .no => some 0
  | .undef => none

/-- One operand more of a sum or a product of values. -/
def NaryOp.exact (k : NaryOp) (a b : Option Int) : Option Int :=
  a.bind fun v => b.map (k.eval v)

section Meaning

variable (ρ : Reading)

mutual

def exactInt : IExpr → Option Int
  | .undef => none
  | .const v => some v
  | .var p => ρ.pos p
  | .nary k ops => exactNary k ops
  | .binary k a b => (exactInt a).bind fun l => (exactInt b).bind (foldExact k l)
  | .bitComp a => (exactInt a).map fun v => -v - 1
  | .array cells index => (exactInt index).bind (ρ.access cells)
  | .wrapBool b => (exactBool b).toInt

def exactNary (k : NaryOp) : List IExpr → Option Int
  | [] => some k.neutral
  | x :: xs => k.exact (exactInt x) (exactNary k xs)

def exactBool : BExpr → Truth
  | .bfalse => .no
  | .btrue => .yes
  | .bundef => .undef
  | .cmp k l r => cmpExact k (exactInt l) (exactInt r)
  | .conn k ops => exactConn k ops
  | .neg a => (exactBool a).not

def exactConn (k : ConnOp) : List BExpr → Truth
  | [] => k.decisive.not
  | x :: xs => k.step (exactBool x) (exactConn k xs)

end

end Meaning

/-! ## The evaluator is exact -/

theorem checked64_eq_ok {v w : Int} (h : checked64 v = .ok w) : w = v := by
  unfold checked64 at h
  split at h
  · cases h
    rfl
  · cases h

theorem plain64_eq_ok {v w : Int} (h : plain64 v = .ok w) : w = v := by
  unfold plain64 at h
  split at h
  · cases h
    rfl
  · cases h

theorem powLoop_eq_ok {l : Int} : ∀ {n : Nat} {acc v : Int}, powLoop l n acc = .ok v →
    v = acc * l ^ n := by
  intro n
  induction n with
  | zero =>
    intro acc v h
    cases h
    simp
  | succ n ih =>
    intro acc v h
    obtain ⟨a, ha, h⟩ := bind_eq_ok.mp h
    rw [ih h, checked64_eq_ok ha, pow_succ', Int.mul_assoc]

theorem fold_exact {k : BinOp} {l r : Int} {x : Option Int} (h : fold k l r = .ok x) :
    foldExact k l r = x := by
  cases k with
  | minus =>
    obtain ⟨v, hv, h⟩ := bind_eq_ok.mp h
    cases h
    rw [plain64_eq_ok hv, foldExact]
  | div =>
    rw [fold] at h
    rw [foldExact]
    split at h
    · next hr =>
      cases h
      rw [if_pos hr]
    · next hr =>
      obtain ⟨v, hv, h⟩ := bind_eq_ok.mp h
      cases h
      rw [if_neg hr, plain64_eq_ok hv]
  | mod =>
    rw [fold] at h
    rw [foldExact]
    split at h
    · next hr =>
      cases h
      rw [if_pos hr]
    · next hr =>
      split at h
      · cases h
      · cases h
        rw [if_neg hr]
  | pow =>
    rw [fold] at h
    rw [foldExact]
    split at h
    · next hr =>
      cases h
      rw [if_pos hr]
    · next hr =>
      obtain ⟨v, hv, h⟩ := bind_eq_ok.mp h
      cases h
      rw [if_neg hr, powLoop_eq_ok hv, one_mul]
  | bitAnd =>
    cases h
    rfl
  | bitOr =>
    cases h
    rfl
  | bitXor =>
    cases h
    rfl
  | lshift =>
    rw [fold] at h
    rw [foldExact]
    split at h
    · next hr =>
      cases h
      rw [if_pos hr]
    · next hr =>
      obtain ⟨v, hv, h⟩ := bind_eq_ok.mp h
      cases h
      rw [if_neg hr, checked64_eq_ok hv]
  | rshift =>
    rw [fold] at h
    rw [foldExact]
    split at h
    · next hr =>
      cases h
      rw [if_pos hr]
    · next hr =>
      cases h
      rw [if_neg hr]

theorem NaryOp.eval_assoc (k : NaryOp) (a b c : Int) :
    k.eval (k.eval a b) c = k.eval a (k.eval b c) := by
  cases k with
  | plus => exact Int.add_assoc a b c
  | mult => exact Int.mul_assoc a b c

theorem NaryOp.eval_comm (k : NaryOp) (a b : Int) : k.eval a b = k.eval b a := by
  cases k with
  | plus => exact Int.add_comm a b
  | mult => exact Int.mul_comm a b

theorem NaryOp.eval_neutral (k : NaryOp) (a : Int) : k.eval a k.neutral = a := by
  cases k with
  | plus => exact Int.add_zero a
  | mult => exact Int.mul_one a

theorem NaryOp.neutral_eval (k : NaryOp) (a : Int) : k.eval k.neutral a = a := by
  rw [k.eval_comm, k.eval_neutral]

theorem ConnOp.step_assoc (k : ConnOp) (a b c : Truth) :
    k.step (k.step a b) c = k.step a (k.step b c) := by
  cases k <;> cases a <;> cases b <;> cases c <;> rfl

theorem ConnOp.step_comm (k : ConnOp) (a b : Truth) : k.step a b = k.step b a := by
  cases k <;> cases a <;> cases b <;> rfl

theorem ConnOp.step_neutral (k : ConnOp) (a : Truth) : k.step a k.decisive.not = a := by
  cases k <;> cases a <;> rfl

theorem ConnOp.neutral_step (k : ConnOp) (a : Truth) : k.step k.decisive.not a = a := by
  rw [k.step_comm, k.step_neutral]

section Evaluator

variable {env : List Int}

mutual

theorem evalInt_exact : (e : IExpr) → ∀ x, evalInt env e = .ok x → exactInt (.ofEnv env) e = x
  | .undef => by
    intro x h
    cases h
    rfl
  | .const v => by
    intro x h
    cases h
    rfl
  | .var p => by
    intro x h
    unfold evalInt at h
    split at h
    · next v hv =>
      cases h
      exact hv
    · cases h
  | .nary k ops => by
    intro x h
    have hn := evalNary_exact k ops k.neutral x h
    rw [exactInt, ← hn]
    cases exactNary (.ofEnv env) k ops with
    | none => rfl
    | some v => exact congrArg some (k.neutral_eval v).symm
  | .binary k a b => by
    intro x h
    obtain ⟨l, hl, h⟩ := bind_eq_ok.mp h
    rw [exactInt, evalInt_exact a l hl]
    cases l with
    | none =>
      cases h
      rfl
    | some l =>
      obtain ⟨r, hr, h⟩ := bind_eq_ok.mp h
      rw [evalInt_exact b r hr]
      cases r with
      | none =>
        cases h
        rfl
      | some r => exact fold_exact h
  | .bitComp a => by
    intro x h
    obtain ⟨v, hv, h⟩ := bind_eq_ok.mp h
    rw [exactInt, evalInt_exact a v hv]
    cases v with
    | none =>
      cases h
      rfl
    | some v =>
      cases h
      rfl
  | .array cells index => by
    intro x h
    cases h
    rw [exactInt]
    cases exactInt (.ofEnv env) index with
    | none => rfl
    | some i => rfl
  | .wrapBool b => by
    intro x h
    obtain ⟨t, ht, h⟩ := bind_eq_ok.mp h
    rw [exactInt, evalBool_exact b t ht]
    cases t with
    | yes =>
      cases h
      rfl
    | no =>
      cases h
      rfl
    | undef =>
      cases h
      rfl

theorem evalNary_exact (k : NaryOp) : (ops : List IExpr) → ∀ (acc : Int) (x : Option Int),
    evalNary env k acc ops = .ok x → (exactNary (.ofEnv env) k ops).map (k.eval acc) = x
  | [] => by
    intro acc x h
    cases h
    exact congrArg some (k.eval_neutral acc)
  | y :: ys => by
    intro acc x h
    obtain ⟨v, hv, h⟩ := bind_eq_ok.mp h
    rw [exactNary, evalInt_exact y v hv]
    cases v with
    | none =>
      cases h
      rfl
    | some v =>
      obtain ⟨acc', hacc, h⟩ := bind_eq_ok.mp h
      rw [← evalNary_exact k ys acc' x h, checked64_eq_ok hacc]
      cases exactNary (.ofEnv env) k ys with
      | none => rfl
      | some w => exact congrArg some (k.eval_assoc acc v w).symm

theorem evalBool_exact : (e : BExpr) → ∀ t, evalBool env e = .ok t → exactBool (.ofEnv env) e = t
  | .bfalse => by
    intro t h
    cases h
    rfl
  | .btrue => by
    intro t h
    cases h
    rfl
  | .bundef => by
    intro t h
    cases h
    rfl
  | .cmp k l r => by
    intro t h
    obtain ⟨x, hx, h⟩ := bind_eq_ok.mp h
    rw [exactBool, evalInt_exact l x hx]
    cases x with
    | none =>
      cases h
      rfl
    | some x =>
      obtain ⟨y, hy, h⟩ := bind_eq_ok.mp h
      rw [evalInt_exact r y hy]
      cases y with
      | none =>
        cases h
        rfl
      | some y =>
        cases h
        rfl
  | .conn k ops => by
    intro t h
    rw [exactBool, ← evalConn_exact k ops _ t h, k.neutral_step]
  | .neg a => by
    intro t h
    obtain ⟨t', ht', h⟩ := bind_eq_ok.mp h
    cases h
    rw [exactBool, evalBool_exact a t' ht']

theorem evalConn_exact (k : ConnOp) : (ops : List BExpr) → ∀ acc t : Truth,
    evalConn env k acc ops = .ok t → k.step acc (exactConn (.ofEnv env) k ops) = t
  | [] => by
    intro acc t h
    cases h
    exact k.step_neutral acc
  | y :: ys => by
    intro acc t h
    obtain ⟨t', ht', h⟩ := bind_eq_ok.mp h
    rw [exactConn, evalBool_exact y t' ht', ← k.step_assoc]
    exact evalConn_exact k ys _ t h

end

end Evaluator

end LibHSC.Lia
