import LibHSC.Lia.Normal
import LibHSC.Lia.Subst

/-!
Machine arithmetic. Evaluation runs in 64 bits: sums, products, powers and left shifts
are checked there, a difference and a division are not. `checkedInt` is the evaluator
with every operation checked, and `IExpr.traps` says where the two part: at a difference
that leaves 64 bits and at the least value divided by minus one.
-/

namespace LibHSC.Lia

/-! ## One operation -/

/-- A binary operator whose result is checked, whichever it is. -/
def foldChecked (k : BinOp) (l r : Int) : Except Err (Option Int) :=
  match foldExact k l r with
  | none => .ok none
  | some v => do return some (← checked64 v)

/-- The machine leaves the operation undefined. -/
def BinOp.traps : BinOp → Int → Int → Bool
  | .minus, l, r => !fitsInt64 (l - r)
  | .div, l, r => l == -9223372036854775808 && r == -1
  | .mod, l, r => l == -9223372036854775808 && r == -1
  | _, _, _ => false

theorem fitsInt64_iff {v : Int} :
    fitsInt64 v = true ↔ -9223372036854775808 ≤ v ∧ v ≤ 9223372036854775807 := by
  simp [fitsInt64]

theorem fitsInt64_ofNat {n : Nat} : fitsInt64 (Int.ofNat n) = true ↔ n < 2 ^ 63 := by
  rw [fitsInt64_iff, Int.ofNat_eq_natCast]
  omega

theorem fitsInt64_negSucc {n : Nat} : fitsInt64 (Int.negSucc n) = true ↔ n < 2 ^ 63 := by
  rw [fitsInt64_iff, Int.negSucc_eq]
  omega

theorem checked64_of_fits {v : Int} (h : fitsInt64 v = true) : checked64 v = .ok v := by
  rw [checked64, if_pos h]

theorem checked64_of_not_fits {v : Int} (h : fitsInt64 v = false) :
    checked64 v = .error .overflow := by
  rw [checked64, h]
  rfl

theorem plain64_of_fits {v : Int} (h : fitsInt64 v = true) : plain64 v = .ok v := by
  rw [plain64, if_pos h]

theorem plain64_of_not_fits {v : Int} (h : fitsInt64 v = false) :
    plain64 v = .error .undefinedBehaviour := by
  rw [plain64, h]
  rfl

section Bitwise

variable {l r : Int} (hl : fitsInt64 l = true) (hr : fitsInt64 r = true)

include hl hr

theorem fits_land : fitsInt64 (Int.land l r) = true := by
  cases l <;> cases r <;> simp only [fitsInt64_ofNat, fitsInt64_negSucc] at hl hr
  · exact fitsInt64_ofNat.mpr (Nat.bitwise_lt_two_pow hl hr)
  · exact fitsInt64_ofNat.mpr (Nat.bitwise_lt_two_pow hl hr)
  · exact fitsInt64_ofNat.mpr (Nat.bitwise_lt_two_pow hr hl)
  · exact fitsInt64_negSucc.mpr (Nat.bitwise_lt_two_pow hl hr)

theorem fits_lor : fitsInt64 (Int.lor l r) = true := by
  cases l <;> cases r <;> simp only [fitsInt64_ofNat, fitsInt64_negSucc] at hl hr
  · exact fitsInt64_ofNat.mpr (Nat.bitwise_lt_two_pow hl hr)
  · exact fitsInt64_negSucc.mpr (Nat.bitwise_lt_two_pow hr hl)
  · exact fitsInt64_negSucc.mpr (Nat.bitwise_lt_two_pow hl hr)
  · exact fitsInt64_negSucc.mpr (Nat.bitwise_lt_two_pow hl hr)

theorem fits_xor : fitsInt64 (Int.xor l r) = true := by
  cases l <;> cases r <;> simp only [fitsInt64_ofNat, fitsInt64_negSucc] at hl hr
  · exact fitsInt64_ofNat.mpr (Nat.bitwise_lt_two_pow hl hr)
  · exact fitsInt64_negSucc.mpr (Nat.bitwise_lt_two_pow hl hr)
  · exact fitsInt64_negSucc.mpr (Nat.bitwise_lt_two_pow hl hr)
  · exact fitsInt64_ofNat.mpr (Nat.bitwise_lt_two_pow hl hr)

end Bitwise

theorem fits_shiftRight {l : Int} (n : Nat) (hl : fitsInt64 l = true) :
    fitsInt64 (l >>> n) = true := by
  have hle : ∀ m : Nat, m >>> n ≤ m := fun m => by
    rw [Nat.shiftRight_eq_div_pow]
    exact Nat.div_le_self m (2 ^ n)
  cases l with
  | ofNat m => exact fitsInt64_ofNat.mpr (Nat.lt_of_le_of_lt (hle m) (fitsInt64_ofNat.mp hl))
  | negSucc m =>
    exact fitsInt64_negSucc.mpr (Nat.lt_of_le_of_lt (hle m) (fitsInt64_negSucc.mp hl))

/-- Only the least value by minus one leaves the machine. -/
theorem fits_tdiv {l r : Int} (hl : fitsInt64 l = true)
    (ht : ¬ (l = -9223372036854775808 ∧ r = -1)) : fitsInt64 (l.tdiv r) = true := by
  rw [fitsInt64_iff] at hl ⊢
  have hle : (l.tdiv r).natAbs ≤ l.natAbs := Int.natAbs_tdiv_le_natAbs l r
  by_cases hmin : (l.tdiv r) = 9223372036854775808
  · -- the quotient is as large as the dividend: the divisor is minus one
    exfalso
    have hl' : l = -9223372036854775808 := by omega
    have habs : (l.tdiv r).natAbs = l.natAbs / r.natAbs := Int.natAbs_tdiv l r
    rw [hmin, hl'] at habs
    have hr : r.natAbs = 1 := by
      by_contra hne
      rcases Nat.lt_or_gt_of_ne hne with h0 | h2
      · rw [Nat.lt_one_iff.mp h0] at habs
        simp at habs
      · have : (-9223372036854775808 : Int).natAbs / r.natAbs
            ≤ (-9223372036854775808 : Int).natAbs / 2 := Nat.div_le_div_left h2 (by decide)
        simp at habs this
        omega
    rcases Int.natAbs_eq_iff.mp hr with h | h
    · rw [h, hl'] at hmin
      simp at hmin
    · exact ht ⟨hl', h⟩
  · omega

theorem fits_tmod {l r : Int} (hl : fitsInt64 l = true) : fitsInt64 (l.tmod r) = true := by
  rw [fitsInt64_iff] at hl ⊢
  have habs : (l.tmod r).natAbs = l.natAbs % r.natAbs := Int.natAbs_tmod l r
  have hle : l.natAbs % r.natAbs ≤ l.natAbs := Nat.mod_le _ _
  rcases Int.le_total 0 l with h | h
  · have := Int.tmod_nonneg r h
    omega
  · have hneg := Int.tmod_nonneg r (Int.neg_nonneg_of_nonpos h)
    rw [Int.neg_tmod] at hneg
    omega

/-- A product that left the machine stays out of it under a factor of two or more. -/
theorem fits_of_mul {v l : Int} (hl : 2 ≤ l.natAbs) (h : fitsInt64 (v * l) = true) :
    fitsInt64 v = true := by
  rw [fitsInt64_iff] at h ⊢
  have habs : (v * l).natAbs = v.natAbs * l.natAbs := Int.natAbs_mul v l
  have hle : v.natAbs * 2 ≤ v.natAbs * l.natAbs := Nat.mul_le_mul_left _ hl
  omega

theorem fits_of_mul_pow {l : Int} (hl : 2 ≤ l.natAbs) {v : Int} :
    ∀ n, fitsInt64 (v * l ^ n) = true → fitsInt64 v = true := by
  intro n
  induction n with
  | zero =>
    intro h
    rwa [pow_zero, Int.mul_one] at h
  | succ n ih =>
    intro h
    rw [pow_succ, ← Int.mul_assoc] at h
    exact ih (fits_of_mul hl h)

theorem powLoop_large {l : Int} (hl : 2 ≤ l.natAbs) : ∀ n acc, fitsInt64 acc = true →
    powLoop l n acc = checked64 (acc * l ^ n) := by
  intro n
  induction n with
  | zero =>
    intro acc hacc
    rw [pow_zero, Int.mul_one, checked64_of_fits hacc]
    rfl
  | succ n ih =>
    intro acc _
    have hpow : acc * l ^ (n + 1) = acc * l * l ^ n := by rw [pow_succ', Int.mul_assoc]
    rw [powLoop, hpow]
    cases hf : fitsInt64 (acc * l) with
    | true =>
      rw [checked64_of_fits hf]
      exact ih _ hf
    | false =>
      have hout : fitsInt64 (acc * l * l ^ n) = false := by
        cases h : fitsInt64 (acc * l * l ^ n) with
        | false => rfl
        | true => exact absurd (fits_of_mul_pow hl n h) (by rw [hf]; simp)
      rw [checked64_of_not_fits hf, checked64_of_not_fits hout]
      rfl

/-- The product of powers of a unit, or of zero, never leaves the machine. -/
theorem powLoop_small {l : Int} (hl : l.natAbs < 2) : ∀ n acc, acc.natAbs < 2 →
    powLoop l n acc = .ok (acc * l ^ n) := by
  intro n
  induction n with
  | zero =>
    intro acc _
    rw [pow_zero, Int.mul_one]
    rfl
  | succ n ih =>
    intro acc hacc
    have hmul : (acc * l).natAbs < 2 := by
      rw [Int.natAbs_mul]
      have : acc.natAbs * l.natAbs ≤ 1 * 1 := Nat.mul_le_mul (by omega) (by omega)
      omega
    have hf : fitsInt64 (acc * l) = true := by
      rw [fitsInt64_iff]
      omega
    rw [powLoop, checked64_of_fits hf, pow_succ', ← Int.mul_assoc]
    exact ih _ hmul

theorem powLoop_eq (l : Int) (n : Nat) : powLoop l n 1 = checked64 (l ^ n) := by
  rcases Nat.lt_or_ge l.natAbs 2 with hl | hl
  · have h := powLoop_small hl n 1 (by decide)
    rw [Int.one_mul] at h
    have hle : (l ^ n).natAbs ≤ 1 := by
      rw [Int.natAbs_pow, ← Nat.one_pow n]
      exact Nat.pow_le_pow_left (by omega) n
    have hf : fitsInt64 (l ^ n) = true := by
      rw [fitsInt64_iff]
      omega
    rw [h, checked64_of_fits hf]
  · rw [powLoop_large hl n 1 (by decide), Int.one_mul]

/-- The machine's fold is the checked one, up to the operations it leaves undefined. -/
theorem fold_eq (k : BinOp) {l r : Int} (hl : fitsInt64 l = true) (hr : fitsInt64 r = true) :
    fold k l r = if k.traps l r then .error .undefinedBehaviour else foldChecked k l r := by
  cases k with
  | minus =>
    cases hf : fitsInt64 (l - r) with
    | true => simp [fold, foldChecked, foldExact, BinOp.traps, hf, checked64, plain64]
    | false =>
      simp [fold, BinOp.traps, hf, plain64_of_not_fits hf]
  | div =>
    by_cases h0 : r = 0
    · simp [fold, foldChecked, foldExact, BinOp.traps, h0]
    · by_cases ht : l = -9223372036854775808 ∧ r = -1
      · obtain ⟨rfl, rfl⟩ := ht
        rfl
      · have hf := fits_tdiv hl ht
        simp [fold, foldChecked, foldExact, BinOp.traps, h0, ht, plain64_of_fits hf,
          checked64_of_fits hf]
  | mod =>
    by_cases h0 : r = 0
    · simp [fold, foldChecked, foldExact, BinOp.traps, h0]
    · by_cases ht : l = -9223372036854775808 ∧ r = -1
      · obtain ⟨rfl, rfl⟩ := ht
        rfl
      · simp [fold, foldChecked, foldExact, BinOp.traps, h0, ht,
          checked64_of_fits (fits_tmod hl)]
  | pow =>
    rw [fold, foldChecked, foldExact]
    by_cases h : r < 0
    · simp [h, BinOp.traps]
    · simp [h, BinOp.traps, powLoop_eq]
  | bitAnd =>
    simp [fold, foldChecked, foldExact, BinOp.traps, checked64_of_fits (fits_land hl hr)]
  | bitOr =>
    simp [fold, foldChecked, foldExact, BinOp.traps, checked64_of_fits (fits_lor hl hr)]
  | bitXor =>
    simp [fold, foldChecked, foldExact, BinOp.traps, checked64_of_fits (fits_xor hl hr)]
  | lshift =>
    rw [fold, foldChecked, foldExact]
    by_cases h : r < 0 ∨ 32 ≤ r
    · simp [h, BinOp.traps]
    · simp [h, BinOp.traps]
  | rshift =>
    rw [fold, foldChecked, foldExact]
    by_cases h : r < 0 ∨ 32 ≤ r
    · simp [h, BinOp.traps]
    · simp [h, BinOp.traps, checked64_of_fits (fits_shiftRight r.toNat hl)]

/-! ## The checked evaluator -/

section Checked

variable (env : List Int)

mutual

/-- Evaluation in 64 bits with every operation checked. -/
def checkedInt : IExpr → Except Err (Option Int)
  | .undef => .ok none
  | .const v => .ok (some v)
  | .var p =>
    match env[p]? with
    | some v => .ok (some v)
    | none => .error .logic
  | .nary k ops => checkedNary k k.neutral ops
  | .binary k a b => do
      match ← checkedInt a with
      | none => return none
      | some l =>
        match ← checkedInt b with
        | none => return none
        | some r => foldChecked k l r
  | .bitComp a => do
      match ← checkedInt a with
      | none => return none
      | some v => return some (-v - 1)
  | .array _ _ => .ok none
  | .wrapBool b => do return (← checkedBool b).toInt

def checkedNary (k : NaryOp) : Int → List IExpr → Except Err (Option Int)
  | acc, [] => .ok (some acc)
  | acc, x :: xs => do
      match ← checkedInt x with
      | none => return none
      | some v => checkedNary k (← checked64 (k.eval acc v)) xs

def checkedBool : BExpr → Except Err Truth
  | .bfalse => .ok .no
  | .btrue => .ok .yes
  | .bundef => .ok .undef
  | .cmp k l r => do
      match ← checkedInt l with
      | none => return .undef
      | some x => return cmpExact k (some x) (← checkedInt r)
  | .conn k ops => checkedConn k k.decisive.not ops
  | .neg a => do return (← checkedBool a).not

def checkedConn (k : ConnOp) : Truth → List BExpr → Except Err Truth
  | acc, [] => .ok acc
  | acc, x :: xs => do checkedConn k (k.step acc (← checkedBool x)) xs

end

mutual

/-- Evaluation comes to an operation the machine leaves undefined. -/
def IExpr.traps : IExpr → Bool
  | .undef => false
  | .const _ => false
  | .var _ => false
  | .nary k ops => trapsNary k k.neutral ops
  | .binary k a b =>
    a.traps || match checkedInt env a with
      | .ok (some l) =>
        b.traps || match checkedInt env b with
          | .ok (some r) => k.traps l r
          | _ => false
      | _ => false
  | .bitComp a => a.traps
  | .array _ _ => false
  | .wrapBool b => b.traps

def trapsNary (k : NaryOp) : Int → List IExpr → Bool
  | _, [] => false
  | acc, x :: xs =>
    x.traps || match checkedInt env x with
      | .ok (some v) => fitsInt64 (k.eval acc v) && trapsNary k (k.eval acc v) xs
      | _ => false

def BExpr.traps : BExpr → Bool
  | .bfalse => false
  | .btrue => false
  | .bundef => false
  | .cmp _ l r =>
    l.traps || match checkedInt env l with
      | .ok (some _) => r.traps
      | _ => false
  | .conn _ ops => trapsConn ops
  | .neg a => a.traps

def trapsConn : List BExpr → Bool
  | [] => false
  | x :: xs =>
    x.traps || match checkedBool env x with
      | .ok _ => trapsConn xs
      | .error _ => false

end

end Checked

mutual

/-- The constants of an expression are machine values. -/
def IExpr.Machine : IExpr → Prop
  | .undef => True
  | .const v => InInt32 v
  | .var _ => True
  | .nary _ ops => machineList ops
  | .binary _ a b => a.Machine ∧ b.Machine
  | .bitComp a => a.Machine
  | .array _ index => index.Machine
  | .wrapBool b => b.Machine

def machineList : List IExpr → Prop
  | [] => True
  | x :: xs => x.Machine ∧ machineList xs

def BExpr.Machine : BExpr → Prop
  | .bfalse => True
  | .btrue => True
  | .bundef => True
  | .cmp _ l r => l.Machine ∧ r.Machine
  | .conn _ ops => machineBools ops
  | .neg a => a.Machine

def machineBools : List BExpr → Prop
  | [] => True
  | x :: xs => x.Machine ∧ machineBools xs

end

theorem InInt32.fits {v : Int} (h : InInt32 v) : fitsInt64 v = true := by
  rw [fitsInt64_iff]
  unfold InInt32 at h
  omega

theorem checked64_fits {v w : Int} (h : checked64 v = .ok w) : fitsInt64 w = true := by
  have hw := checked64_eq_ok h
  cases hf : fitsInt64 v with
  | true => rwa [hw]
  | false =>
    rw [checked64_of_not_fits hf] at h
    cases h

theorem foldChecked_fits {k : BinOp} {l r v : Int} (h : foldChecked k l r = .ok (some v)) :
    fitsInt64 v = true := by
  unfold foldChecked at h
  cases he : foldExact k l r with
  | none =>
    rw [he] at h
    cases h
  | some w =>
    rw [he] at h
    obtain ⟨w', hw, h⟩ := bind_eq_ok.mp h
    cases h
    exact checked64_fits hw

theorem Truth.toInt_fits {t : Truth} {v : Int} (h : t.toInt = some v) : fitsInt64 v = true := by
  cases t with
  | yes =>
    cases h
    decide
  | no =>
    cases h
    decide
  | undef => cases h

theorem checkedNary_fits {env : List Int} (k : NaryOp) : ∀ (ops : List IExpr) acc,
    fitsInt64 acc = true → ∀ v, checkedNary env k acc ops = .ok (some v) → fitsInt64 v = true := by
  intro ops
  induction ops with
  | nil =>
    intro acc hacc v h
    cases h
    exact hacc
  | cons x xs ih =>
    intro acc _ v h
    obtain ⟨w, _, h⟩ := bind_eq_ok.mp h
    cases w with
    | none => cases h
    | some w =>
      obtain ⟨acc', hacc', h⟩ := bind_eq_ok.mp h
      exact ih acc' (checked64_fits hacc') v h

section Evaluator

variable {env : List Int}

/-- Checked evaluation stays in the machine. -/
theorem checkedInt_fits (henv : ∀ v ∈ env, InInt32 v) : (e : IExpr) → e.Machine →
    ∀ v, checkedInt env e = .ok (some v) → fitsInt64 v = true
  | .undef, _ => by
    intro v h
    cases h
  | .const c, hm => by
    intro v h
    cases h
    exact InInt32.fits hm
  | .var p, _ => by
    intro v h
    unfold checkedInt at h
    split at h
    · next w hw =>
      cases h
      exact InInt32.fits (henv _ (List.mem_of_getElem? hw))
    · cases h
  | .nary k ops, hm => by
    intro v h
    refine checkedNary_fits k ops k.neutral ?_ v h
    cases k with
    | plus => decide
    | mult => decide
  | .binary k a b, hm => by
    intro v h
    obtain ⟨l, _, h⟩ := bind_eq_ok.mp h
    cases l with
    | none => cases h
    | some l =>
      obtain ⟨r, _, h⟩ := bind_eq_ok.mp h
      cases r with
      | none => cases h
      | some r => exact foldChecked_fits h
  | .bitComp a, hm => by
    intro v h
    obtain ⟨w, hw, h⟩ := bind_eq_ok.mp h
    cases w with
    | none => cases h
    | some w =>
      cases h
      have hf := fitsInt64_iff.mp (checkedInt_fits henv a hm w hw)
      rw [fitsInt64_iff]
      omega
  | .array _ _, _ => by
    intro v h
    cases h
  | .wrapBool b, _ => by
    intro v h
    obtain ⟨t, _, h⟩ := bind_eq_ok.mp h
    exact Truth.toInt_fits (Except.ok.inj h)

mutual

theorem evalInt_eq (henv : ∀ v ∈ env, InInt32 v) : (e : IExpr) → e.Machine →
    evalInt env e = if e.traps env then .error .undefinedBehaviour else checkedInt env e
  | .undef, _ => rfl
  | .const _, _ => rfl
  | .var _, _ => rfl
  | .nary k ops, hm => by
    rw [evalInt, IExpr.traps, checkedInt]
    exact evalNary_eq henv k ops hm k.neutral
  | .binary k a b, hm => by
    rw [evalInt, IExpr.traps, checkedInt, evalInt_eq henv a hm.1, evalInt_eq henv b hm.2]
    cases ha : a.traps env with
    | true => rfl
    | false =>
      cases hl : checkedInt env a with
      | error _ => rfl
      | ok l =>
        cases l with
        | none => rfl
        | some l =>
          cases hb : b.traps env with
          | true => rfl
          | false =>
            cases hr : checkedInt env b with
            | error _ => rfl
            | ok r =>
              cases r with
              | none => rfl
              | some r =>
                exact fold_eq k (checkedInt_fits henv a hm.1 l hl)
                  (checkedInt_fits henv b hm.2 r hr)
  | .bitComp a, hm => by
    rw [evalInt, IExpr.traps, checkedInt, evalInt_eq henv a hm]
    cases a.traps env with
    | true => rfl
    | false => rfl
  | .array _ _, _ => rfl
  | .wrapBool b, hm => by
    rw [evalInt, IExpr.traps, checkedInt, evalBool_eq henv b hm]
    cases b.traps env with
    | true => rfl
    | false =>
      cases checkedBool env b with
      | error _ => rfl
      | ok t => cases t <;> rfl

theorem evalNary_eq (henv : ∀ v ∈ env, InInt32 v) (k : NaryOp) : (ops : List IExpr) →
    machineList ops → ∀ acc, evalNary env k acc ops =
      if trapsNary env k acc ops then .error .undefinedBehaviour else checkedNary env k acc ops
  | [], _ => fun _ => rfl
  | x :: xs, hm => by
    intro acc
    rw [evalNary, trapsNary, checkedNary, evalInt_eq henv x hm.1]
    cases x.traps env with
    | true => rfl
    | false =>
      cases checkedInt env x with
      | error _ => rfl
      | ok v =>
        cases v with
        | none => rfl
        | some v =>
          change (checked64 (k.eval acc v) >>= fun acc' => evalNary env k acc' xs) =
            if fitsInt64 (k.eval acc v) && trapsNary env k (k.eval acc v) xs
            then .error .undefinedBehaviour
            else checked64 (k.eval acc v) >>= fun acc' => checkedNary env k acc' xs
          cases hf : fitsInt64 (k.eval acc v) with
          | true =>
            rw [checked64_of_fits hf, Bool.true_and]
            exact evalNary_eq henv k xs hm.2 (k.eval acc v)
          | false =>
            rw [checked64_of_not_fits hf]
            rfl

theorem evalBool_eq (henv : ∀ v ∈ env, InInt32 v) : (e : BExpr) → e.Machine →
    evalBool env e = if e.traps env then .error .undefinedBehaviour else checkedBool env e
  | .bfalse, _ => rfl
  | .btrue, _ => rfl
  | .bundef, _ => rfl
  | .cmp k l r, hm => by
    rw [evalBool, BExpr.traps, checkedBool, evalInt_eq henv l hm.1, evalInt_eq henv r hm.2]
    cases l.traps env with
    | true => rfl
    | false =>
      cases checkedInt env l with
      | error _ => rfl
      | ok x =>
        cases x with
        | none => rfl
        | some x =>
          cases r.traps env with
          | true => rfl
          | false =>
            cases checkedInt env r with
            | error _ => rfl
            | ok y => cases y <;> rfl
  | .conn k ops, hm => by
    rw [evalBool, BExpr.traps, checkedBool]
    exact evalConn_eq henv k ops hm k.decisive.not
  | .neg a, hm => by
    rw [evalBool, BExpr.traps, checkedBool, evalBool_eq henv a hm]
    cases a.traps env with
    | true => rfl
    | false => rfl

theorem evalConn_eq (henv : ∀ v ∈ env, InInt32 v) (k : ConnOp) : (ops : List BExpr) →
    machineBools ops → ∀ acc, evalConn env k acc ops =
      if trapsConn env ops then .error .undefinedBehaviour else checkedConn env k acc ops
  | [], _ => fun _ => rfl
  | x :: xs, hm => by
    intro acc
    rw [evalConn, trapsConn, checkedConn, evalBool_eq henv x hm.1]
    cases x.traps env with
    | true => rfl
    | false =>
      cases checkedBool env x with
      | error _ => rfl
      | ok t => exact evalConn_eq henv k xs hm.2 (k.step acc t)

end

end Evaluator

/-! ## The errors of evaluation -/

/-- An error that says what went wrong: an overflow, or a position that the environment
does not hold. -/
def Loud (env : List Int) (reads : List Nat) (er : Err) : Prop :=
  er = .overflow ∨ (er = .logic ∧ ∃ p ∈ reads, env.length ≤ p)

theorem Loud.mono {env : List Int} {reads reads' : List Nat} {er : Err}
    (h : Loud env reads er) (hsub : ∀ p ∈ reads, p ∈ reads') : Loud env reads' er := by
  rcases h with h | ⟨h, p, hp, hlen⟩
  · exact .inl h
  · exact .inr ⟨h, p, hsub p hp, hlen⟩

theorem checked64_error {v : Int} {er : Err} (h : checked64 v = .error er) : er = .overflow := by
  unfold checked64 at h
  split at h
  · cases h
  · cases h
    rfl

theorem foldChecked_error {k : BinOp} {l r : Int} {er : Err}
    (h : foldChecked k l r = .error er) : er = .overflow := by
  unfold foldChecked at h
  cases he : foldExact k l r with
  | none =>
    rw [he] at h
    cases h
  | some w =>
    rw [he] at h
    cases hc : checked64 w with
    | error er' =>
      simp only [hc] at h
      cases h
      exact checked64_error hc
    | ok w' =>
      simp only [hc] at h
      cases h

section Errors

variable {env : List Int}

mutual

theorem checkedInt_error : (e : IExpr) → ∀ er, checkedInt env e = .error er →
    Loud env (collect e) er
  | .undef => by
    intro er h
    cases h
  | .const _ => by
    intro er h
    cases h
  | .var p => by
    intro er h
    unfold checkedInt at h
    split at h
    · cases h
    · next hp =>
      cases h
      exact .inr ⟨rfl, p, List.mem_singleton_self p, List.getElem?_eq_none_iff.mp hp⟩
  | .nary k ops => by
    intro er h
    exact checkedNary_error k ops k.neutral er h
  | .binary k a b => by
    intro er h
    rw [collect]
    rcases bind_eq_error.mp h with h | ⟨l, _, h⟩
    · exact (checkedInt_error a er h).mono fun p hp => List.mem_append_left _ hp
    · cases l with
      | none => cases h
      | some l =>
        rcases bind_eq_error.mp h with h | ⟨r, _, h⟩
        · exact (checkedInt_error b er h).mono fun p hp => List.mem_append_right _ hp
        · cases r with
          | none => cases h
          | some r => exact .inl (foldChecked_error h)
  | .bitComp a => by
    intro er h
    rcases bind_eq_error.mp h with h | ⟨v, _, h⟩
    · exact checkedInt_error a er h
    · cases v <;> cases h
  | .array _ _ => by
    intro er h
    cases h
  | .wrapBool b => by
    intro er h
    rcases bind_eq_error.mp h with h | ⟨t, _, h⟩
    · exact checkedBool_error b er h
    · cases h

theorem checkedNary_error (k : NaryOp) : (ops : List IExpr) → ∀ acc er,
    checkedNary env k acc ops = .error er → Loud env (collectList ops) er
  | [] => by
    intro acc er h
    cases h
  | x :: xs => by
    intro acc er h
    rw [collectList]
    rcases bind_eq_error.mp h with h | ⟨v, _, h⟩
    · exact (checkedInt_error x er h).mono fun p hp => List.mem_append_left _ hp
    · cases v with
      | none => cases h
      | some v =>
        rcases bind_eq_error.mp h with h | ⟨acc', _, h⟩
        · exact .inl (checked64_error h)
        · exact (checkedNary_error k xs acc' er h).mono fun p hp =>
            List.mem_append_right _ hp

theorem checkedBool_error : (e : BExpr) → ∀ er, checkedBool env e = .error er →
    Loud env (collectBool e) er
  | .bfalse => by
    intro er h
    cases h
  | .btrue => by
    intro er h
    cases h
  | .bundef => by
    intro er h
    cases h
  | .cmp k l r => by
    intro er h
    rw [collectBool]
    rcases bind_eq_error.mp h with h | ⟨x, _, h⟩
    · exact (checkedInt_error l er h).mono fun p hp => List.mem_append_left _ hp
    · cases x with
      | none => cases h
      | some x =>
        rcases bind_eq_error.mp h with h | ⟨y, _, h⟩
        · exact (checkedInt_error r er h).mono fun p hp => List.mem_append_right _ hp
        · cases h
  | .conn k ops => by
    intro er h
    exact checkedConn_error k ops k.decisive.not er h
  | .neg a => by
    intro er h
    rcases bind_eq_error.mp h with h | ⟨t, _, h⟩
    · exact checkedBool_error a er h
    · cases h

theorem checkedConn_error (k : ConnOp) : (ops : List BExpr) → ∀ acc er,
    checkedConn env k acc ops = .error er → Loud env (collectBoolList ops) er
  | [] => by
    intro acc er h
    cases h
  | x :: xs => by
    intro acc er h
    rw [collectBoolList]
    rcases bind_eq_error.mp h with h | ⟨t, _, h⟩
    · exact (checkedBool_error x er h).mono fun p hp => List.mem_append_left _ hp
    · exact (checkedConn_error k xs _ er h).mono fun p hp => List.mem_append_right _ hp

end

end Errors

/-! ## The errors of folding -/

theorem narrow_error {v : Int} {er : Err} (h : narrow v = .error er) : er = .overflow := by
  unfold narrow at h
  split at h
  · cases h
  · cases h
    rfl

/-- Two machine values never come to an operation the machine leaves undefined. -/
theorem BinOp.traps_of_inInt32 {k : BinOp} {l r : Int} (hl : InInt32 l) (hr : InInt32 r) :
    k.traps l r = false := by
  unfold InInt32 at hl hr
  have hmin : (l == -9223372036854775808) = false := by
    rw [beq_eq_false_iff_ne]
    omega
  cases k with
  | minus =>
    have hf : fitsInt64 (l - r) = true := by
      rw [fitsInt64_iff]
      omega
    simp [BinOp.traps, hf]
  | div => simp [BinOp.traps, hmin]
  | mod => simp [BinOp.traps, hmin]
  | _ => rfl

theorem binary_error {k : BinOp} {a b : IExpr} {er : Err} (ha : a.Normal) (hb : b.Normal)
    (h : binary k a b = .error er) : er = .overflow := by
  unfold binary at h
  split at h
  · cases h
  · cases h
  · next l r =>
    have hfold := fold_eq k (InInt32.fits ha) (InInt32.fits hb)
    rw [BinOp.traps_of_inInt32 ha hb] at hfold
    rw [hfold] at h
    rcases bind_eq_error.mp h with h | ⟨x, _, h⟩
    · exact foldChecked_error h
    · cases x with
      | none => cases h
      | some v =>
        rcases bind_eq_error.mp h with h | ⟨c, _, h⟩
        · exact narrow_error h
        · cases h
  · cases h

theorem accumulate_error {k : NaryOp} {acc v : Int} {er : Err}
    (h : k.accumulate acc v = .error er) : er = .overflow := by
  cases k with
  | plus => cases h
  | mult => exact checked64_error h

theorem spliceOps_error {k : NaryOp} {er : Err} : ∀ {ops : List IExpr} {acc : Int}
    {flat : List IExpr}, spliceOps k ops acc flat = .error er → er = .overflow := by
  intro ops
  induction ops with
  | nil =>
    intro acc flat h
    cases h
  | cons x ops ih =>
    intro acc flat h
    cases x with
    | const v =>
      rcases bind_eq_error.mp h with h | ⟨acc', _, h⟩
      · exact accumulate_error h
      · exact ih h
    | _ => exact ih h

theorem gatherOps_error {k : NaryOp} {er : Err} : ∀ {xs : List IExpr} {acc : Int}
    {flat : List IExpr}, gatherOps k xs acc flat = .error er → er = .overflow := by
  intro xs
  induction xs with
  | nil =>
    intro acc flat h
    cases h
  | cons x xs ih =>
    intro acc flat h
    cases x with
    | undef => cases h
    | const v =>
      rcases bind_eq_error.mp h with h | ⟨acc', _, h⟩
      · exact accumulate_error h
      · exact ih h
    | nary k' ops =>
      rw [gatherOps] at h
      split at h
      · rcases bind_eq_error.mp h with h | ⟨g, _, h⟩
        · exact spliceOps_error h
        · exact ih h
      · exact ih h
    | _ => exact ih h

theorem nary_error {R : ExprIds} {k : NaryOp} {xs : List IExpr} {er : Err}
    (h : nary R k xs = .error er) : er = .overflow := by
  rcases bind_eq_error.mp h with h | ⟨g, _, h⟩
  · exact gatherOps_error h
  · cases g with
    | none => cases h
    | some g =>
      dsimp only at h
      split at h
      · cases h
      · rcases bind_eq_error.mp h with h | ⟨c, _, h⟩
        · exact narrow_error h
        · cases h

/-! ## What evaluation and folding come to -/

/-- Evaluation gives the exact value, inside the machine, or says what went wrong. -/
def Exactly (env : List Int) (e : IExpr) : Prop :=
  match evalInt env e with
  | .ok x => exactInt (.ofEnv env) e = x ∧ ∀ v, x = some v → fitsInt64 v = true
  | .error er => Loud env (collect e) er

theorem exactly_iff {env : List Int} {e : IExpr} (henv : ∀ v ∈ env, InInt32 v)
    (he : e.Machine) : Exactly env e ↔ e.traps env = false := by
  unfold Exactly
  have heq := evalInt_eq henv e he
  cases ht : e.traps env with
  | true =>
    rw [ht] at heq
    rw [heq]
    constructor
    · rintro (h | ⟨h, _⟩) <;> cases h
    · intro h
      cases h
  | false =>
    rw [ht] at heq
    refine iff_of_true ?_ rfl
    cases hc : checkedInt env e with
    | ok x =>
      have hok : evalInt env e = .ok x := heq.trans hc
      rw [hok]
      refine ⟨evalInt_exact e x hok, ?_⟩
      rintro v rfl
      exact checkedInt_fits henv e he v hc
    | error er =>
      have herr : evalInt env e = .error er := heq.trans hc
      rw [herr]
      exact checkedInt_error e er hc

/-- Folding is exact or an overflow. Evaluation is, wherever it does not come to a
difference out of 64 bits or to the least value by minus one. -/
theorem machine_arithmetic (R : ExprIds) (k : BinOp) (a b : IExpr) (op : NaryOp)
    (xs : List IExpr) (env : List Int) (e : IExpr) :
    (a.Normal → b.Normal → (∃ r, binary k a b = .ok r ∧ r.Normal ∧
        ∀ ρ, exactInt ρ r = exactInt ρ (.binary k a b)) ∨ binary k a b = .error .overflow) ∧
    (a.Normal → (bitComp a).Normal ∧ ∀ ρ, exactInt ρ (bitComp a) = exactInt ρ (.bitComp a)) ∧
    ((∀ x ∈ xs, x.Normal) → (∃ r, nary R op xs = .ok r ∧ r.Normal ∧
        ∀ ρ v, exactInt ρ (.nary op xs) = some v → exactInt ρ r = some v) ∨
          nary R op xs = .error .overflow) ∧
    ((∀ v ∈ env, InInt32 v) → e.Machine → (Exactly env e ↔ e.traps env = false)) := by
  refine ⟨fun ha hb => ?_, fun ha => ?_, fun hxs => ?_, fun henv he => ?_⟩
  · cases h : binary k a b with
    | ok r => exact .inl ⟨r, rfl, binary_normal ha hb h, binary_exact h⟩
    | error er => exact .inr (congrArg _ (binary_error ha hb h))
  · exact ⟨bitComp_normal ha, fun ρ => bitComp_exact ρ a⟩
  · cases h : nary R op xs with
    | ok r => exact .inl ⟨r, rfl, nary_normal hxs h, nary_below h⟩
    | error er => exact .inr (congrArg _ (nary_error h))
  · exact exactly_iff henv he

/-- A cube less two: two values in the machine. -/
theorem machine_arithmetic_cube :
    Exactly [-1000] (.binary .minus (.binary .pow (.var 0) (.const 3)) (.const 2)) :=
  ((machine_arithmetic ⟨fun _ => 0, fun _ => 0⟩ .minus .undef .undef .plus [] [-1000]
    (.binary .minus (.binary .pow (.var 0) (.const 3)) (.const 2))).2.2.2 (by decide)
    ⟨⟨trivial, show InInt32 3 by decide⟩, show InInt32 2 by decide⟩).mpr (by decide +kernel)

/-- The cube of -2^21 is the least 64-bit value: one less leaves the machine, and so does
its opposite. -/
theorem least_value_traps :
    (∀ v ∈ [(-2097152 : Int)], InInt32 v) ∧
    IExpr.Machine (.binary .minus (.binary .pow (.var 0) (.const 3)) (.const 1)) ∧
    ¬ Exactly [-2097152] (.binary .minus (.binary .pow (.var 0) (.const 3)) (.const 1)) ∧
    ¬ Exactly [-2097152] (.binary .div (.binary .pow (.var 0) (.const 3)) (.const (-1))) := by
  have henv : ∀ v ∈ [(-2097152 : Int)], InInt32 v := by decide
  have hm : ∀ c, InInt32 c → ∀ k,
      IExpr.Machine (.binary k (.binary .pow (.var 0) (.const 3)) (.const c)) :=
    fun c hc k => ⟨⟨trivial, show InInt32 3 by decide⟩, hc⟩
  refine ⟨henv, hm 1 (by decide) .minus, ?_, ?_⟩
  · intro h
    exact absurd ((exactly_iff henv (hm 1 (by decide) .minus)).mp h) (by decide +kernel)
  · intro h
    exact absurd ((exactly_iff henv (hm (-1) (by decide) .div)).mp h) (by decide +kernel)

end LibHSC.Lia
