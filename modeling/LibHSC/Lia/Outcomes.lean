import LibHSC.Lia.Machine

/-!
What evaluation depends on and how it ends: on the positions of the support
alone; and where these are all there, without a result only when 64-bit
arithmetic left the machine.
-/

namespace LibHSC.Lia

/-! ## The support -/

section Support

variable {env env' : List Int}

mutual

theorem evalInt_congr : (e : IExpr) → (∀ p ∈ collect e, env[p]? = env'[p]?) →
    evalInt env e = evalInt env' e
  | .undef, _ => rfl
  | .const _, _ => rfl
  | .var p, h => by rw [evalInt, evalInt, h p (List.mem_singleton.mpr rfl)]
  | .nary k ops, h => evalNary_congr k ops k.neutral h
  | .binary k a b, h => by
    rw [evalInt, evalInt, evalInt_congr a fun p hp => h p (List.mem_append_left _ hp),
      evalInt_congr b fun p hp => h p (List.mem_append_right _ hp)]
  | .bitComp a, h => by rw [evalInt, evalInt, evalInt_congr a h]
  | .array _ _, _ => rfl
  | .wrapBool b, h => by rw [evalInt, evalInt, evalBool_congr b h]

theorem evalNary_congr (k : NaryOp) : (xs : List IExpr) → (acc : Int) →
    (∀ p ∈ collectList xs, env[p]? = env'[p]?) →
    evalNary env k acc xs = evalNary env' k acc xs
  | [], _, _ => rfl
  | x :: xs, acc, h => by
    have hxs : ∀ acc, evalNary env k acc xs = evalNary env' k acc xs :=
      fun acc => evalNary_congr k xs acc fun p hp => h p (List.mem_append_right _ hp)
    rw [evalNary, evalNary, evalInt_congr x fun p hp => h p (List.mem_append_left _ hp)]
    simp only [hxs]

theorem evalBool_congr : (b : BExpr) → (∀ p ∈ collectBool b, env[p]? = env'[p]?) →
    evalBool env b = evalBool env' b
  | .bfalse, _ => rfl
  | .btrue, _ => rfl
  | .bundef, _ => rfl
  | .cmp k l r, h => by
    rw [evalBool, evalBool, evalInt_congr l fun p hp => h p (List.mem_append_left _ hp),
      evalInt_congr r fun p hp => h p (List.mem_append_right _ hp)]
  | .conn k ops, h => evalConn_congr k ops _ h
  | .neg a, h => by rw [evalBool, evalBool, evalBool_congr a h]

theorem evalConn_congr (k : ConnOp) : (xs : List BExpr) → (acc : Truth) →
    (∀ p ∈ collectBoolList xs, env[p]? = env'[p]?) →
    evalConn env k acc xs = evalConn env' k acc xs
  | [], _, _ => rfl
  | x :: xs, acc, h => by
    have hxs : ∀ acc, evalConn env k acc xs = evalConn env' k acc xs :=
      fun acc => evalConn_congr k xs acc fun p hp => h p (List.mem_append_right _ hp)
    rw [evalConn, evalConn, evalBool_congr x fun p hp => h p (List.mem_append_left _ hp)]
    simp only [hxs]

end

end Support

/-! ## What does not return -/

section Errors

variable {env : List Int}

/-- A 64-bit result left the machine, reported or not. -/
def Strays (er : Err) : Prop := er = .overflow ∨ er = .undefinedBehaviour

theorem plain64_error {v : Int} {er : Err} (h : plain64 v = .error er) :
    er = .undefinedBehaviour := by
  unfold plain64 at h
  split at h
  · cases h
  · cases h
    rfl

theorem fold_error {k : BinOp} {l r : Int} {er : Err} (h : fold k l r = .error er) :
    Strays er := by
  cases k with
  | minus =>
    rcases bind_eq_error.mp h with h | ⟨v, -, h⟩
    · exact .inr (plain64_error h)
    · cases h
  | div =>
    rw [fold] at h
    split at h
    · cases h
    · rcases bind_eq_error.mp h with h | ⟨v, -, h⟩
      · exact .inr (plain64_error h)
      · cases h
  | mod =>
    rw [fold] at h
    split at h
    · cases h
    · split at h
      · cases h
        exact .inr rfl
      · cases h
  | pow =>
    rw [fold] at h
    split at h
    · cases h
    · rw [powLoop_eq] at h
      rcases bind_eq_error.mp h with h | ⟨v, -, h⟩
      · exact .inl (checked64_error h)
      · cases h
  | lshift =>
    rw [fold] at h
    split at h
    · cases h
    · rcases bind_eq_error.mp h with h | ⟨v, -, h⟩
      · exact .inl (checked64_error h)
      · cases h
  | rshift =>
    rw [fold] at h
    split at h <;> cases h
  | bitAnd => cases h
  | bitOr => cases h
  | bitXor => cases h

mutual

/-- Where the environment holds every position read, only 64-bit arithmetic fails. -/
theorem evalInt_error : (e : IExpr) → (∀ p ∈ collect e, p < env.length) →
    ∀ er, evalInt env e = .error er → Strays er
  | .undef, _ => by
    intro er h
    cases h
  | .const _, _ => by
    intro er h
    cases h
  | .var p, hin => by
    intro er h
    have hp := hin p (List.mem_singleton.mpr rfl)
    rw [evalInt, List.getElem?_eq_getElem hp] at h
    cases h
  | .nary k ops, hin => fun er h => evalNary_error k ops hin _ er h
  | .binary k a b, hin => by
    intro er h
    rcases bind_eq_error.mp h with h | ⟨l, -, h⟩
    · exact evalInt_error a (fun p hp => hin p (List.mem_append_left _ hp)) er h
    · cases l with
      | none => cases h
      | some l =>
        rcases bind_eq_error.mp h with h | ⟨r, -, h⟩
        · exact evalInt_error b (fun p hp => hin p (List.mem_append_right _ hp)) er h
        · cases r with
          | none => cases h
          | some r => exact fold_error h
  | .bitComp a, hin => by
    intro er h
    rcases bind_eq_error.mp h with h | ⟨v, -, h⟩
    · exact evalInt_error a hin er h
    · cases v <;> cases h
  | .array _ _, _ => by
    intro er h
    cases h
  | .wrapBool b, hin => by
    intro er h
    rcases bind_eq_error.mp h with h | ⟨t, -, h⟩
    · exact evalBool_error b hin er h
    · cases t <;> cases h

theorem evalNary_error (k : NaryOp) : (ops : List IExpr) →
    (∀ p ∈ collectList ops, p < env.length) → ∀ acc er, evalNary env k acc ops = .error er →
    Strays er
  | [], _ => by
    intro acc er h
    cases h
  | x :: xs, hin => by
    intro acc er h
    rcases bind_eq_error.mp h with h | ⟨v, -, h⟩
    · exact evalInt_error x (fun p hp => hin p (List.mem_append_left _ hp)) er h
    · cases v with
      | none => cases h
      | some v =>
        rcases bind_eq_error.mp h with h | ⟨acc', -, h⟩
        · exact .inl (checked64_error h)
        · exact evalNary_error k xs (fun p hp => hin p (List.mem_append_right _ hp)) acc' er h

theorem evalBool_error : (b : BExpr) → (∀ p ∈ collectBool b, p < env.length) →
    ∀ er, evalBool env b = .error er → Strays er
  | .bfalse, _ => by
    intro er h
    cases h
  | .btrue, _ => by
    intro er h
    cases h
  | .bundef, _ => by
    intro er h
    cases h
  | .cmp k l r, hin => by
    intro er h
    rcases bind_eq_error.mp h with h | ⟨x, -, h⟩
    · exact evalInt_error l (fun p hp => hin p (List.mem_append_left _ hp)) er h
    · cases x with
      | none => cases h
      | some x =>
        rcases bind_eq_error.mp h with h | ⟨y, -, h⟩
        · exact evalInt_error r (fun p hp => hin p (List.mem_append_right _ hp)) er h
        · cases y <;> cases h
  | .conn k ops, hin => fun er h => evalConn_error k ops hin _ er h
  | .neg a, hin => by
    intro er h
    rcases bind_eq_error.mp h with h | ⟨t, -, h⟩
    · exact evalBool_error a hin er h
    · cases h

theorem evalConn_error (k : ConnOp) : (ops : List BExpr) →
    (∀ p ∈ collectBoolList ops, p < env.length) → ∀ acc er,
    evalConn env k acc ops = .error er → Strays er
  | [], _ => by
    intro acc er h
    cases h
  | x :: xs, hin => by
    intro acc er h
    rcases bind_eq_error.mp h with h | ⟨t, -, h⟩
    · exact evalBool_error x (fun p hp => hin p (List.mem_append_left _ hp)) er h
    · exact evalConn_error k xs (fun p hp => hin p (List.mem_append_right _ hp)) _ er h

end

end Errors

/-- Two evaluations that are the same unless one of them left 64 bits. -/
def SameUnlessStray {α : Type} (a b : Except Err α) : Prop :=
  a = b ∨ ∃ er, Strays er ∧ (a = .error er ∨ b = .error er)

theorem sameUnlessStray {α : Type} {a b : Except Err α} {x : α} (ha : ∀ y, a = .ok y → x = y)
    (hb : ∀ y, b = .ok y → x = y) (hea : ∀ er, a = .error er → Strays er)
    (heb : ∀ er, b = .error er → Strays er) : SameUnlessStray a b := by
  cases a with
  | error er => exact .inr ⟨er, hea er rfl, .inl rfl⟩
  | ok y =>
    cases b with
    | error er => exact .inr ⟨er, heb er rfl, .inr rfl⟩
    | ok z => exact .inl (congrArg Except.ok ((ha y rfl).symm.trans (hb z rfl)))

end LibHSC.Lia
