import LibHSC.Lia.Held

/-!
Operands in another order: the meaning of a sum, of a product, of a connective and of a
symmetric comparison does not change, and the ids of the table bring them back to one
expression.
-/

namespace LibHSC.Lia

/-- A comparison whose operands stand in the order of their ids where it is
symmetric. -/
def orderCmp (R : ExprIds) (k : CmpOp) (l r : IExpr) : BExpr :=
  if (k = .eq ∨ k = .neq) ∧ R.iexpr r < R.iexpr l then .cmp k r l else .cmp k l r

/-! ## The meaning -/

section Meaning

variable {R : ExprIds} {ρ : Reading} {k : NaryOp}

theorem NaryOp.exact_neutral (k : NaryOp) (a : Option Int) : k.exact a (some k.neutral) = a := by
  cases a with
  | none => rfl
  | some v => exact congrArg some (k.eval_neutral v)

theorem NaryOp.exact_comm (k : NaryOp) (a b : Option Int) : k.exact a b = k.exact b a := by
  cases a with
  | none =>
    cases b with
    | none => rfl
    | some w => rfl
  | some v =>
    cases b with
    | none => rfl
    | some w => exact congrArg some (k.eval_comm v w)

theorem NaryOp.exact_assoc (k : NaryOp) (a b c : Option Int) :
    k.exact (k.exact a b) c = k.exact a (k.exact b c) := by
  cases a with
  | none => rfl
  | some u =>
    cases b with
    | none => rfl
    | some v =>
      cases c with
      | none => rfl
      | some w => exact congrArg some (k.eval_assoc u v w)

theorem NaryOp.exact_left_comm (k : NaryOp) (a b c : Option Int) :
    k.exact a (k.exact b c) = k.exact b (k.exact a c) := by
  rw [← k.exact_assoc, k.exact_comm a b, k.exact_assoc]

theorem exactNary_append (xs ys : List IExpr) :
    exactNary ρ k (xs ++ ys) = k.exact (exactNary ρ k xs) (exactNary ρ k ys) := by
  induction xs with
  | nil =>
    rw [List.nil_append, exactNary, k.exact_comm, k.exact_neutral]
  | cons x xs ih => rw [List.cons_append, exactNary, exactNary, ih, k.exact_assoc]

theorem exactNary_perm {xs ys : List IExpr} (h : xs.Perm ys) :
    exactNary ρ k xs = exactNary ρ k ys := by
  induction h with
  | nil => rfl
  | cons x _ ih => rw [exactNary, exactNary, ih]
  | swap x y xs => simp only [exactNary, k.exact_left_comm]
  | trans _ _ h1 h2 => exact h1.trans h2

theorem exactNary_singleton (x : IExpr) : exactNary ρ k [x] = exactInt ρ x := by
  rw [exactNary, exactNary, k.exact_neutral]

theorem exactInt_packOps (xs : List IExpr) : exactInt ρ (packOps R k xs) = exactNary ρ k xs := by
  match xs with
  | [] => rfl
  | [x] => exact (exactNary_singleton x).symm
  | x :: y :: ys => exact exactNary_perm (sortOps_perm R _)

theorem exactNary_withConst (c : Int) (flat : List IExpr) :
    exactNary ρ k (withConst k c flat) = k.exact (some c) (exactNary ρ k flat) := by
  unfold withConst
  split
  · rw [exactNary_append, exactNary_singleton, exactInt, k.exact_comm]
  · next h =>
    rw [not_not.mp (not_or.mp h).1, k.exact_comm, k.exact_neutral]

theorem exactConn_perm {k : ConnOp} {xs ys : List BExpr} (h : xs.Perm ys) :
    exactConn ρ k xs = exactConn ρ k ys := by
  induction h with
  | nil => rfl
  | cons x _ ih => rw [exactConn, exactConn, ih]
  | swap x y xs =>
    simp only [exactConn]
    rw [← k.step_assoc, k.step_comm (exactBool ρ y), k.step_assoc]
  | trans _ _ h1 h2 => exact h1.trans h2

theorem cmpExact_comm {k : CmpOp} (hk : k = .eq ∨ k = .neq) (a b : Option Int) :
    cmpExact k a b = cmpExact k b a := by
  cases a with
  | none => cases b <;> rfl
  | some x =>
    cases b with
    | none => rfl
    | some y =>
      rcases hk with rfl | rfl
      · simp only [cmpExact, cmpEval, Bool.beq_comm]
      · simp only [cmpExact, cmpEval, bne_comm]

theorem exactBool_orderCmp (k : CmpOp) (l r : IExpr) :
    exactBool ρ (orderCmp R k l r) = cmpExact k (exactInt ρ l) (exactInt ρ r) := by
  unfold orderCmp
  split
  · next h => exact cmpExact_comm h.1 _ _
  · rfl

end Meaning

/-! ## The expression held -/

section Held

variable {R : ExprIds}

theorem orderCmp_held {V : Nat → Prop} {k : CmpOp} {l r : IExpr} (hl : l.Held R V) (hr : r.Held R V)
    (hlu : l ≠ .undef) (hru : r ≠ .undef) (hv : ¬(isValue l ∧ isValue r)) :
    (orderCmp R k l r).Held R V := by
  unfold orderCmp
  split
  · next h => exact ⟨hr, hl, hru, hlu, fun hv' => hv ⟨hv'.2, hv'.1⟩, fun _ => h.2.le⟩
  · next h =>
    refine ⟨hl, hr, hlu, hru, hv, fun hk => ?_⟩
    exact not_lt.mp fun hlt => h ⟨hk, hlt⟩

theorem orderCmp_comm (hR : Function.Injective R.iexpr) {k : CmpOp} (hk : k = .eq ∨ k = .neq)
    (l r : IExpr) :
    orderCmp R k l r = orderCmp R k r l := by
  unfold orderCmp
  rcases lt_trichotomy (R.iexpr l) (R.iexpr r) with h | h | h
  · rw [if_neg (fun h' => lt_asymm h h'.2), if_pos ⟨hk, h⟩]
  · rw [hR h]
  · rw [if_pos ⟨hk, h⟩, if_neg (fun h' => lt_asymm h h'.2)]

theorem sortBools_congr (hB : Function.Injective R.bexpr) {xs ys : List BExpr} (h : xs.Perm ys) :
    sortBools R xs = sortBools R ys :=
  List.Perm.eq_of_pairwise (fun _ _ _ _ h1 h2 => hB (le_antisymm h1 h2))
    (List.pairwise_insertionSort _ _) (List.pairwise_insertionSort _ _)
    ((sortBools_perm R xs).trans (h.trans (sortBools_perm R ys).symm))

end Held

end LibHSC.Lia
