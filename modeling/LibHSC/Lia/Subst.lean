import LibHSC.Lia.Commute
import LibHSC.Lia.Reads

/-!
Substitution against evaluation. The constructors drop operands before it is known
whether these are defined: a zero factor absorbs the other factors, and a
comparison of two equal sides is decided. So substituting the values of the
positions one after the other gives at least what evaluation gives, and exactly
that where nothing undefined is dropped.
-/

namespace LibHSC.Lia

/-! ## Less defined -/

/-- The second value is the first, wherever that is defined. -/
def Below (a b : Option Int) : Prop := ∀ v, a = some v → b = some v

def Truth.Below (s t : Truth) : Prop := s ≠ .undef → t = s

theorem Below.refl (a : Option Int) : Below a a := fun _ h => h

theorem Truth.Below.refl (t : Truth) : t.Below t := fun _ => rfl

theorem Below.trans {a b c : Option Int} (h : Below a b) (h' : Below b c) : Below a c :=
  fun v hv => h' v (h v hv)

theorem Truth.Below.trans {s t u : Truth} (h : s.Below t) (h' : t.Below u) : s.Below u := by
  intro hs
  have ht := h hs
  rw [h' (ht ▸ hs), ht]

theorem below_none (b : Option Int) : Below none b := fun _ h => by cases h

theorem NaryOp.exact_mono (k : NaryOp) {a a' b b' : Option Int} (ha : Below a a')
    (hb : Below b b') : Below (k.exact a b) (k.exact a' b') := by
  intro v h
  cases a with
  | none => cases h
  | some x =>
    cases b with
    | none => cases h
    | some y =>
      rw [ha x rfl, hb y rfl]
      exact h

theorem cmpExact_mono (k : CmpOp) {a a' b b' : Option Int} (ha : Below a a')
    (hb : Below b b') : (cmpExact k a b).Below (cmpExact k a' b') := by
  intro h
  cases a with
  | none => exact absurd rfl h
  | some x =>
    cases b with
    | none => exact absurd rfl h
    | some y => rw [ha x rfl, hb y rfl]

theorem ConnOp.step_mono (k : ConnOp) {a a' b b' : Truth} (ha : a.Below a') (hb : b.Below b') :
    (k.step a b).Below (k.step a' b') := by
  intro h
  cases a with
  | undef =>
    cases b with
    | undef =>
      refine absurd ?_ h
      cases k <;> rfl
    | yes =>
      rw [hb (by decide)]
      cases k with
      | conj => exact absurd rfl h
      | disj => cases a' <;> rfl
    | no =>
      rw [hb (by decide)]
      cases k with
      | disj => exact absurd rfl h
      | conj => cases a' <;> rfl
  | yes =>
    rw [ha (by decide)]
    cases b with
    | undef =>
      cases k with
      | conj => exact absurd rfl h
      | disj => cases b' <;> rfl
    | yes => rw [hb (by decide)]
    | no => rw [hb (by decide)]
  | no =>
    rw [ha (by decide)]
    cases b with
    | undef =>
      cases k with
      | disj => exact absurd rfl h
      | conj => cases b' <;> rfl
    | yes => rw [hb (by decide)]
    | no => rw [hb (by decide)]

theorem Truth.not_mono {s t : Truth} (h : s.Below t) : s.not.Below t.not := by
  intro hs
  cases s with
  | undef => exact absurd rfl hs
  | yes => rw [h (by decide)]
  | no => rw [h (by decide)]

theorem Truth.toInt_mono {s t : Truth} (h : s.Below t) : Lia.Below s.toInt t.toInt := by
  intro v hv
  cases s with
  | undef => cases hv
  | yes => rwa [h (by decide)]
  | no => rwa [h (by decide)]

/-! ## The constructors -/

section Constructors

variable {R : ExprIds} {ρ : Reading} {k : NaryOp}

theorem accumulate_eq {acc v c : Int} (h : k.accumulate acc v = .ok c) : c = k.eval acc v := by
  cases k with
  | plus =>
    cases h
    rfl
  | mult => exact checked64_eq_ok h

theorem spliceOps_exact (ρ : Reading) : ∀ {ops : List IExpr} {acc c : Int} {flat fs : List IExpr},
    spliceOps k ops acc flat = .ok (c, fs) → k.exact (some c) (exactNary ρ k fs) =
      k.exact (k.exact (some acc) (exactNary ρ k flat)) (exactNary ρ k ops) := by
  intro ops
  induction ops with
  | nil =>
    intro acc c flat fs h
    cases h
    rw [exactNary, k.exact_neutral]
  | cons x xs ih =>
    intro acc c flat fs h
    have hother : ∀ y : IExpr, spliceOps k xs acc (flat ++ [y]) = .ok (c, fs) →
        k.exact (some c) (exactNary ρ k fs) =
          k.exact (k.exact (some acc) (exactNary ρ k flat)) (exactNary ρ k (y :: xs)) := by
      intro y hy
      rw [ih hy, exactNary_append, exactNary_singleton, exactNary, ← k.exact_assoc, k.exact_assoc]
    cases x with
    | const v =>
      obtain ⟨acc', hacc, h⟩ := bind_eq_ok.mp h
      have hsome : some acc' = k.exact (some acc) (some v) :=
        congrArg some (accumulate_eq hacc)
      rw [ih h, exactNary, exactInt, hsome, k.exact_assoc (some acc) (some v),
        k.exact_comm (some v), ← k.exact_assoc (some acc), k.exact_assoc _ (some v)]
    | _ => exact hother _ h

/-- Flattening and merging keep the value. -/
theorem gatherOps_exact (ρ : Reading) : ∀ {xs : List IExpr} {acc : Int} {flat : List IExpr},
    (gatherOps k xs acc flat = .ok none → exactNary ρ k xs = none) ∧
    ∀ {c : Int} {fs : List IExpr}, gatherOps k xs acc flat = .ok (some (c, fs)) →
      k.exact (some c) (exactNary ρ k fs) =
        k.exact (k.exact (some acc) (exactNary ρ k flat)) (exactNary ρ k xs) := by
  intro xs
  induction xs with
  | nil =>
    intro acc flat
    refine ⟨fun h => ?_, fun h => ?_⟩
    · cases h
    · cases h
      rw [exactNary, k.exact_neutral]
  | cons x xs ih =>
    intro acc flat
    -- an operand that is kept as it is
    have hother : ∀ y : IExpr,
        (gatherOps k xs acc (flat ++ [y]) = .ok none → exactNary ρ k (y :: xs) = none) ∧
        ∀ {c : Int} {fs : List IExpr}, gatherOps k xs acc (flat ++ [y]) = .ok (some (c, fs)) →
          k.exact (some c) (exactNary ρ k fs) =
            k.exact (k.exact (some acc) (exactNary ρ k flat)) (exactNary ρ k (y :: xs)) := by
      intro y
      refine ⟨fun hy => ?_, fun hy => ?_⟩
      · rw [exactNary, ih.1 hy, k.exact_comm]
        rfl
      · rw [ih.2 hy, exactNary_append, exactNary_singleton, exactNary, ← k.exact_assoc,
          k.exact_assoc]
    cases x with
    | undef =>
      refine ⟨fun _ => rfl, fun h => ?_⟩
      cases h
    | const v =>
      refine ⟨fun h => ?_, fun h => ?_⟩
      · obtain ⟨acc', hacc, h⟩ := bind_eq_ok.mp h
        rw [exactNary, ih.1 h, k.exact_comm]
        rfl
      · obtain ⟨acc', hacc, h⟩ := bind_eq_ok.mp h
        have hsome : some acc' = k.exact (some acc) (some v) :=
          congrArg some (accumulate_eq hacc)
        rw [ih.2 h, exactNary, exactInt, hsome, k.exact_assoc (some acc) (some v),
          k.exact_comm (some v), ← k.exact_assoc (some acc), k.exact_assoc _ (some v)]
    | nary k' ops =>
      by_cases hk : k' = k
      · subst hk
        refine ⟨fun h => ?_, fun h => ?_⟩
        · rw [gatherOps, if_pos rfl] at h
          obtain ⟨⟨acc', flat'⟩, -, h⟩ := bind_eq_ok.mp h
          rw [exactNary, ih.1 h, k'.exact_comm]
          rfl
        · rw [gatherOps, if_pos rfl] at h
          obtain ⟨⟨acc', flat'⟩, hs, h⟩ := bind_eq_ok.mp h
          rw [ih.2 h, spliceOps_exact ρ hs, exactNary, exactInt, k'.exact_assoc]
      · rw [gatherOps, if_neg hk]
        exact hother _
    | _ => exact hother _

theorem spliceOps_zero : ∀ {ops : List IExpr} {acc : Int} {flat fs : List IExpr},
    spliceOps .mult ops acc flat = .ok (0, fs) → acc = 0 ∨ .const 0 ∈ ops := by
  intro ops
  induction ops with
  | nil =>
    intro acc flat fs h
    cases h
    exact .inl rfl
  | cons x xs ih =>
    intro acc flat fs h
    cases x with
    | const v =>
      obtain ⟨acc', hacc, h⟩ := bind_eq_ok.mp h
      rcases ih h with hz | hm
      · have hprod : acc * v = 0 := (checked64_eq_ok hacc).symm.trans hz
        rcases Int.mul_eq_zero.mp hprod with hz | rfl
        · exact .inl hz
        · exact .inr List.mem_cons_self
      · exact .inr (List.mem_cons_of_mem _ hm)
    | _ => exact (ih h).imp_right (List.mem_cons_of_mem _)

/-- The merged constant of a product is zero only for a zero among the factors. -/
theorem gatherOps_zero : ∀ {xs : List IExpr} {acc : Int} {flat fs : List IExpr},
    gatherOps .mult xs acc flat = .ok (some (0, fs)) →
    acc = 0 ∨ .const 0 ∈ xs ∨ ∃ ops, .nary .mult ops ∈ xs ∧ .const 0 ∈ ops := by
  intro xs
  induction xs with
  | nil =>
    intro acc flat fs h
    cases h
    exact .inl rfl
  | cons x xs ih =>
    intro acc flat fs h
    have hup : ∀ z : IExpr, (.const 0 ∈ xs ∨ ∃ ops, .nary .mult ops ∈ xs ∧ .const 0 ∈ ops) →
        .const 0 ∈ z :: xs ∨ ∃ ops, .nary .mult ops ∈ z :: xs ∧ .const 0 ∈ ops := by
      rintro z (hm | ⟨ops, hm, hy⟩)
      · exact .inl (List.mem_cons_of_mem _ hm)
      · exact .inr ⟨ops, List.mem_cons_of_mem _ hm, hy⟩
    cases x with
    | undef => cases h
    | const v =>
      obtain ⟨acc', hacc, h⟩ := bind_eq_ok.mp h
      rcases ih h with hz | hm
      · have hprod : acc * v = 0 := (checked64_eq_ok hacc).symm.trans hz
        rcases Int.mul_eq_zero.mp hprod with hz | rfl
        · exact .inl hz
        · exact .inr (.inl List.mem_cons_self)
      · exact .inr (hup _ hm)
    | nary k' ops =>
      by_cases hk : k' = .mult
      · subst hk
        rw [gatherOps, if_pos rfl] at h
        obtain ⟨⟨acc', flat'⟩, hs, h⟩ := bind_eq_ok.mp h
        rcases ih h with rfl | hm
        · rcases spliceOps_zero hs with hz | hm
          · exact .inl hz
          · exact .inr (.inr ⟨ops, List.mem_cons_self .., hm⟩)
        · exact .inr (hup _ hm)
      · rw [gatherOps, if_neg hk] at h
        exact (ih h).imp_right (hup _)
    | _ => exact (ih h).imp_right (hup _)

/-- A product with a zero factor is zero, where it is defined. -/
theorem exactNary_zero : ∀ {xs : List IExpr} {x : IExpr} {w : Int}, x ∈ xs →
    exactInt ρ x = some 0 → exactNary ρ .mult xs = some w → w = 0 := by
  intro xs
  induction xs with
  | nil =>
    intro x w hx
    cases hx
  | cons y ys ih =>
    intro x w hx h0 hw
    rw [exactNary] at hw
    obtain ⟨a, ha, hw⟩ := Option.bind_eq_some_iff.mp hw
    obtain ⟨b, hb, rfl⟩ := Option.map_eq_some_iff.mp hw
    rcases List.mem_cons.mp hx with rfl | hx
    · obtain rfl := Option.some.inj (h0.symm.trans ha)
      exact Int.zero_mul b
    · rw [ih hx h0 hb]
      exact Int.mul_zero a

/-- What a sum or a product comes to: the value of its operands, or a zero that
absorbs them. -/
theorem nary_exact {xs : List IExpr} {r : IExpr} (h : nary R k xs = .ok r) (ρ : Reading) :
    exactInt ρ r = exactNary ρ k xs ∨
      (k = .mult ∧ r = .const 0 ∧ Below (exactNary ρ .mult xs) (some 0)) := by
  obtain ⟨g, hg, h⟩ := bind_eq_ok.mp h
  cases g with
  | none =>
    cases h
    exact .inl ((gatherOps_exact ρ).1 hg).symm
  | some g =>
    obtain ⟨acc, flat⟩ := g
    have hval := (gatherOps_exact ρ).2 hg
    rw [exactNary, k.exact_neutral, k.exact_comm _ (exactNary ρ k xs), k.exact_neutral] at hval
    dsimp only at h
    split at h
    · next hz =>
      cases h
      obtain ⟨rfl, rfl⟩ := hz
      refine .inr ⟨rfl, rfl, fun v hv => ?_⟩
      rw [← hval] at hv
      obtain ⟨w, -, hw⟩ := Option.map_eq_some_iff.mp hv
      rw [← hw]
      exact congrArg some (Int.zero_mul w).symm
    · obtain ⟨c, hc, h⟩ := bind_eq_ok.mp h
      cases h
      obtain ⟨rfl, -⟩ := narrow_eq_ok hc
      refine .inl ?_
      rw [exactInt_packOps, exactNary_withConst, hval]

theorem nary_below {xs : List IExpr} {r : IExpr} (h : nary R k xs = .ok r) (ρ : Reading) :
    Below (exactNary ρ k xs) (exactInt ρ r) := by
  rcases nary_exact h ρ with heq | ⟨rfl, rfl, hb⟩
  · rw [heq]
    exact .refl _
  · exact hb

theorem binary_exact {k : BinOp} {a b r : IExpr} (h : binary k a b = .ok r) (ρ : Reading) :
    exactInt ρ r = (exactInt ρ a).bind fun l => (exactInt ρ b).bind (foldExact k l) := by
  unfold binary at h
  split at h
  · cases h
    rfl
  · cases h
    cases exactInt ρ a <;> rfl
  · next l r =>
    obtain ⟨x, hx, h⟩ := bind_eq_ok.mp h
    have hfold := fold_exact hx
    cases x with
    | none =>
      cases h
      exact hfold.symm
    | some v =>
      obtain ⟨c, hc, h⟩ := bind_eq_ok.mp h
      cases h
      obtain ⟨rfl, -⟩ := narrow_eq_ok hc
      exact hfold.symm
  · cases h
    rfl

theorem bitComp_exact (ρ : Reading) (a : IExpr) :
    exactInt ρ (bitComp a) = (exactInt ρ a).map fun v => -v - 1 := by
  unfold bitComp
  split <;> rfl

theorem wrap_exact (ρ : Reading) (b : BExpr) : exactInt ρ (wrap b) = (exactBool ρ b).toInt := by
  unfold wrap
  split <;> rfl

theorem cmpExact_reflexive (k : CmpOp) (v : Int) :
    cmpExact k (some v) (some v) = Truth.ofBool k.reflexive := by
  unfold cmpExact
  cases k <;> simp [cmpEval, CmpOp.reflexive]

theorem exactBool_ofBool (ρ : Reading) (b : Bool) : exactBool ρ (ofBool b) = Truth.ofBool b := by
  cases b <;> rfl

/-- What a comparison comes to: that of its sides, or what reflexivity decides. -/
theorem compare_exact (R : ExprIds) (ρ : Reading) (k : CmpOp) (l r : IExpr) :
    exactBool ρ (compare R k l r) = cmpExact k (exactInt ρ l) (exactInt ρ r) ∨
      (exactInt ρ l = none ∧ exactInt ρ r = none) := by
  unfold compare
  split
  · exact .inl rfl
  · left
    cases exactInt ρ l <;> rfl
  · exact .inl (exactBool_ofBool ρ _)
  · split
    · next heq =>
      subst heq
      cases hl : exactInt ρ l with
      | none => exact .inr ⟨rfl, rfl⟩
      | some v =>
        left
        rw [exactBool_ofBool, cmpExact_reflexive]
    · left
      split
      · next hk => exact cmpExact_comm hk.1 _ _
      · rfl

theorem compare_below (R : ExprIds) (ρ : Reading) (k : CmpOp) (l r : IExpr) :
    (cmpExact k (exactInt ρ l) (exactInt ρ r)).Below (exactBool ρ (compare R k l r)) := by
  rcases compare_exact R ρ k l r with heq | ⟨hl, -⟩
  · rw [heq]
    exact .refl _
  · rw [hl]
    exact fun h => absurd rfl h

theorem cmpEval_flipped (k : CmpOp) (x y : Int) : cmpEval (flipped k) x y = !cmpEval k x y := by
  cases k with
  | eq => rfl
  | neq => simp [cmpEval, flipped, bne]
  | lt => simp [cmpEval, flipped, ← decide_not]
  | leq => simp [cmpEval, flipped, ← decide_not]
  | gt => simp [cmpEval, flipped, ← decide_not]
  | geq => simp [cmpEval, flipped, ← decide_not]

theorem cmpExact_flipped (k : CmpOp) (a b : Option Int) :
    cmpExact (flipped k) a b = (cmpExact k a b).not := by
  cases a with
  | none => rfl
  | some x =>
    cases b with
    | none => rfl
    | some y =>
      show Truth.ofBool (cmpEval (flipped k) x y) = (Truth.ofBool (cmpEval k x y)).not
      rw [cmpEval_flipped]
      cases cmpEval k x y <;> rfl

end Constructors

/-! ## Connectives -/

section Connectives

variable {R : ExprIds} {ρ : Reading} {k : ConnOp}

theorem exactConn_append (xs ys : List BExpr) :
    exactConn ρ k (xs ++ ys) = k.step (exactConn ρ k xs) (exactConn ρ k ys) := by
  induction xs with
  | nil => exact (k.neutral_step _).symm
  | cons x xs ih => rw [List.cons_append, exactConn, exactConn, ih, k.step_assoc]

theorem ConnOp.step_self (k : ConnOp) (t : Truth) : k.step t t = t := by
  cases k <;> cases t <;> rfl

theorem ConnOp.decisive_step (k : ConnOp) (t : Truth) : k.step k.decisive t = k.decisive := by
  cases k <;> cases t <;> rfl

/-- An operand more that is there already makes no difference. -/
theorem exactConn_of_mem {x : BExpr} {xs : List BExpr} (hx : x ∈ xs) :
    k.step (exactBool ρ x) (exactConn ρ k xs) = exactConn ρ k xs := by
  induction xs with
  | nil => cases hx
  | cons y ys ih =>
    rw [exactConn]
    rcases List.mem_cons.mp hx with rfl | hx
    · rw [← k.step_assoc, k.step_self]
    · rw [← k.step_assoc, k.step_comm (exactBool ρ x), k.step_assoc, ih hx]

theorem exactConn_dedup (xs : List BExpr) : exactConn ρ k xs.dedup = exactConn ρ k xs := by
  induction xs with
  | nil => rfl
  | cons x xs ih =>
    by_cases hx : x ∈ xs
    · rw [List.dedup_cons_of_mem hx, ih, exactConn, exactConn_of_mem hx]
    · rw [List.dedup_cons_of_notMem hx, exactConn, exactConn, ih]

theorem exactBool_neutral (ρ : Reading) (k : ConnOp) :
    exactBool ρ k.neutral = k.decisive.not := by
  cases k <;> rfl

theorem exactBool_absorbing (ρ : Reading) (k : ConnOp) :
    exactBool ρ k.absorbing = k.decisive := by
  cases k <;> rfl

theorem exactConn_flatten (xs : List BExpr) :
    exactConn ρ k (flattenConn k xs) = exactConn ρ k xs := by
  induction xs with
  | nil => rfl
  | cons x xs ih =>
    have hother : exactConn ρ k (if x = k.neutral then flattenConn k xs
        else x :: flattenConn k xs) = exactConn ρ k (x :: xs) := by
      split
      · next hn => rw [exactConn, hn, exactBool_neutral, k.neutral_step, ih]
      · rw [exactConn, exactConn, ih]
    cases x with
    | conn k' ops =>
      rw [flattenConn]
      split
      · next hk => rw [exactConn_append, ih, exactConn, exactBool, hk]
      · rw [exactConn, exactConn, ih]
    | _ => exact hother

theorem exactBool_packBools (xs : List BExpr) :
    exactBool ρ (packBools k xs) = exactConn ρ k xs := by
  match xs with
  | [] => exact exactBool_neutral ρ k
  | [x] =>
    rw [exactConn, exactConn, k.step_neutral]
    rfl
  | _ :: _ :: _ => rfl

/-- A connective keeps the value of its operands: a decided one absorbs an undefined
one in evaluation too. -/
theorem conn_exact (R : ExprIds) (ρ : Reading) (k : ConnOp) (xs : List BExpr) :
    exactBool ρ (conn R k xs) = exactConn ρ k xs := by
  unfold conn
  split
  · next hm => rw [← exactConn_of_mem hm, exactBool_absorbing, k.decisive_step]
  · rw [exactBool_packBools, exactConn_perm (sortBools_perm R _), exactConn_dedup,
      exactConn_flatten]

theorem Truth.not_not (t : Truth) : t.not.not = t := by
  cases t <;> rfl

theorem neg_below (R : ExprIds) (ρ : Reading) (a : BExpr) :
    (exactBool ρ a).not.Below (exactBool ρ (neg R a)) := by
  cases a with
  | cmp k l r =>
    have := compare_below R ρ (flipped k) l r
    rwa [cmpExact_flipped] at this
  | neg b =>
    rw [exactBool, Truth.not_not]
    exact .refl _
  | _ => exact .refl _

end Connectives

/-! ## Nothing undefined is dropped -/

/-- The position an access addresses, if its index is one of a cell. -/
def cellAt (cells : List Nat) (i : Int) : Option Nat :=
  if i < 0 then none else cells[i.toNat]?

theorem mem_of_cellAt {cells : List Nat} {i : Int} {q : Nat} (h : cellAt cells i = some q) :
    q ∈ cells := by
  unfold cellAt at h
  split at h
  · cases h
  · exact List.mem_of_getElem? h

theorem cellAt_map (cell : Nat → Nat) (cells : List Nat) (i : Int) :
    cellAt (cells.map cell) i = (cellAt cells i).map cell := by
  unfold cellAt
  split <;> simp

section Strict

variable (ρ : Reading)

mutual

/-- No product has a factor zero beside an undefined one, no comparison has two
undefined sides, and an access reads as the position it addresses does. -/
def IExpr.Strict : IExpr → Prop
  | .nary k ops => IExpr.StrictList ops ∧ (k = .mult → exactNary ρ .mult ops = none →
      ∀ x ∈ ops, exactInt ρ x ≠ some 0)
  | .binary _ a b => a.Strict ∧ b.Strict
  | .bitComp a => a.Strict
  | .array cells index => index.Strict ∧ ∀ i, exactInt ρ index = some i →
      ρ.access cells i = (cellAt cells i).bind ρ.pos
  | .wrapBool b => b.Strict
  | _ => True

def IExpr.StrictList : List IExpr → Prop
  | [] => True
  | x :: xs => x.Strict ∧ IExpr.StrictList xs

def BExpr.Strict : BExpr → Prop
  | .cmp _ l r => l.Strict ∧ r.Strict ∧ (exactInt ρ l = none → exactInt ρ r ≠ none)
  | .conn _ ops => BExpr.StrictList ops
  | .neg a => a.Strict
  | _ => True

def BExpr.StrictList : List BExpr → Prop
  | [] => True
  | x :: xs => x.Strict ∧ BExpr.StrictList xs

end

variable {ρ} {R : ExprIds}

theorem strictList_iff {xs : List IExpr} : IExpr.StrictList ρ xs ↔ ∀ x ∈ xs, x.Strict ρ := by
  induction xs with
  | nil => simp [IExpr.StrictList]
  | cons x xs ih => simp [IExpr.StrictList, ih]

theorem strictBoolList_iff {xs : List BExpr} :
    BExpr.StrictList ρ xs ↔ ∀ x ∈ xs, x.Strict ρ := by
  induction xs with
  | nil => simp [BExpr.StrictList]
  | cons x xs ih => simp [BExpr.StrictList, ih]

/-- A factor that comes to zero decides a product none of whose factors is dropped. -/
theorem exactNary_eq_zero {xs : List IExpr}
    (hd : exactNary ρ .mult xs = none → ∀ x ∈ xs, exactInt ρ x ≠ some 0) {x : IExpr}
    (hx : x ∈ xs) (h0 : exactInt ρ x = some 0) : exactNary ρ .mult xs = some 0 := by
  cases hw : exactNary ρ .mult xs with
  | none => exact absurd h0 (hd hw x hx)
  | some w => rw [exactNary_zero hx h0 hw]

theorem packOps_strict {k : NaryOp} {flat : List IExpr} (hs : ∀ x ∈ flat, x.Strict ρ)
    (hd : k = .mult → exactNary ρ .mult flat = none → ∀ x ∈ flat, exactInt ρ x ≠ some 0) :
    (packOps R k flat).Strict ρ := by
  have hsort := sortOps_perm R flat
  have hnary : (IExpr.nary k (sortOps R flat)).Strict ρ := by
    refine ⟨strictList_iff.mpr fun x hx => hs x (hsort.subset hx), fun hk hnone x hx => ?_⟩
    rw [exactNary_perm hsort] at hnone
    exact hd hk hnone x (hsort.subset hx)
  unfold packOps
  split
  · next x => exact hs x (List.mem_singleton.mpr rfl)
  · exact hnary

/-- A sum or a product of strict operands that drops none is strict, and its value
that of the operands. -/
theorem nary_strict {k : NaryOp} {xs : List IExpr} {r : IExpr} (h : nary R k xs = .ok r)
    (hs : ∀ x ∈ xs, x.Strict ρ)
    (hd : k = .mult → exactNary ρ .mult xs = none → ∀ x ∈ xs, exactInt ρ x ≠ some 0) :
    r.Strict ρ ∧ exactInt ρ r = exactNary ρ k xs := by
  have hexact := nary_exact h ρ
  obtain ⟨g, hg, h⟩ := bind_eq_ok.mp h
  cases g with
  | none =>
    cases h
    exact ⟨trivial, ((gatherOps_exact ρ).1 hg).symm⟩
  | some g =>
    obtain ⟨acc, flat⟩ := g
    dsimp only at h
    -- a part that comes to zero makes an operand come to zero
    have hpart : k = .mult → ∀ ops : List IExpr, .nary .mult ops ∈ xs → ∀ y ∈ ops,
        exactInt ρ y = some 0 → exactInt ρ (.nary .mult ops) = some 0 := by
      intro hk ops hm y hy h0
      exact exactNary_eq_zero ((hs _ hm).2 rfl) hy h0
    split at h
    · next hz =>
      cases h
      obtain ⟨rfl, rfl⟩ := hz
      refine ⟨trivial, Eq.symm ?_⟩
      rcases gatherOps_zero hg with hone | hm | ⟨ops, hm, h0⟩
      · exact absurd hone one_ne_zero
      · exact exactNary_eq_zero (hd rfl) hm rfl
      · exact exactNary_eq_zero (hd rfl) hm (hpart rfl ops hm _ h0 rfl)
    · next hz =>
      obtain ⟨c, hc, h⟩ := bind_eq_ok.mp h
      cases h
      obtain ⟨rfl, -⟩ := narrow_eq_ok hc
      have hval : exactInt ρ (packOps R k (withConst k c flat)) = exactNary ρ k xs := by
        have hgather := (gatherOps_exact ρ).2 hg
        rw [exactNary, k.exact_neutral, k.exact_comm _ (exactNary ρ k xs),
          k.exact_neutral] at hgather
        rw [exactInt_packOps, exactNary_withConst, hgather]
      have hmem : ∀ y ∈ withConst k c flat, y ∈ flat ∨ y = .const c := by
        intro y hy
        unfold withConst at hy
        split at hy
        · rwa [List.mem_append, List.mem_singleton] at hy
        · exact .inl hy
      refine ⟨packOps_strict (fun y hy => ?_) fun hk hnone y hy h0 => ?_, hval⟩
      · rcases hmem y hy with hy | rfl
        · rcases gatherOps_mem hg y hy with hy | ⟨hy, -⟩ | ⟨ops, hm, hy, -⟩
          · cases hy
          · exact hs y hy
          · exact strictList_iff.mp (hs _ hm).1 y hy
        · trivial
      · subst hk
        rw [exactInt_packOps] at hval
        rw [hval] at hnone
        rcases hmem y hy with hy | rfl
        · rcases gatherOps_mem hg y hy with hy | ⟨hy, -⟩ | ⟨ops, hm, hy, -⟩
          · cases hy
          · exact hd rfl hnone y hy h0
          · exact hd rfl hnone _ hm (hpart rfl ops hm y hy h0)
        · exact hz ⟨rfl, Option.some.inj h0⟩

theorem binary_strict {k : BinOp} {a b r : IExpr} (h : binary k a b = .ok r) (ha : a.Strict ρ)
    (hb : b.Strict ρ) : r.Strict ρ := by
  unfold binary at h
  split at h
  · cases h
    trivial
  · cases h
    trivial
  · obtain ⟨x, -, h⟩ := bind_eq_ok.mp h
    cases x with
    | none =>
      cases h
      trivial
    | some v =>
      obtain ⟨c, -, h⟩ := bind_eq_ok.mp h
      cases h
      trivial
  · cases h
    exact ⟨ha, hb⟩

theorem bitComp_strict {a : IExpr} (ha : a.Strict ρ) : (bitComp a).Strict ρ := by
  unfold bitComp
  split
  · trivial
  · trivial
  · exact ha

theorem wrap_strict {b : BExpr} (hb : b.Strict ρ) : (wrap b).Strict ρ := by
  unfold wrap
  split
  · trivial
  · trivial
  · trivial
  · exact hb

theorem ofBool_strict (b : Bool) : (ofBool b).Strict ρ := by
  cases b <;> trivial

theorem compare_strict {k : CmpOp} {l r : IExpr} (hl : l.Strict ρ) (hr : r.Strict ρ)
    (hd : exactInt ρ l = none → exactInt ρ r ≠ none) : (compare R k l r).Strict ρ ∧
      exactBool ρ (compare R k l r) = cmpExact k (exactInt ρ l) (exactInt ρ r) := by
  refine ⟨?_, ?_⟩
  · unfold compare
    split
    · trivial
    · trivial
    · exact ofBool_strict _
    · split
      · exact ofBool_strict _
      · split
        · exact ⟨hr, hl, fun h h' => hd h' h⟩
        · exact ⟨hl, hr, hd⟩
  · rcases compare_exact R ρ k l r with heq | ⟨h1, h2⟩
    · exact heq
    · exact absurd h2 (hd h1)

theorem conn_strict {k : ConnOp} {xs : List BExpr} (hs : ∀ x ∈ xs, x.Strict ρ) :
    (conn R k xs).Strict ρ := by
  have hflat : ∀ x ∈ flattenConn k xs, x.Strict ρ := by
    induction xs with
    | nil => simp [flattenConn]
    | cons x xs ih =>
      obtain ⟨hx, hxs⟩ := List.forall_mem_cons.mp hs
      have hother : ∀ y ∈ (if x = k.neutral then flattenConn k xs
          else x :: flattenConn k xs), y.Strict ρ := by
        intro y hy
        split at hy
        · exact ih hxs y hy
        · exact List.forall_mem_cons.mpr ⟨hx, ih hxs⟩ y hy
      cases x with
      | conn k' ops =>
        intro y hy
        rw [flattenConn] at hy
        split at hy
        · rcases List.mem_append.mp hy with hy | hy
          · exact strictBoolList_iff.mp hx y hy
          · exact ih hxs y hy
        · exact List.forall_mem_cons.mpr ⟨hx, ih hxs⟩ y hy
      | _ => exact hother
  have hsorted : ∀ x ∈ sortBools R (flattenConn k xs).dedup, x.Strict ρ := fun x hx =>
    hflat x (List.mem_dedup.mp ((sortBools_perm R _).subset hx))
  unfold conn
  split
  · cases k <;> trivial
  · unfold packBools
    split
    · cases k <;> trivial
    · next x heq => exact hsorted x (heq ▸ List.mem_singleton.mpr rfl)
    · exact strictBoolList_iff.mpr hsorted

theorem neg_strict {a : BExpr} (ha : a.Strict ρ) :
    (neg R a).Strict ρ ∧ exactBool ρ (neg R a) = (exactBool ρ a).not := by
  cases a with
  | cmp k l r =>
    obtain ⟨h1, h2⟩ := compare_strict (R := R) (k := flipped k) ha.1 ha.2.1 ha.2.2
    exact ⟨h1, h2.trans (cmpExact_flipped ..)⟩
  | neg b => exact ⟨ha, (Truth.not_not _).symm⟩
  | conn k ops => exact ⟨ha, rfl⟩
  | _ => exact ⟨trivial, rfl⟩

end Strict

/-! ## Expressions that agree -/

section One

variable {R : ExprIds}

/-- The second expression, read in `ρ'`, is defined where the first one is in `ρ`, with
its value, and has exactly its value where the first drops nothing undefined. -/
structure Agrees (ρ ρ' : Reading) (e r : IExpr) : Prop where
  below : Below (exactInt ρ e) (exactInt ρ' r)
  strict : e.Strict ρ → r.Strict ρ' ∧ exactInt ρ' r = exactInt ρ e

structure AgreesBool (ρ ρ' : Reading) (e r : BExpr) : Prop where
  below : (exactBool ρ e).Below (exactBool ρ' r)
  strict : e.Strict ρ → r.Strict ρ' ∧ exactBool ρ' r = exactBool ρ e

variable {ρ ρ' ρ₂ : Reading}

theorem Agrees.refl (e : IExpr) : Agrees ρ ρ e e := ⟨.refl _, fun h => ⟨h, rfl⟩⟩

theorem AgreesBool.refl (e : BExpr) : AgreesBool ρ ρ e e := ⟨.refl _, fun h => ⟨h, rfl⟩⟩

theorem Agrees.trans {e r s : IExpr} (h : Agrees ρ ρ' e r) (h' : Agrees ρ' ρ₂ r s) :
    Agrees ρ ρ₂ e s := by
  refine ⟨h.below.trans h'.below, fun he => ?_⟩
  obtain ⟨hr, heq⟩ := h.strict he
  obtain ⟨hs, heq'⟩ := h'.strict hr
  exact ⟨hs, heq'.trans heq⟩

theorem AgreesBool.trans {e r s : BExpr} (h : AgreesBool ρ ρ' e r)
    (h' : AgreesBool ρ' ρ₂ r s) : AgreesBool ρ ρ₂ e s := by
  refine ⟨h.below.trans h'.below, fun he => ?_⟩
  obtain ⟨hr, heq⟩ := h.strict he
  obtain ⟨hs, heq'⟩ := h'.strict hr
  exact ⟨hs, heq'.trans heq⟩

/-- An immediate expression agrees with one of its value. -/
theorem Agrees.of_immediate {e m : IExpr} (hm : immediate m = true)
    (h : exactInt ρ' m = exactInt ρ e) : Agrees ρ ρ' e m := by
  refine ⟨fun v hv => h.trans hv, fun _ => ⟨?_, h⟩⟩
  cases m <;> trivial

theorem exactNary_below (k : NaryOp) {xs ys : List IExpr} (h : List.Forall₂ (Agrees ρ ρ') xs ys) :
    Below (exactNary ρ k xs) (exactNary ρ' k ys) := by
  induction h with
  | nil => exact .refl _
  | cons hx _ ih => exact k.exact_mono hx.below ih

theorem exactConn_below (k : ConnOp) {xs ys : List BExpr}
    (h : List.Forall₂ (AgreesBool ρ ρ') xs ys) :
    (exactConn ρ k xs).Below (exactConn ρ' k ys) := by
  induction h with
  | nil => exact .refl _
  | cons hx _ ih => exact k.step_mono hx.below ih

/-- Operands that agree with strict ones are strict, and have their values. -/
theorem exactNary_strict {xs ys : List IExpr} (h : List.Forall₂ (Agrees ρ ρ') xs ys)
    (hs : ∀ x ∈ xs, x.Strict ρ) :
    (∀ y ∈ ys, y.Strict ρ' ∧ ∃ x ∈ xs, exactInt ρ' y = exactInt ρ x) ∧
      ∀ k, exactNary ρ' k ys = exactNary ρ k xs := by
  induction h with
  | nil => exact ⟨by simp, fun _ => rfl⟩
  | @cons x y xs ys hx _ ih =>
    obtain ⟨hs, hss⟩ := List.forall_mem_cons.mp hs
    obtain ⟨hy, heq⟩ := hx.strict hs
    obtain ⟨hmem, hnary⟩ := ih hss
    refine ⟨List.forall_mem_cons.mpr ⟨⟨hy, x, List.mem_cons_self .., heq⟩, ?_⟩, ?_⟩
    · intro z hz
      obtain ⟨hz, w, hw, heq⟩ := hmem z hz
      exact ⟨hz, w, List.mem_cons_of_mem _ hw, heq⟩
    · intro k
      rw [exactNary, exactNary, heq, hnary k]

theorem exactConn_strict {xs ys : List BExpr} (h : List.Forall₂ (AgreesBool ρ ρ') xs ys)
    (hs : ∀ x ∈ xs, x.Strict ρ) :
    (∀ y ∈ ys, y.Strict ρ') ∧ ∀ k, exactConn ρ' k ys = exactConn ρ k xs := by
  induction h with
  | nil => exact ⟨by simp, fun _ => rfl⟩
  | cons hx _ ih =>
    obtain ⟨hs, hss⟩ := List.forall_mem_cons.mp hs
    obtain ⟨hy, heq⟩ := hx.strict hs
    obtain ⟨hmem, hconn⟩ := ih hss
    refine ⟨List.forall_mem_cons.mpr ⟨hy, hmem⟩, fun k => ?_⟩
    rw [exactConn, exactConn, heq, hconn k]

/-! Each constructor, given operands that agree. -/

theorem nary_agrees {k : NaryOp} {xs ys : List IExpr} {r : IExpr}
    (h : List.Forall₂ (Agrees ρ ρ') xs ys) (hr : nary R k ys = .ok r) :
    Agrees ρ ρ' (.nary k xs) r := by
  refine ⟨(exactNary_below k h).trans (nary_below hr ρ'), fun he => ?_⟩
  obtain ⟨hmem, hval⟩ := exactNary_strict h (strictList_iff.mp he.1)
  have hd : k = .mult → exactNary ρ' .mult ys = none → ∀ y ∈ ys, exactInt ρ' y ≠ some 0 := by
    intro hk hnone y hy
    obtain ⟨-, x, hx, heq⟩ := hmem y hy
    rw [hval] at hnone
    rw [heq]
    exact he.2 hk hnone x hx
  obtain ⟨hstrict, heq⟩ := nary_strict hr (fun y hy => (hmem y hy).1) hd
  exact ⟨hstrict, heq.trans (hval k)⟩

theorem binary_agrees {k : BinOp} {a a' b b' r : IExpr} (ha : Agrees ρ ρ' a a')
    (hb : Agrees ρ ρ' b b') (hr : binary k a' b' = .ok r) : Agrees ρ ρ' (.binary k a b) r := by
  have hval := binary_exact hr ρ'
  refine ⟨fun v hv => ?_, fun he => ?_⟩
  · obtain ⟨x, hx, hv⟩ := Option.bind_eq_some_iff.mp hv
    obtain ⟨y, hy, hv⟩ := Option.bind_eq_some_iff.mp hv
    rw [hval, ha.below x hx, hb.below y hy]
    exact hv
  · obtain ⟨hsa, heqa⟩ := ha.strict he.1
    obtain ⟨hsb, heqb⟩ := hb.strict he.2
    refine ⟨binary_strict hr hsa hsb, ?_⟩
    rw [hval, heqa, heqb, exactInt]

theorem bitComp_agrees {a a' : IExpr} (ha : Agrees ρ ρ' a a') :
    Agrees ρ ρ' (.bitComp a) (bitComp a') := by
  refine ⟨fun v hv => ?_, fun he => ?_⟩
  · obtain ⟨x, hx, hv⟩ := Option.map_eq_some_iff.mp hv
    rw [bitComp_exact, ha.below x hx, ← hv]
    rfl
  · obtain ⟨hs, heq⟩ := ha.strict he
    refine ⟨bitComp_strict hs, ?_⟩
    rw [bitComp_exact, heq, exactInt]

theorem wrap_agrees {b b' : BExpr} (hb : AgreesBool ρ ρ' b b') :
    Agrees ρ ρ' (.wrapBool b) (wrap b') := by
  refine ⟨?_, fun he => ?_⟩
  · rw [wrap_exact]
    exact Truth.toInt_mono hb.below
  · obtain ⟨hs, heq⟩ := hb.strict he
    refine ⟨wrap_strict hs, ?_⟩
    rw [wrap_exact, heq, exactInt]

theorem compare_agrees {k : CmpOp} {l l' r r' : IExpr} (hl : Agrees ρ ρ' l l')
    (hr : Agrees ρ ρ' r r') : AgreesBool ρ ρ' (.cmp k l r) (compare R k l' r') := by
  refine ⟨(cmpExact_mono k hl.below hr.below).trans (compare_below R ρ' k l' r'), fun he => ?_⟩
  obtain ⟨hsl, heql⟩ := hl.strict he.1
  obtain ⟨hsr, heqr⟩ := hr.strict he.2.1
  have hd : exactInt ρ' l' = none → exactInt ρ' r' ≠ none := by
    rw [heql, heqr]
    exact he.2.2
  obtain ⟨hs, heq⟩ := compare_strict (R := R) (k := k) hsl hsr hd
  refine ⟨hs, ?_⟩
  rw [heq, heql, heqr, exactBool]

theorem conn_agrees {k : ConnOp} {xs ys : List BExpr} (h : List.Forall₂ (AgreesBool ρ ρ') xs ys) :
    AgreesBool ρ ρ' (.conn k xs) (conn R k ys) := by
  refine ⟨?_, fun he => ?_⟩
  · rw [conn_exact]
    exact exactConn_below k h
  · obtain ⟨hmem, hval⟩ := exactConn_strict h (strictBoolList_iff.mp he)
    refine ⟨conn_strict hmem, ?_⟩
    rw [conn_exact, hval, exactBool]

theorem neg_agrees {a a' : BExpr} (ha : AgreesBool ρ ρ' a a') :
    AgreesBool ρ ρ' (.neg a) (neg R a') := by
  refine ⟨(Truth.not_mono ha.below).trans (neg_below R ρ' a'), fun he => ?_⟩
  obtain ⟨hs, heq⟩ := ha.strict he
  obtain ⟨hn, hval⟩ := neg_strict (R := R) hs
  refine ⟨hn, ?_⟩
  rw [hval, heq, exactBool]

/-- An access has no other value than the position it addresses. -/
def Reading.Honest (ρ : Reading) : Prop :=
  ∀ cells i v, ρ.access cells i = some v → (cellAt cells i).bind ρ.pos = some v

theorem Reading.Honest.of_none {ρ : Reading} (h : ∀ cells i, ρ.access cells i = none) :
    ρ.Honest := by
  intro cells i v hv
  rw [h] at hv
  cases hv

/-- The second reading gives a moved cell what the first gives the cell, where `Q` says. -/
structure SameCells (ρ ρ' : Reading) (Q : Nat → Prop) (cell : Nat → Nat) : Prop where
  honest : ρ.Honest
  pos : ∀ q, Q q → ρ'.pos (cell q) = ρ.pos q
  access : ∀ cells i, (∀ q ∈ cells, Q q) → ρ'.access (cells.map cell) i = ρ.access cells i

theorem SameCells.refl (hρ : ρ.Honest) (Q : Nat → Prop) : SameCells ρ ρ Q id :=
  ⟨hρ, fun _ _ => rfl, fun cells i _ => by rw [List.map_id]⟩

theorem SameCells.cell_bind {Q : Nat → Prop} {cell : Nat → Nat} (h : SameCells ρ ρ' Q cell)
    {cells : List Nat} (hc : ∀ q ∈ cells, Q q) (i : Int) :
    (cellAt (cells.map cell) i).bind ρ'.pos = (cellAt cells i).bind ρ.pos := by
  rw [cellAt_map]
  cases hq : cellAt cells i with
  | none => rfl
  | some q => exact h.pos q (hc q (mem_of_cellAt hq))

/-- A resolved access is the position it addresses. -/
theorem array_exact (ρ : Reading) (cells : List Nat) (index : IExpr) :
    exactInt ρ (array cells index) = (exactInt ρ index).bind (ρ.access cells) ∨
      ∃ i, index = .const i ∧ exactInt ρ (array cells index) = (cellAt cells i).bind ρ.pos := by
  cases index with
  | const i =>
    refine .inr ⟨i, rfl, ?_⟩
    by_cases h0 : i < 0
    · simp [array, cellAt, h0, exactInt]
    · cases hq : cells[i.toNat]? <;> simp [array, cellAt, h0, hq, exactInt]
  | _ => exact .inl rfl

theorem array_agrees {Q : Nat → Prop} {cell : Nat → Nat} (hcells : SameCells ρ ρ' Q cell)
    {cells : List Nat} (hc : ∀ q ∈ cells, Q q) {index index' : IExpr}
    (hi : Agrees ρ ρ' index index') :
    Agrees ρ ρ' (.array cells index) (array (cells.map cell) index') := by
  have hbind := hcells.cell_bind hc
  have hexact := array_exact ρ' (cells.map cell) index'
  refine ⟨fun v hv => ?_, fun he => ?_⟩
  · obtain ⟨i, hiv, hv⟩ := Option.bind_eq_some_iff.mp hv
    have hi' := hi.below i hiv
    rcases hexact with heq | ⟨j, rfl, heq⟩
    · rw [heq, hi', Option.bind_some, hcells.access cells i hc, hv]
    · obtain rfl : j = i := Option.some.inj hi'
      rw [heq, hbind, hcells.honest cells j v hv]
  · obtain ⟨hs, hval⟩ := hi.strict he.1
    have haccess : ∀ i, exactInt ρ index = some i →
        ρ'.access (cells.map cell) i = (cellAt (cells.map cell) i).bind ρ'.pos := by
      intro i hiv
      rw [hcells.access cells i hc, hbind, he.2 i hiv]
    have hstrict : (array (cells.map cell) index').Strict ρ' := by
      unfold array
      split
      · trivial
      · split
        · trivial
        · split <;> trivial
      · exact ⟨hs, fun i hiv => haccess i (hval ▸ hiv)⟩
    refine ⟨hstrict, ?_⟩
    rcases hexact with heq | ⟨j, rfl, heq⟩
    · rw [heq, hval, exactInt]
      cases hv : exactInt ρ index with
      | none => rfl
      | some i => exact hcells.access cells i hc
    · rw [heq, exactInt, ← hval]
      exact (hbind j).trans (he.2 j hval.symm).symm

section Walk

variable {P Q : Nat → Prop} {leaf : IExpr → Option IExpr} {cell : Nat → Nat}
  (hleaf : ∀ e w, leaf e = some w → e.Within P Q → Agrees ρ ρ' e w)
  (hvar : ∀ q, leaf (.var q) = none → P q → Agrees ρ ρ' (.var q) (.var q))
  (hcells : SameCells ρ ρ' Q cell)

include hleaf hvar hcells

mutual

/-- A rebuilt expression agrees with the one it is made from, when what the walk replaces
does and the cells are moved to where the same values are. -/
theorem rebuild_agrees : (e : IExpr) → e.Within P Q → ∀ r, rebuild R leaf cell e = .ok r →
    Agrees ρ ρ' e r := by
  intro e he r h
  unfold rebuild at h
  split at h
  · next w hw =>
    cases h
    exact hleaf e _ hw he
  · next hw =>
    cases e with
    | undef =>
      cases h
      exact .of_immediate rfl rfl
    | const c =>
      cases h
      exact .of_immediate rfl rfl
    | var q =>
      cases h
      exact hvar q hw (IExpr.within_var.mp he)
    | nary k ops =>
      obtain ⟨ops', hops, h⟩ := bind_eq_ok.mp h
      exact nary_agrees (rebuildList_agrees ops (IExpr.within_nary.mp he) ops' hops) h
    | binary k a b =>
      obtain ⟨a', ha, h⟩ := bind_eq_ok.mp h
      obtain ⟨b', hb, h⟩ := bind_eq_ok.mp h
      obtain ⟨hea, heb⟩ := he.of_binary
      exact binary_agrees (rebuild_agrees a hea a' ha) (rebuild_agrees b heb b' hb) h
    | bitComp a =>
      obtain ⟨a', ha, h⟩ := bind_eq_ok.mp h
      cases h
      exact bitComp_agrees (rebuild_agrees a ⟨he.scalars, he.cells⟩ a' ha)
    | array cells index =>
      obtain ⟨index', hi, h⟩ := bind_eq_ok.mp h
      cases h
      have hw' : index.Within P Q :=
        ⟨he.scalars, fun q hq => he.cells q (List.mem_append_right _ hq)⟩
      exact array_agrees hcells (fun q hq => he.cells q (List.mem_append_left _ hq))
        (rebuild_agrees index hw' index' hi)
    | wrapBool b =>
      obtain ⟨b', hb, h⟩ := bind_eq_ok.mp h
      cases h
      exact wrap_agrees (rebuildBool_agrees b ⟨he.scalars, he.cells⟩ b' hb)
termination_by structural e => e

theorem rebuildList_agrees : (xs : List IExpr) → (∀ x ∈ xs, x.Within P Q) → ∀ r,
    rebuildList R leaf cell xs = .ok r → List.Forall₂ (Agrees ρ ρ') xs r := by
  intro xs hxs r h
  cases xs with
  | nil =>
    cases h
    exact .nil
  | cons x xs =>
    obtain ⟨hx, hxs⟩ := List.forall_mem_cons.mp hxs
    obtain ⟨x', hx', h⟩ := bind_eq_ok.mp h
    obtain ⟨xs', hxs', h⟩ := bind_eq_ok.mp h
    cases h
    exact .cons (rebuild_agrees x hx x' hx') (rebuildList_agrees xs hxs xs' hxs')
termination_by structural xs => xs

theorem rebuildBool_agrees : (e : BExpr) → e.Within P Q → ∀ r,
    rebuildBool R leaf cell e = .ok r → AgreesBool ρ ρ' e r := by
  intro e he r h
  cases e with
  | cmp k a b =>
    obtain ⟨a', ha, h⟩ := bind_eq_ok.mp h
    obtain ⟨b', hb, h⟩ := bind_eq_ok.mp h
    cases h
    obtain ⟨hea, heb⟩ := BExpr.within_cmp.mp he
    exact compare_agrees (rebuild_agrees a hea a' ha) (rebuild_agrees b heb b' hb)
  | conn k ops =>
    obtain ⟨ops', hops, h⟩ := bind_eq_ok.mp h
    cases h
    exact conn_agrees (rebuildBoolList_agrees ops (BExpr.within_conn.mp he) ops' hops)
  | neg a =>
    obtain ⟨a', ha, h⟩ := bind_eq_ok.mp h
    cases h
    exact neg_agrees (rebuildBool_agrees a (BExpr.within_neg.mp he) a' ha)
  | bfalse =>
    cases h
    exact ⟨.refl .no, fun _ => ⟨trivial, rfl⟩⟩
  | btrue =>
    cases h
    exact ⟨.refl .yes, fun _ => ⟨trivial, rfl⟩⟩
  | bundef =>
    cases h
    exact ⟨.refl .undef, fun _ => ⟨trivial, rfl⟩⟩
termination_by structural e => e

theorem rebuildBoolList_agrees : (xs : List BExpr) → (∀ x ∈ xs, x.Within P Q) → ∀ r,
    rebuildBoolList R leaf cell xs = .ok r → List.Forall₂ (AgreesBool ρ ρ') xs r := by
  intro xs hxs r h
  cases xs with
  | nil =>
    cases h
    exact .nil
  | cons x xs =>
    obtain ⟨hx, hxs⟩ := List.forall_mem_cons.mp hxs
    obtain ⟨x', hx', h⟩ := bind_eq_ok.mp h
    obtain ⟨xs', hxs', h⟩ := bind_eq_ok.mp h
    cases h
    exact .cons (rebuildBool_agrees x hx x' hx') (rebuildBoolList_agrees xs hxs xs' hxs')
termination_by structural xs => xs

end

end Walk

section Put

variable {p : Nat} {v : Int} (hp : ρ.pos p = some v)

include hp

theorem replacing_agrees (e w : IExpr) (h : replacing (.var p) (.const v) e = some w) :
    Agrees ρ ρ e w := by
  unfold replacing at h
  split at h
  · next heq =>
    subst heq
    cases h
    exact .of_immediate rfl hp.symm
  · cases h

variable (hρ : ρ.Honest)

include hρ

/-- Putting its value for a position agrees with the expression. -/
theorem subst_agrees (e r : IExpr) (h : subst R e p (.const v) = .ok r) : Agrees ρ ρ e r :=
  rebuild_agrees (P := fun _ => True) (Q := fun _ => True)
    (fun e w hw _ => replacing_agrees hp e w hw)
    (fun _ _ _ => .refl _) (.refl hρ _) e ⟨fun _ _ => trivial, fun _ _ => trivial⟩ r h

theorem substBool_agrees (e r : BExpr) (h : substBool R e p (.const v) = .ok r) :
    AgreesBool ρ ρ e r :=
  rebuildBool_agrees (P := fun _ => True) (Q := fun _ => True)
    (fun e w hw _ => replacing_agrees hp e w hw)
    (fun _ _ _ => .refl _) (.refl hρ _) e ⟨fun _ _ => trivial, fun _ _ => trivial⟩ r h

end Put

section Shift

variable {n : Nat} (hcells : SameCells ρ ρ' (n ≤ ·) (shiftPos (-n)))

theorem shiftPos_add {n q : Nat} (h : n ≤ q) : shiftPos (-n) q + n = q := by
  unfold shiftPos
  omega

/-- Without accesses, what is left of a reading gives moved positions their values. -/
theorem sameCells_drop (haccess : ∀ cells i, ρ.access cells i = none) (n : Nat) :
    SameCells ρ (ρ.drop n) (n ≤ ·) (shiftPos (-n)) where
  honest := .of_none haccess
  pos := fun _ hq => congrArg ρ.pos (shiftPos_add hq)
  access := fun cells i _ => (haccess _ i).trans (haccess cells i).symm

include hcells

theorem shifting_agrees (x w : IExpr) (hw : shifting (-n) x = some w)
    (hx : x.Within (n ≤ ·) (n ≤ ·)) : Agrees ρ ρ' x w := by
  cases x with
  | var q =>
    cases hw
    have hval := hcells.pos q (IExpr.within_var.mp hx)
    exact ⟨fun v hv => hval.trans hv, fun _ => ⟨trivial, hval⟩⟩
  | _ => cases hw

/-- Nothing is moved by nothing. -/
theorem SameCells.eq_of_zero (h0 : (-n : Int) = 0) : ρ' = ρ := by
  obtain rfl : n = 0 := by omega
  have hid : ∀ q, shiftPos (-(0 : Nat)) q = q := fun q => shiftPos_add (Nat.zero_le q)
  have hmap : ∀ cells : List Nat, cells.map (shiftPos (-(0 : Nat))) = cells := fun cells =>
    (List.map_congr_left fun q _ => hid q).trans (List.map_id _)
  have hpos : ρ'.pos = ρ.pos := funext fun q => by
    rw [← hcells.pos q (Nat.zero_le q), hid]
  have haccess : ρ'.access = ρ.access := funext fun cells => funext fun i => by
    rw [← hcells.access cells i fun q _ => Nat.zero_le q, hmap]
  cases ρ
  cases ρ'
  cases hpos
  cases haccess
  rfl

/-- A re-rooted expression agrees with the one it is made from, read where the values of
the moved positions are. -/
theorem shiftPositions_agrees {e r : IExpr} (he : e.Within (n ≤ ·) (n ≤ ·))
    (h : shiftPositions R e (-n) = .ok r) : Agrees ρ ρ' e r := by
  unfold shiftPositions at h
  split at h
  · next h0 =>
    cases h
    rw [hcells.eq_of_zero h0]
    exact .refl e
  · exact rebuild_agrees (shifting_agrees hcells) (fun q hq => by cases hq) hcells e he r h

theorem shiftPositionsBool_agrees {e r : BExpr} (he : e.Within (n ≤ ·) (n ≤ ·))
    (h : shiftPositionsBool R e (-n) = .ok r) : AgreesBool ρ ρ' e r := by
  unfold shiftPositionsBool at h
  split at h
  · next h0 =>
    cases h
    rw [hcells.eq_of_zero h0]
    exact .refl e
  · exact rebuildBool_agrees (shifting_agrees hcells) (fun q hq => by cases hq) hcells e he r h

end Shift

end One

/-! ## What is left to read -/

section Reads

variable {P Q P' Q' : Nat → Prop} {R : ExprIds} {leaf : IExpr → Option IExpr} {cell : Nat → Nat}

theorem array_within {cells : List Nat} {index : IExpr} (hcells : ∀ q ∈ cells, P q ∧ Q q)
    (hi : index.Within P Q) : (array cells index).Within P Q := by
  have hother : (IExpr.array cells index).Within P Q := by
    refine ⟨hi.scalars, fun q hq => ?_⟩
    rcases List.mem_append.mp hq with hq | hq
    · exact (hcells q hq).2
    · exact hi.cells q hq
  cases index with
  | undef => exact IExpr.within_undef
  | const i =>
    rw [array]
    split
    · exact IExpr.within_undef
    · split
      · next q hq => exact IExpr.within_var.mpr (hcells q (List.mem_of_getElem? hq)).1
      · exact IExpr.within_undef
  | _ => exact hother

variable (hleaf : ∀ e w, leaf e = some w → e.Within P' Q' → w.Within P Q)
  (hvar : ∀ q, leaf (.var q) = none → P' q → P q)
  (hcell : ∀ q, Q' q → P (cell q) ∧ Q (cell q))

include hleaf hvar hcell

mutual

/-- What the rebuilding walk leaves to read, when what it replaces and the cells it moves
read no more. -/
theorem rebuild_within : (e : IExpr) → e.Within P' Q' → ∀ r,
    rebuild R leaf cell e = .ok r → r.Within P Q := by
  intro e he r h
  unfold rebuild at h
  split at h
  · next w hw =>
    cases h
    exact hleaf e _ hw he
  · next hw =>
    cases e with
    | undef =>
      cases h
      exact IExpr.within_undef
    | const c =>
      cases h
      exact IExpr.within_const _
    | var q =>
      cases h
      exact IExpr.within_var.mpr (hvar q hw (IExpr.within_var.mp he))
    | nary k ops =>
      obtain ⟨ops', hops, h⟩ := bind_eq_ok.mp h
      exact nary_within (rebuildList_within ops (IExpr.within_nary.mp he) ops' hops) h
    | binary k a b =>
      obtain ⟨a', ha, h⟩ := bind_eq_ok.mp h
      obtain ⟨b', hb, h⟩ := bind_eq_ok.mp h
      obtain ⟨hea, heb⟩ := he.of_binary
      exact binary_within (rebuild_within a hea a' ha) (rebuild_within b heb b' hb) h
    | bitComp a =>
      obtain ⟨a', ha, h⟩ := bind_eq_ok.mp h
      cases h
      exact bitComp_within (rebuild_within a ⟨he.scalars, he.cells⟩ a' ha)
    | array cells index =>
      obtain ⟨i', hi, h⟩ := bind_eq_ok.mp h
      cases h
      refine array_within (List.forall_mem_map.mpr fun q hq => ?_) (rebuild_within index
        ⟨he.scalars, fun q hq => he.cells q (List.mem_append_right _ hq)⟩ i' hi)
      exact hcell q (he.cells q (List.mem_append_left _ hq))
    | wrapBool b =>
      obtain ⟨b', hb, h⟩ := bind_eq_ok.mp h
      cases h
      exact wrap_within (rebuildBool_within b ⟨he.scalars, he.cells⟩ b' hb)
termination_by structural e => e

theorem rebuildList_within : (xs : List IExpr) → (∀ x ∈ xs, x.Within P' Q') →
    ∀ r, rebuildList R leaf cell xs = .ok r →
    ∀ x ∈ r, x.Within P Q := by
  intro xs hxs r h
  cases xs with
  | nil =>
    cases h
    simp
  | cons x xs =>
    obtain ⟨hx, hxs⟩ := List.forall_mem_cons.mp hxs
    obtain ⟨x', hx', h⟩ := bind_eq_ok.mp h
    obtain ⟨xs', hxs', h⟩ := bind_eq_ok.mp h
    cases h
    exact List.forall_mem_cons.mpr ⟨rebuild_within x hx x' hx', rebuildList_within xs hxs xs' hxs'⟩
termination_by structural xs => xs

theorem rebuildBool_within : (e : BExpr) → e.Within P' Q' → ∀ r,
    rebuildBool R leaf cell e = .ok r → r.Within P Q := by
  intro e he r h
  cases e with
  | cmp k a b =>
    obtain ⟨a', ha, h⟩ := bind_eq_ok.mp h
    obtain ⟨b', hb, h⟩ := bind_eq_ok.mp h
    cases h
    obtain ⟨hea, heb⟩ := BExpr.within_cmp.mp he
    exact compare_within (rebuild_within a hea a' ha) (rebuild_within b heb b' hb)
  | conn k ops =>
    obtain ⟨ops', hops, h⟩ := bind_eq_ok.mp h
    cases h
    exact conn_within (rebuildBoolList_within ops (BExpr.within_conn.mp he) ops' hops)
  | neg a =>
    obtain ⟨a', ha, h⟩ := bind_eq_ok.mp h
    cases h
    exact neg_within (rebuildBool_within a (BExpr.within_neg.mp he) a' ha)
  | _ =>
    cases h
    simp
termination_by structural e => e

theorem rebuildBoolList_within : (xs : List BExpr) → (∀ x ∈ xs, x.Within P' Q') →
    ∀ r, rebuildBoolList R leaf cell xs = .ok r →
    ∀ x ∈ r, x.Within P Q := by
  intro xs hxs r h
  cases xs with
  | nil =>
    cases h
    simp
  | cons x xs =>
    obtain ⟨hx, hxs⟩ := List.forall_mem_cons.mp hxs
    obtain ⟨x', hx', h⟩ := bind_eq_ok.mp h
    obtain ⟨xs', hxs', h⟩ := bind_eq_ok.mp h
    cases h
    exact List.forall_mem_cons.mpr
      ⟨rebuildBool_within x hx x' hx', rebuildBoolList_within xs hxs xs' hxs'⟩
termination_by structural xs => xs

end

omit hleaf hvar hcell

variable {p : Nat} {v : Int}

theorem replacing_within (e w : IExpr) (h : replacing (.var p) (.const v) e = some w)
    (_ : e.Within P' Q') : w.Within P Q := by
  unfold replacing at h
  split at h
  · cases h
    exact IExpr.within_const _
  · cases h

theorem replacing_var {q : Nat} (h : replacing (.var p) (.const v) (.var q) = none)
    (hq : q = p ∨ P q) : P q := by
  rcases hq with rfl | hq
  · simp [replacing] at h
  · exact hq

/-- After a substitution the position is not read any more. -/
theorem subst_within (hPQ : ∀ q, Q q → P q) (e : IExpr)
    (he : e.Within (fun q => q = p ∨ P q) Q) (r : IExpr)
    (h : subst R e p (.const v) = .ok r) : r.Within P Q :=
  rebuild_within replacing_within (fun _ => replacing_var) (fun q hq => ⟨hPQ q hq, hq⟩) e he r h

theorem substBool_within (hPQ : ∀ q, Q q → P q) (e : BExpr)
    (he : e.Within (fun q => q = p ∨ P q) Q) (r : BExpr)
    (h : substBool R e p (.const v) = .ok r) : r.Within P Q :=
  rebuildBool_within replacing_within (fun _ => replacing_var) (fun q hq => ⟨hPQ q hq, hq⟩) e he r h

theorem shifting_within {delta : Int} (x w : IExpr) (hw : shifting delta x = some w)
    (hx : x.Within (fun q => P (shiftPos delta q)) Q') : w.Within P Q := by
  cases x with
  | var q =>
    cases hw
    have hq := IExpr.within_var.mp hx
    exact IExpr.within_var.mpr hq
  | _ => cases hw

theorem shiftPos_zero {delta : Int} (h : delta = 0) (q : Nat) : shiftPos delta q = q := by
  rw [h, shiftPos, Int.add_zero, Int.toNat_natCast]

/-- Re-rooting moves what is read and what is addressed. -/
theorem shiftPositions_moves {delta : Int} {e r : IExpr}
    (he : e.Within (fun q => P (shiftPos delta q))
      fun q => P (shiftPos delta q) ∧ Q (shiftPos delta q))
    (h : shiftPositions R e delta = .ok r) : r.Within P Q := by
  unfold shiftPositions at h
  split at h
  · next h0 =>
    cases h
    refine ⟨fun q hq => ?_, fun q hq => ?_⟩
    · exact shiftPos_zero h0 q ▸ he.scalars q hq
    · exact shiftPos_zero h0 q ▸ (he.cells q hq).2
  · exact rebuild_within (shifting_within (P := P)) (fun q hq => by cases hq) (fun _ hq => hq) e
      he r h

theorem shiftPositionsBool_moves {delta : Int} {e r : BExpr}
    (he : e.Within (fun q => P (shiftPos delta q))
      fun q => P (shiftPos delta q) ∧ Q (shiftPos delta q))
    (h : shiftPositionsBool R e delta = .ok r) : r.Within P Q := by
  unfold shiftPositionsBool at h
  split at h
  · next h0 =>
    cases h
    refine ⟨fun q hq => ?_, fun q hq => ?_⟩
    · exact shiftPos_zero h0 q ▸ he.scalars q hq
    · exact shiftPos_zero h0 q ▸ (he.cells q hq).2
  · exact rebuildBool_within (shifting_within (P := P)) (fun q hq => by cases hq)
      (fun _ hq => hq) e he r h

/-- Without accesses only scalar positions move. -/
theorem shiftPositions_within {delta : Int} {e r : IExpr}
    (he : e.Within (fun q => P (shiftPos delta q)) Q) (hQ : ∀ q, ¬ Q q)
    (h : shiftPositions R e delta = .ok r) : r.Within P Q :=
  shiftPositions_moves ⟨he.scalars, fun q hq => (hQ q (he.cells q hq)).elim⟩ h

end Reads

/-! ## Every position -/

section All

variable (R : ExprIds) (env : List Int)

/-- The values of the positions `ps` put in, one after the other. -/
def substAll : List Nat → IExpr → Except Err IExpr
  | [], e => .ok e
  | p :: ps, e =>
    match env[p]? with
    | some v => do substAll ps (← subst R e p (.const v))
    | none => .error .logic

def substAllBool : List Nat → BExpr → Except Err BExpr
  | [], e => .ok e
  | p :: ps, e =>
    match env[p]? with
    | some v => do substAllBool ps (← substBool R e p (.const v))
    | none => .error .logic

/-- The immediate expression of an outcome. -/
def ofOutcome : Option Int → IExpr
  | some v => .const v
  | none => .undef

def Truth.expr : Truth → BExpr
  | .no => .bfalse
  | .yes => .btrue
  | .undef => .bundef

variable {R env} {ps : List Nat} (henv : ∀ v ∈ env, InInt32 v)

theorem substBool_normal {e r : BExpr} {v : IExpr} {pos : Nat} (he : e.Normal) (hv : v.Normal)
    (h : substBool R e pos v = .ok r) : r.Normal :=
  rebuildBool_normal (replacing_normal hv) e he r h

include henv

/-- What is left is normal, reads nothing and agrees with the expression. -/
theorem substAll_spec : ∀ {ps : List Nat} {e r : IExpr}, e.Normal →
    e.Within (· ∈ ps) (fun _ => False) → substAll R env ps e = .ok r →
    r.Normal ∧ collect r = [] ∧ Agrees (.ofEnv env) (.ofEnv env) e r := by
  intro ps
  induction ps with
  | nil =>
    intro e r he hw h
    cases h
    refine ⟨he, List.eq_nil_iff_forall_not_mem.mpr fun p hp => ?_, .refl _⟩
    exact absurd (hw.scalars p hp) (List.not_mem_nil)
  | cons p ps ih =>
    intro e r he hw h
    unfold substAll at h
    split at h
    · next v hp =>
      obtain ⟨e', he', h⟩ := bind_eq_ok.mp h
      have hv : (IExpr.const v).Normal := henv v (List.mem_of_getElem? hp)
      have hread : e'.Within (· ∈ ps) (fun _ => False) :=
        subst_within (fun _ hq => hq.elim) e
          ⟨fun q hq => List.mem_cons.mp (hw.scalars q hq), hw.cells⟩ e' he'
      obtain ⟨hr, hground, hagree⟩ := ih (subst_normal he hv he') hread h
      exact ⟨hr, hground, (subst_agrees (ρ := .ofEnv env) hp
        (.of_none fun _ _ => rfl) e e' he').trans hagree⟩
    · cases h

theorem substAllBool_spec : ∀ {ps : List Nat} {e r : BExpr}, e.Normal →
    e.Within (· ∈ ps) (fun _ => False) → substAllBool R env ps e = .ok r →
    r.Normal ∧ collectBool r = [] ∧ AgreesBool (.ofEnv env) (.ofEnv env) e r := by
  intro ps
  induction ps with
  | nil =>
    intro e r he hw h
    cases h
    refine ⟨he, List.eq_nil_iff_forall_not_mem.mpr fun p hp => ?_, .refl _⟩
    exact absurd (hw.scalars p hp) (List.not_mem_nil)
  | cons p ps ih =>
    intro e r he hw h
    unfold substAllBool at h
    split at h
    · next v hp =>
      obtain ⟨e', he', h⟩ := bind_eq_ok.mp h
      have hv : (IExpr.const v).Normal := henv v (List.mem_of_getElem? hp)
      have hread : e'.Within (· ∈ ps) (fun _ => False) :=
        substBool_within (fun _ hq => hq.elim) e
          ⟨fun q hq => List.mem_cons.mp (hw.scalars q hq), hw.cells⟩ e' he'
      obtain ⟨hr, hground, hagree⟩ := ih (substBool_normal he hv he') hread h
      exact ⟨hr, hground, (substBool_agrees (ρ := .ofEnv env) hp
        (.of_none fun _ _ => rfl) e e' he').trans hagree⟩
    · cases h

omit henv

theorem immediate_exact (ρ : Reading) {e : IExpr} (h : immediate e = true) :
    e = ofOutcome (exactInt ρ e) := by
  cases e <;> first | rfl | cases h

theorem immediateBool_exact (ρ : Reading) {e : BExpr} (h : immediateBool e = true) :
    e = (exactBool ρ e).expr := by
  cases e <;> first | rfl | cases h

/-- Substituting every position comes to an outcome. Wherever evaluation is defined
it is the value evaluation gives, so it is undefined only where evaluation is; and
the two are the same where no product has a zero factor beside an undefined one and
no comparison has two undefined sides. -/
theorem substAll_evaluates (R : ExprIds) (env : List Int) (henv : ∀ v ∈ env, InInt32 v)
    (ps : List Nat) :
    (∀ (e e' : IExpr) (x : Option Int), e.Normal → collectArrays e = [] →
      (∀ p ∈ collect e, p ∈ ps) → substAll R env ps e = .ok e' → evalInt env e = .ok x →
      ∃ y, e' = ofOutcome y ∧ Below x y ∧ (e.Strict (.ofEnv env) → y = x)) ∧
    (∀ (e e' : BExpr) (t : Truth), e.Normal → collectArraysBool e = [] →
      (∀ p ∈ collectBool e, p ∈ ps) → substAllBool R env ps e = .ok e' →
      evalBool env e = .ok t →
      ∃ u : Truth, e' = u.expr ∧ t.Below u ∧ (e.Strict (.ofEnv env) → u = t)) := by
  refine ⟨fun e e' x he ha hps hs hx => ?_, fun e e' t he ha hps hs ht => ?_⟩
  · have hw : e.Within (· ∈ ps) (fun _ => False) :=
      ⟨hps, fun p hp => absurd (ha ▸ hp) List.not_mem_nil⟩
    obtain ⟨hn, hground, hagree⟩ := substAll_spec henv he hw hs
    rw [← evalInt_exact e x hx]
    exact ⟨_, immediate_exact (.ofEnv env) (ground_immediate e' hn hground), hagree.below,
      fun hstrict => (hagree.strict hstrict).2⟩
  · have hw : e.Within (· ∈ ps) (fun _ => False) :=
      ⟨hps, fun p hp => absurd (ha ▸ hp) List.not_mem_nil⟩
    obtain ⟨hn, hground, hagree⟩ := substAllBool_spec henv he hw hs
    rw [← evalBool_exact e t ht]
    exact ⟨_, immediateBool_exact (.ofEnv env) (groundBool_immediate e' hn hground),
      hagree.below, fun hstrict => (hagree.strict hstrict).2⟩

/-- `x + 7 / y` and `x < 7 / y` at `x = 3`, `y = 2`, the divisor put in first. -/
theorem substAll_evaluates_quotient : (∃ y, IExpr.const 6 = ofOutcome y ∧ Below (some 6) y ∧
      ((IExpr.nary .plus [.var 0, .binary .div (.const 7) (.var 1)]).Strict (.ofEnv [3, 2]) →
        y = some 6)) ∧
    ∃ u : Truth, BExpr.bfalse = u.expr ∧ Truth.no.Below u ∧
      ((BExpr.cmp .lt (.var 0) (.binary .div (.const 7) (.var 1))).Strict (.ofEnv [3, 2]) →
        u = .no) := by
  have henv : ∀ v ∈ [(3 : Int), 2], InInt32 v := by decide
  have h := substAll_evaluates ⟨fun _ => 0, fun _ => 0⟩ [3, 2] henv [1, 0]
  exact ⟨h.1 _ _ _ (by simp [IExpr.Normal, IExpr.NormalList, InInt32, isValue]) rfl (by decide)
      (by decide +kernel) rfl,
    h.2 _ _ _ (by simp [BExpr.Normal, IExpr.Normal, InInt32, isValue]) rfl (by decide)
      (by decide +kernel) rfl⟩

/-- `x * (1 / y)` at zero, the factor put in first: the product is zero before the
division is found undefined. And `x / z = y / z` at `1, 1, 0`, the divisor put in
last: the sides are the same expression before they are found undefined. -/
theorem substAll_drops_undefined : ∃ (R : ExprIds) (e : IExpr) (b : BExpr),
    (e.Normal ∧ collectArrays e = [] ∧ support e = [0, 1] ∧
      evalInt [0, 0] e = .ok none ∧ substAll R [0, 0] [0, 1] e = .ok (ofOutcome (some 0))) ∧
    b.Normal ∧ collectArraysBool b = [] ∧ supportBool b = [0, 1, 2] ∧
      evalBool [1, 1, 0] b = .ok .undef ∧
      substAllBool R [1, 1, 0] [0, 1, 2] b = .ok Truth.yes.expr := by
  refine ⟨⟨fun _ => 0, fun _ => 0⟩, .nary .mult [.var 0, .binary .div (.const 1) (.var 1)],
    .cmp .eq (.binary .div (.var 0) (.var 2)) (.binary .div (.var 1) (.var 2)),
    ⟨?_, rfl, by decide, rfl, by decide +kernel⟩, ?_, rfl, by decide, rfl, by decide +kernel⟩
  · simp [IExpr.Normal, IExpr.NormalList, InInt32, isValue]
  · simp [BExpr.Normal, IExpr.Normal, isValue]

end All

end LibHSC.Lia
