import LibHSC.Lia.Commute
import Mathlib.Data.Nat.Pairing
import Mathlib.Logic.Equiv.Nat
import Mathlib.Logic.Equiv.List

/-!
The expressions there are: what the constructors of the factory return. Each is
normal, held and distinct.
-/

namespace LibHSC.Lia

section Definition

variable (R : ExprIds)

mutual

/-- An expression some calls of the constructors return. -/
inductive Built : IExpr → Prop
  | undef : Built .undef
  | const {v : Int} : InInt32 v → Built (.const v)
  | var (p : Nat) : Built (.var p)
  | nary {k : NaryOp} {xs : List IExpr} {r : IExpr} :
      (∀ x ∈ xs, Built x) → nary R k xs = .ok r → Built r
  | binary {k : BinOp} {a b r : IExpr} : Built a → Built b → binary k a b = .ok r → Built r
  | bitComp {a : IExpr} : Built a → Built (bitComp a)
  | array (cells : List Nat) {index : IExpr} : Built index → Built (array cells index)
  | wrap {b : BExpr} : BuiltBool b → Built (wrap b)

inductive BuiltBool : BExpr → Prop
  | constant (b : Bool) : BuiltBool (ofBool b)
  | undefined : BuiltBool .bundef
  | compare (k : CmpOp) {l r : IExpr} : Built l → Built r → BuiltBool (compare R k l r)
  | conn {k : ConnOp} {xs : List BExpr} : (∀ x ∈ xs, BuiltBool x) → BuiltBool (conn R k xs)
  | neg {a : BExpr} : BuiltBool a → BuiltBool (neg R a)

end

end Definition

theorem distinctList_iff {xs : List IExpr} : IExpr.DistinctList xs ↔ ∀ x ∈ xs, x.Distinct := by
  induction xs with
  | nil => simp [IExpr.DistinctList]
  | cons x xs ih => simp [IExpr.DistinctList, ih]

theorem distinctBoolList_iff {xs : List BExpr} :
    BExpr.DistinctList xs ↔ ∀ x ∈ xs, x.Distinct := by
  induction xs with
  | nil => simp [BExpr.DistinctList]
  | cons x xs ih => simp [BExpr.DistinctList, ih]

/-! ## Sums and products -/

section Nary

variable {R : ExprIds} {V : Nat → Prop} {k : NaryOp}

/-- What the flattening collects: held parts, distinct inside. -/
structure Collected (R : ExprIds) (V : Nat → Prop) (k : NaryOp) (x : IExpr) : Prop where
  held : x.Held R V
  part : IsPart k x
  distinct : x.Distinct

/-- The operands of a held sum or product are constants or collected parts. -/
theorem HeldOp.collected {x : IExpr} (h : HeldOp k x) (hh : x.Held R V) (hd : x.Distinct) :
    (∃ c, x = .const c) ∨ Collected R V k x := by
  rcases h.cases with ⟨c, rfl, -⟩ | hp
  · exact .inl ⟨c, rfl⟩
  · exact .inr ⟨hh, hp, hd⟩

theorem gatherOps_collected {xs flat : List IExpr} {acc : Int} {r : Int × List IExpr}
    (hxs : ∀ x ∈ xs, x.Held R V ∧ x.Distinct) (hf : ∀ x ∈ flat, Collected R V k x)
    (h : gatherOps k xs acc flat = .ok (some r)) : ∀ x ∈ r.2, Collected R V k x := by
  intro x hx
  rcases gatherOps_mem h x hx with hx | ⟨hx, hp⟩ | ⟨ops, hops, hx, hv⟩
  · exact hf x hx
  · exact ⟨(hxs x hx).1, hp, (hxs x hx).2⟩
  · obtain ⟨hh, hd⟩ := hxs _ hops
    rcases (hh.2.2.2.1 x hx).collected (heldList_iff.mp hh.1 x hx) (distinctList_iff.mp hd x hx)
      with ⟨c, rfl⟩ | hc
    · cases hv
    · exact hc

theorem packOps_distinct {flat : List IExpr} (h : ∀ x ∈ flat, x.Distinct) :
    (packOps R k flat).Distinct := by
  match flat with
  | [] => trivial
  | [x] => exact h x (List.mem_singleton.mpr rfl)
  | x :: y :: ys =>
    refine distinctList_iff.mpr fun z hz => h z ?_
    exact (sortOps_perm R _).mem_iff.mp hz

theorem nary_held {xs : List IExpr} {r : IExpr} (hxs : ∀ x ∈ xs, x.Held R V ∧ x.Distinct)
    (h : nary R k xs = .ok r) : r.Held R V ∧ r.Distinct := by
  obtain ⟨g, hg, h⟩ := bind_eq_ok.mp h
  cases g with
  | none =>
    cases h
    exact ⟨trivial, trivial⟩
  | some g =>
    obtain ⟨acc, flat⟩ := g
    have hflat := gatherOps_collected hxs (by simp) hg
    dsimp only at h hflat
    split at h
    · cases h
      exact ⟨trivial, trivial⟩
    · next hzero =>
      obtain ⟨c, hc, h⟩ := bind_eq_ok.mp h
      cases h
      obtain rfl := (narrow_eq_ok hc).1
      refine ⟨?_, packOps_distinct fun x hx => ?_⟩
      · by_cases hnil : flat = []
        · subst hnil
          show (packOps R k (withConst k c [])).Held R V
          rw [withConst, if_pos (.inr rfl)]
          trivial
        · exact (pack_held (fun x hx => ⟨(hflat x hx).held, (hflat x hx).part⟩) hnil
            fun hk hc => hzero ⟨hk, hc⟩).held
      · unfold withConst at hx
        split at hx
        · rcases List.mem_append.mp hx with hx | hx
          · exact (hflat x hx).distinct
          · rw [List.mem_singleton.mp hx]
            trivial
        · exact (hflat x hx).distinct

end Nary

/-! ## The other constructors -/

section Others

variable {R : ExprIds} {V : Nat → Prop}

theorem binary_held {k : BinOp} {a b r : IExpr} (ha : a.Held R V ∧ a.Distinct)
    (hb : b.Held R V ∧ b.Distinct) (h : binary k a b = .ok r) : r.Held R V ∧ r.Distinct := by
  unfold binary at h
  split at h
  · cases h
    exact ⟨trivial, trivial⟩
  · cases h
    exact ⟨trivial, trivial⟩
  · obtain ⟨v, -, h⟩ := bind_eq_ok.mp h
    cases v with
    | none =>
      cases h
      exact ⟨trivial, trivial⟩
    | some v =>
      obtain ⟨c, -, h⟩ := bind_eq_ok.mp h
      cases h
      exact ⟨trivial, trivial⟩
  · next h1 h2 h3 =>
    cases h
    refine ⟨⟨ha.1, hb.1, h1, h2, ?_⟩, ha.2, hb.2⟩
    rintro ⟨h4, h5⟩
    cases a with
    | const l =>
      cases b with
      | const m => exact h3 l m rfl rfl
      | _ => cases h5
    | _ => cases h4

theorem bitComp_held {a : IExpr} (ha : a.Held R V ∧ a.Distinct) :
    (bitComp a).Held R V ∧ (bitComp a).Distinct := by
  cases a with
  | undef => exact ⟨trivial, trivial⟩
  | const v => exact ⟨trivial, trivial⟩
  | _ => exact ⟨⟨ha.1, rfl⟩, ha.2⟩

theorem array_held {cells : List Nat} {index : IExpr} (hc : ∀ p, V p)
    (hi : index.Held R V ∧ index.Distinct) :
    (array cells index).Held R V ∧ (array cells index).Distinct := by
  cases index with
  | undef => exact ⟨trivial, trivial⟩
  | const i =>
    simp only [array]
    split
    · exact ⟨trivial, trivial⟩
    · split
      · exact ⟨hc _, trivial⟩
      · exact ⟨trivial, trivial⟩
  | _ => exact ⟨⟨hi.1, rfl⟩, hi.2⟩

theorem wrap_held {b : BExpr} (hb : b.Held R V ∧ b.Distinct) :
    (wrap b).Held R V ∧ (wrap b).Distinct := by
  cases b with
  | bfalse => exact ⟨trivial, trivial⟩
  | btrue => exact ⟨trivial, trivial⟩
  | bundef => exact ⟨trivial, trivial⟩
  | _ => exact ⟨⟨hb.1, rfl⟩, hb.2⟩

theorem ofBool_held (b : Bool) : (ofBool b).Held R V ∧ (ofBool b).Distinct := by
  cases b <;> exact ⟨trivial, trivial⟩

/-- The node a comparison is, once nothing folds. -/
theorem compare_open {k : CmpOp} {l r : IExpr} (hl : l ≠ .undef) (hr : r ≠ .undef)
    (hv : ¬(isValue l ∧ isValue r)) (hne : l ≠ r) : compare R k l r = orderCmp R k l r := by
  unfold compare
  split
  · exact absurd rfl hl
  · exact absurd rfl hr
  · exact absurd ⟨rfl, rfl⟩ hv
  · exact if_neg hne

theorem orderCmp_distinct {k : CmpOp} {l r : IExpr} (hl : l.Distinct) (hr : r.Distinct)
    (hne : l ≠ r) : (orderCmp R k l r).Distinct := by
  unfold orderCmp
  split
  · exact ⟨hr, hl, hne.symm⟩
  · exact ⟨hl, hr, hne⟩

theorem compare_held {k : CmpOp} {l r : IExpr} (hl : l.Held R V ∧ l.Distinct)
    (hr : r.Held R V ∧ r.Distinct) :
    (compare R k l r).Held R V ∧ (compare R k l r).Distinct := by
  by_cases hlu : l = .undef
  · subst hlu
    exact ⟨trivial, trivial⟩
  by_cases hru : r = .undef
  · subst hru
    cases l <;> exact ⟨trivial, trivial⟩
  by_cases hv : isValue l ∧ isValue r
  · cases l with
    | const x =>
      cases r with
      | const y => exact ofBool_held _
      | _ => cases hv.2
    | _ => cases hv.1
  by_cases hne : l = r
  · subst hne
    unfold compare
    split
    · exact absurd rfl hlu
    · exact absurd rfl hru
    · exact absurd ⟨rfl, rfl⟩ hv
    · rw [if_pos rfl]
      exact ofBool_held _
  · rw [compare_open hlu hru hv hne]
    exact ⟨orderCmp_held hl.1 hr.1 hlu hru hv, orderCmp_distinct hl.2 hr.2 hne⟩

/-- An operand of a held connective. -/
structure HeldArm (R : ExprIds) (V : Nat → Prop) (k : ConnOp) (x : BExpr) : Prop where
  held : x.Held R V
  neutral : x ≠ k.neutral
  absorbing : x ≠ k.absorbing
  flat : ∀ xs, x ≠ .conn k xs
  distinct : x.Distinct

theorem flattenConn_held {k : ConnOp} : ∀ {xs : List BExpr},
    (∀ x ∈ xs, x.Held R V ∧ x.Distinct) → k.absorbing ∉ xs →
    ∀ x ∈ flattenConn k xs, HeldArm R V k x := by
  intro xs
  induction xs with
  | nil => simp [flattenConn]
  | cons y xs ih =>
    intro hxs ha
    obtain ⟨⟨hy, hd⟩, hys⟩ := List.forall_mem_cons.mp hxs
    obtain ⟨hya, has⟩ := not_or.mp (mt List.mem_cons.mpr ha)
    have ih := ih hys has
    have step : y ≠ k.neutral → (∀ zs, y ≠ .conn k zs) →
        ∀ x ∈ y :: flattenConn k xs, HeldArm R V k x := by
      intro hne hflat x hx
      rcases List.mem_cons.mp hx with rfl | hx
      · exact ⟨hy, hne, fun h => hya h.symm, hflat, hd⟩
      · exact ih x hx
    cases y with
    | conn k' ops =>
      unfold flattenConn
      split
      · next hk =>
        subst hk
        intro x hx
        rcases List.mem_append.mp hx with hx | hx
        · obtain ⟨h1, h2, h3⟩ := hy.2.2.2.1 x hx
          exact ⟨heldBoolList_iff.mp hy.1 x hx, h1, h2, h3, distinctBoolList_iff.mp hd.1 x hx⟩
        · exact ih x hx
      · next hk =>
        refine step (by cases k <;> simp [ConnOp.neutral]) fun zs h => hk ?_
        injection h
    | _ =>
      unfold flattenConn
      split
      · exact ih
      · exact step (by assumption) (fun zs h => by cases h)

/-- Beside distinct operands that are neither neutral nor absorbing, only the
undefined one is immediate. -/
theorem countP_immediateBool {k : ConnOp} {xs : List BExpr} (hnd : xs.Nodup)
    (hn : ∀ x ∈ xs, x ≠ k.neutral ∧ x ≠ k.absorbing) : xs.countP immediateBool ≤ 1 := by
  have hle : xs.countP immediateBool ≤ xs.count .bundef := by
    refine List.countP_mono_left fun x hx hi => ?_
    obtain ⟨h1, h2⟩ := hn x hx
    cases x with
    | bundef => exact beq_self_eq_true _
    | bfalse => cases k with
        | conj => exact absurd rfl h2
        | disj => exact absurd rfl h1
    | btrue => cases k with
        | conj => exact absurd rfl h1
        | disj => exact absurd rfl h2
    | _ => cases hi
  exact hle.trans (List.nodup_iff_count_le_one.mp hnd _)

theorem packBools_held {k : ConnOp} {flat : List BExpr} (hf : ∀ x ∈ flat, HeldArm R V k x)
    (hnd : flat.Nodup) :
    (packBools k (sortBools R flat)).Held R V ∧ (packBools k (sortBools R flat)).Distinct := by
  have hperm := sortBools_perm R flat
  have hsorted : (sortBools R flat).Pairwise fun a b => R.bexpr a ≤ R.bexpr b :=
    List.pairwise_insertionSort _ _
  have hf' : ∀ x ∈ sortBools R flat, HeldArm R V k x := fun x hx => hf x (hperm.mem_iff.mp hx)
  have hnd' : (sortBools R flat).Nodup := hperm.nodup_iff.mpr hnd
  generalize sortBools R flat = sorted at hsorted hf' hnd' ⊢
  match sorted with
  | [] => cases k <;> exact ⟨trivial, trivial⟩
  | [x] =>
    have hx := hf' x (List.mem_singleton.mpr rfl)
    exact ⟨hx.held, hx.distinct⟩
  | x :: y :: ys =>
    refine ⟨⟨heldBoolList_iff.mpr fun z hz => (hf' z hz).held, by simp, ?_,
      fun z hz => ⟨(hf' z hz).neutral, (hf' z hz).absorbing, (hf' z hz).flat⟩, hsorted⟩,
      distinctBoolList_iff.mpr fun z hz => (hf' z hz).distinct, hnd'⟩
    exact countP_immediateBool hnd' fun z hz => ⟨(hf' z hz).neutral, (hf' z hz).absorbing⟩

theorem conn_held {k : ConnOp} {xs : List BExpr} (hxs : ∀ x ∈ xs, x.Held R V ∧ x.Distinct) :
    (conn R k xs).Held R V ∧ (conn R k xs).Distinct := by
  unfold conn
  split
  · cases k <;> exact ⟨trivial, trivial⟩
  · next ha =>
    refine packBools_held (fun x hx => ?_) (List.nodup_dedup _)
    exact flattenConn_held hxs ha x (List.mem_dedup.mp hx)

theorem neg_held {a : BExpr} (ha : a.Held R V ∧ a.Distinct) :
    (neg R a).Held R V ∧ (neg R a).Distinct := by
  cases a with
  | cmp k l r => exact compare_held ⟨ha.1.1, ha.2.1⟩ ⟨ha.1.2.1, ha.2.2.1⟩
  | conn k ops => exact ⟨⟨ha.1, rfl⟩, ha.2⟩
  | neg b => exact ⟨ha.1.1, ha.2⟩
  | _ => exact ⟨trivial, trivial⟩

end Others

/-! ## What is built -/

/-- Every position is one. -/
def anyPos (_ : Nat) : Prop := True

section Keeps

variable {R : ExprIds}

mutual

theorem Built.normal {e : IExpr} : Built R e → e.Normal
  | .undef => trivial
  | .const h => h
  | .var _ => trivial
  | .nary hxs h => nary_normal (fun x hx => (hxs x hx).normal) h
  | .binary ha hb h => binary_normal ha.normal hb.normal h
  | .bitComp ha => bitComp_normal ha.normal
  | .array _ hi => array_normal hi.normal
  | .wrap hb => wrap_normal hb.normal

theorem BuiltBool.normal {b : BExpr} : BuiltBool R b → b.Normal
  | .constant b => ofBool_normal b
  | .undefined => trivial
  | .compare _ hl hr => compare_normal hl.normal hr.normal
  | .conn hxs => conn_normal fun x hx => (hxs x hx).normal
  | .neg ha => neg_normal ha.normal

end

mutual

theorem Built.held {e : IExpr} : Built R e → e.Held R anyPos ∧ e.Distinct
  | .undef => ⟨trivial, trivial⟩
  | .const _ => ⟨trivial, trivial⟩
  | .var _ => ⟨trivial, trivial⟩
  | .nary hxs h => nary_held (fun x hx => (hxs x hx).held) h
  | .binary ha hb h => binary_held ha.held hb.held h
  | .bitComp ha => bitComp_held ha.held
  | .array _ hi => array_held (fun _ => trivial) hi.held
  | .wrap hb => wrap_held hb.held

theorem BuiltBool.held {b : BExpr} : BuiltBool R b → b.Held R anyPos ∧ b.Distinct
  | .constant b => ofBool_held b
  | .undefined => ⟨trivial, trivial⟩
  | .compare _ hl hr => compare_held hl.held hr.held
  | .conn hxs => conn_held fun x hx => (hxs x hx).held
  | .neg ha => neg_held ha.held

end

end Keeps

/-! ## A table of ids -/

section Ids

theorem ctorIdx_nary {k k' : NaryOp} (h : k.ctorIdx = k'.ctorIdx) : k = k' := by
  cases k <;> cases k' <;> first | rfl | cases h

theorem ctorIdx_binary {k k' : BinOp} (h : k.ctorIdx = k'.ctorIdx) : k = k' := by
  cases k <;> cases k' <;> first | rfl | cases h

theorem ctorIdx_cmp {k k' : CmpOp} (h : k.ctorIdx = k'.ctorIdx) : k = k' := by
  cases k <;> cases k' <;> first | rfl | cases h

theorem ctorIdx_conn {k k' : ConnOp} (h : k.ctorIdx = k'.ctorIdx) : k = k' := by
  cases k <;> cases k' <;> first | rfl | cases h

mutual

/-- A number for each expression. -/
def number : IExpr → Nat
  | .undef => Nat.pair 0 0
  | .const v => Nat.pair 1 (Equiv.intEquivNat v)
  | .var p => Nat.pair 2 p
  | .nary k ops => Nat.pair 3 (Nat.pair k.ctorIdx (numberList ops))
  | .binary k a b => Nat.pair 4 (Nat.pair k.ctorIdx (Nat.pair (number a) (number b)))
  | .bitComp a => Nat.pair 5 (number a)
  | .array cells index => Nat.pair 6 (Nat.pair (Encodable.encode cells) (number index))
  | .wrapBool b => Nat.pair 7 (numberBool b)

def numberList : List IExpr → Nat
  | [] => 0
  | x :: xs => Nat.pair (number x) (numberList xs) + 1

def numberBool : BExpr → Nat
  | .bfalse => Nat.pair 0 0
  | .btrue => Nat.pair 1 0
  | .bundef => Nat.pair 2 0
  | .cmp k l r => Nat.pair 3 (Nat.pair k.ctorIdx (Nat.pair (number l) (number r)))
  | .conn k ops => Nat.pair 4 (Nat.pair k.ctorIdx (numberBoolList ops))
  | .neg a => Nat.pair 5 (numberBool a)

def numberBoolList : List BExpr → Nat
  | [] => 0
  | x :: xs => Nat.pair (numberBool x) (numberBoolList xs) + 1

end

mutual

theorem number_inj : (a b : IExpr) → number a = number b → a = b
  | .undef, b => by cases b <;> simp [number, Nat.pair_eq_pair]
  | .const _, b => by cases b <;> simp [number, Nat.pair_eq_pair]
  | .var _, b => by cases b <;> simp [number, Nat.pair_eq_pair]
  | .nary k xs, b => by
    cases b with
    | nary k' ys =>
      simp only [number, Nat.pair_eq_pair]
      rintro ⟨-, hk, hxs⟩
      rw [ctorIdx_nary hk, numberList_inj xs ys hxs]
    | _ => simp [number, Nat.pair_eq_pair]
  | .binary k x y, b => by
    cases b with
    | binary k' x' y' =>
      simp only [number, Nat.pair_eq_pair]
      rintro ⟨-, hk, hx, hy⟩
      rw [ctorIdx_binary hk, number_inj x x' hx, number_inj y y' hy]
    | _ => simp [number, Nat.pair_eq_pair]
  | .bitComp x, b => by
    cases b with
    | bitComp x' =>
      simp only [number, Nat.pair_eq_pair]
      rintro ⟨-, hx⟩
      rw [number_inj x x' hx]
    | _ => simp [number, Nat.pair_eq_pair]
  | .array cells i, b => by
    cases b with
    | array cells' i' =>
      simp only [number, Nat.pair_eq_pair]
      rintro ⟨-, hc, hi⟩
      rw [Encodable.encode_injective hc, number_inj i i' hi]
    | _ => simp [number, Nat.pair_eq_pair]
  | .wrapBool x, b => by
    cases b with
    | wrapBool x' =>
      simp only [number, Nat.pair_eq_pair]
      rintro ⟨-, hx⟩
      rw [numberBool_inj x x' hx]
    | _ => simp [number, Nat.pair_eq_pair]
termination_by structural a => a

theorem numberList_inj : (xs ys : List IExpr) → numberList xs = numberList ys → xs = ys
  | [], ys => by cases ys <;> simp [numberList]
  | x :: xs, ys => by
    cases ys with
    | nil => simp [numberList]
    | cons y ys =>
      simp only [numberList, Nat.add_right_cancel_iff, Nat.pair_eq_pair]
      rintro ⟨hx, hxs⟩
      rw [number_inj x y hx, numberList_inj xs ys hxs]
termination_by structural xs => xs

theorem numberBool_inj : (a b : BExpr) → numberBool a = numberBool b → a = b
  | .bfalse, b => by cases b <;> simp [numberBool, Nat.pair_eq_pair]
  | .btrue, b => by cases b <;> simp [numberBool, Nat.pair_eq_pair]
  | .bundef, b => by cases b <;> simp [numberBool, Nat.pair_eq_pair]
  | .cmp k x y, b => by
    cases b with
    | cmp k' x' y' =>
      simp only [numberBool, Nat.pair_eq_pair]
      rintro ⟨-, hk, hx, hy⟩
      rw [ctorIdx_cmp hk, number_inj x x' hx, number_inj y y' hy]
    | _ => simp [numberBool, Nat.pair_eq_pair]
  | .conn k xs, b => by
    cases b with
    | conn k' ys =>
      simp only [numberBool, Nat.pair_eq_pair]
      rintro ⟨-, hk, hxs⟩
      rw [ctorIdx_conn hk, numberBoolList_inj xs ys hxs]
    | _ => simp [numberBool, Nat.pair_eq_pair]
  | .neg x, b => by
    cases b with
    | neg x' =>
      simp only [numberBool, Nat.pair_eq_pair]
      rintro ⟨-, hx⟩
      rw [numberBool_inj x x' hx]
    | _ => simp [numberBool, Nat.pair_eq_pair]
termination_by structural a => a

theorem numberBoolList_inj : (xs ys : List BExpr) → numberBoolList xs = numberBoolList ys → xs = ys
  | [], ys => by cases ys <;> simp [numberBoolList]
  | x :: xs, ys => by
    cases ys with
    | nil => simp [numberBoolList]
    | cons y ys =>
      simp only [numberBoolList, Nat.add_right_cancel_iff, Nat.pair_eq_pair]
      rintro ⟨hx, hxs⟩
      rw [numberBool_inj x y hx, numberBoolList_inj xs ys hxs]
termination_by structural xs => xs

end

end Ids

end LibHSC.Lia
