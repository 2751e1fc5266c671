import LibHSC.Lia.Factory
import LibHSC.Library.Images

/-!
The normal form of interned expressions: constants are machine values and no
constructor is left to fold. Every constructor and every walk of the factory
keeps it, so the expressions of a run are normal. What the case brackets need
of it is `ground_const`: a normal expression that reads nothing is a constant
or undefined.
-/

namespace LibHSC.Lia

/-- A code that is not a node to fold under: undefined or a value. -/
def immediate : IExpr → Bool
  | .undef => true
  | .const _ => true
  | _ => false

def immediateBool : BExpr → Bool
  | .bfalse => true
  | .btrue => true
  | .bundef => true
  | _ => false

def isConn : BExpr → Bool
  | .conn _ _ => true
  | _ => false

mutual

def IExpr.Normal : IExpr → Prop
  | .undef => True
  | .const v => InInt32 v
  | .var _ => True
  | .nary _ ops =>
    IExpr.NormalList ops ∧ 2 ≤ ops.length ∧ .undef ∉ ops ∧ ops.countP isValue ≤ 1
  | .binary _ a b =>
    a.Normal ∧ b.Normal ∧ a ≠ .undef ∧ b ≠ .undef ∧ ¬(isValue a ∧ isValue b)
  | .bitComp a => a.Normal ∧ immediate a = false
  | .array _ index => index.Normal ∧ immediate index = false
  | .wrapBool b => b.Normal ∧ immediateBool b = false

def IExpr.NormalList : List IExpr → Prop
  | [] => True
  | x :: xs => x.Normal ∧ IExpr.NormalList xs

def BExpr.Normal : BExpr → Prop
  | .bfalse => True
  | .btrue => True
  | .bundef => True
  | .cmp _ l r =>
    l.Normal ∧ r.Normal ∧ l ≠ .undef ∧ r ≠ .undef ∧ ¬(isValue l ∧ isValue r)
  | .conn k ops =>
    BExpr.NormalList ops ∧ 2 ≤ ops.length ∧ ops.Nodup ∧ k.neutral ∉ ops ∧ k.absorbing ∉ ops
  | .neg a => a.Normal ∧ isConn a = true

def BExpr.NormalList : List BExpr → Prop
  | [] => True
  | x :: xs => x.Normal ∧ BExpr.NormalList xs

end

theorem normalList_iff {xs : List IExpr} : IExpr.NormalList xs ↔ ∀ x ∈ xs, x.Normal := by
  induction xs with
  | nil => simp [IExpr.NormalList]
  | cons x xs ih => simp [IExpr.NormalList, ih]

theorem normalBoolList_iff {xs : List BExpr} : BExpr.NormalList xs ↔ ∀ x ∈ xs, x.Normal := by
  induction xs with
  | nil => simp [BExpr.NormalList]
  | cons x xs ih => simp [BExpr.NormalList, ih]

theorem immediate_eq_false {e : IExpr} :
    immediate e = false ↔ e ≠ .undef ∧ isValue e = false := by
  cases e <;> simp [immediate, isValue]

/-! ## Integer constructors -/

def isNary (k : NaryOp) : IExpr → Bool
  | .nary k' _ => decide (k' = k)
  | _ => false

/-- What can stand as a part: neither undefined, nor a constant, nor flattened. -/
structure IsPart (k : NaryOp) (x : IExpr) : Prop where
  open_ : immediate x = false
  kind : isNary k x = false

theorem IsPart.isValue {k : NaryOp} {x : IExpr} (h : IsPart k x) : isValue x = false :=
  (immediate_eq_false.mp h.open_).2

/-- What a same-kind operand adds to the flat list is among its operands. -/
theorem spliceOps_mem {k : NaryOp} : ∀ {ops : List IExpr} {acc : Int} {flat : List IExpr}
    {r : Int × List IExpr}, spliceOps k ops acc flat = .ok r →
    ∀ x ∈ r.2, x ∈ flat ∨ (x ∈ ops ∧ isValue x = false) := by
  intro ops
  induction ops with
  | nil =>
    intro acc flat r h x hx
    cases h
    exact .inl hx
  | cons op ops ih =>
    intro acc flat r h x hx
    have hother : isValue op = false → spliceOps k ops acc (flat ++ [op]) = .ok r →
        x ∈ flat ∨ (x ∈ op :: ops ∧ isValue x = false) := by
      intro hop h
      rcases ih h x hx with hm | ⟨hm, hv⟩
      · rcases List.mem_append.mp hm with hm | hm
        · exact .inl hm
        · obtain rfl := List.mem_singleton.mp hm
          exact .inr ⟨List.mem_cons_self, hop⟩
      · exact .inr ⟨List.mem_cons_of_mem _ hm, hv⟩
    cases op with
    | const v =>
      obtain ⟨acc', -, h⟩ := bind_eq_ok.mp h
      exact (ih h x hx).imp_right fun hm => ⟨List.mem_cons_of_mem _ hm.1, hm.2⟩
    | _ => exact hother rfl h

/-- An element of the flat list was an operand that is not flattened, or is one of a same-kind
operand. -/
theorem gatherOps_mem {k : NaryOp} : ∀ {xs : List IExpr} {acc : Int} {flat : List IExpr}
    {r : Int × List IExpr}, gatherOps k xs acc flat = .ok (some r) → ∀ x ∈ r.2, x ∈ flat ∨
      (x ∈ xs ∧ IsPart k x) ∨
      ∃ ops, .nary k ops ∈ xs ∧ x ∈ ops ∧ isValue x = false := by
  intro xs
  induction xs with
  | nil =>
    intro acc flat r h x hx
    cases h
    exact .inl hx
  | cons y xs ih =>
    intro acc flat r h x hx
    have hup : (x ∈ xs ∧ IsPart k x) ∨
        (∃ ops, .nary k ops ∈ xs ∧ x ∈ ops ∧ isValue x = false) → (x ∈ y :: xs ∧ IsPart k x) ∨
        ∃ ops, .nary k ops ∈ y :: xs ∧ x ∈ ops ∧ isValue x = false := by
      rintro (⟨hm, hx⟩ | ⟨ops, hm, hx⟩)
      · exact .inl ⟨List.mem_cons_of_mem _ hm, hx⟩
      · exact .inr ⟨ops, List.mem_cons_of_mem _ hm, hx⟩
    have hother : IsPart k y → gatherOps k xs acc (flat ++ [y]) = .ok (some r) → x ∈ flat ∨
        (x ∈ y :: xs ∧ IsPart k x) ∨
        ∃ ops, .nary k ops ∈ y :: xs ∧ x ∈ ops ∧ isValue x = false := by
      intro hy h
      rcases ih h x hx with hm | hm
      · rcases List.mem_append.mp hm with hm | hm
        · exact .inl hm
        · obtain rfl := List.mem_singleton.mp hm
          exact .inr (.inl ⟨List.mem_cons_self, hy⟩)
      · exact .inr (hup hm)
    cases y with
    | undef => cases h
    | const v =>
      obtain ⟨acc', -, h⟩ := bind_eq_ok.mp h
      exact (ih h x hx).imp_right hup
    | nary k' ops =>
      by_cases hk : k' = k
      · subst hk
        rw [gatherOps, if_pos rfl] at h
        obtain ⟨⟨acc', flat'⟩, hs, h⟩ := bind_eq_ok.mp h
        rcases ih h x hx with hm | hm
        · exact (spliceOps_mem hs x hm).imp_right fun hm => .inr ⟨ops, List.mem_cons_self, hm⟩
        · exact .inr (hup hm)
      · rw [gatherOps, if_neg hk] at h
        exact hother ⟨rfl, decide_eq_false hk⟩ h
    | _ => exact hother ⟨rfl, rfl⟩ h

/-- An operand that stays open under a sum or a product. -/
def Open (x : IExpr) : Prop := x.Normal ∧ immediate x = false

theorem Open.ne_undef {x : IExpr} (h : Open x) : x ≠ .undef := (immediate_eq_false.mp h.2).1

theorem gatherOps_open {k : NaryOp} {xs flat : List IExpr} {acc : Int} {r : Int × List IExpr}
    (hxs : ∀ x ∈ xs, x.Normal) (hf : ∀ x ∈ flat, Open x)
    (h : gatherOps k xs acc flat = .ok (some r)) : ∀ x ∈ r.2, Open x := by
  intro x hx
  rcases gatherOps_mem h x hx with hx | ⟨hx, hi⟩ | ⟨ops, hops, hx, hv⟩
  · exact hf x hx
  · exact ⟨hxs x hx, hi.open_⟩
  · have hn := hxs _ hops
    exact ⟨normalList_iff.mp hn.1 x hx, immediate_eq_false.mpr ⟨fun hu => hn.2.2.1 (hu ▸ hx), hv⟩⟩

theorem narrow_eq_ok {v c : Int} (h : narrow v = .ok c) : c = v ∧ InInt32 c := by
  unfold narrow at h
  split at h
  · cases h
    exact ⟨rfl, by assumption⟩
  · cases h

theorem sortOps_perm (R : ExprIds) (xs : List IExpr) : (sortOps R xs).Perm xs :=
  List.perm_insertionSort _ _

theorem withConst_open {k : NaryOp} {c : Int} {flat : List IExpr} (hc : InInt32 c)
    (hf : ∀ x ∈ flat, Open x) :
    (∀ x ∈ withConst k c flat, x.Normal ∧ x ≠ .undef) ∧
      (withConst k c flat).countP isValue ≤ 1 ∧ withConst k c flat ≠ [] := by
  have h0 : flat.countP isValue = 0 := by
    rw [List.countP_eq_zero]
    intro x hx
    simp [(immediate_eq_false.mp (hf x hx).2).2]
  have hn : ∀ x ∈ flat, x.Normal ∧ x ≠ .undef := fun x hx => ⟨(hf x hx).1, (hf x hx).ne_undef⟩
  unfold withConst
  split
  · refine ⟨?_, ?_, by simp⟩
    · intro x hx
      rcases List.mem_append.mp hx with hx | hx
      · exact hn x hx
      · rw [List.mem_singleton.mp hx]
        exact ⟨hc, by simp⟩
    · rw [List.countP_append, h0]
      simp [List.countP_cons, isValue]
  · next hne => exact ⟨hn, by omega, fun he => hne (Or.inr he)⟩

theorem packOps_normal {R : ExprIds} {k : NaryOp} {flat : List IExpr}
    (hn : ∀ x ∈ flat, x.Normal ∧ x ≠ .undef) (hcount : flat.countP isValue ≤ 1)
    (hne : flat ≠ []) : (packOps R k flat).Normal := by
  have hperm := sortOps_perm R flat
  match flat with
  | [] => exact absurd rfl hne
  | [x] => exact (hn x (List.mem_singleton.mpr rfl)).1
  | x :: y :: ys =>
    refine ⟨normalList_iff.mpr fun z hz => (hn z (hperm.mem_iff.mp hz)).1, ?_,
      fun hu => (hn _ (hperm.mem_iff.mp hu)).2 rfl, ?_⟩
    · rw [hperm.length_eq]
      simp
    · rw [hperm.countP_eq]
      exact hcount

theorem nary_normal {R : ExprIds} {k : NaryOp} {xs : List IExpr} {r : IExpr}
    (hxs : ∀ x ∈ xs, x.Normal) (h : nary R k xs = .ok r) : r.Normal := by
  obtain ⟨g, hg, h⟩ := bind_eq_ok.mp h
  cases g with
  | none =>
    cases h
    trivial
  | some g =>
    dsimp only at h
    split at h
    · cases h
      exact ⟨by decide, by decide⟩
    · obtain ⟨c, hc, h⟩ := bind_eq_ok.mp h
      cases h
      obtain ⟨h1, h2, h3⟩ :=
        withConst_open (narrow_eq_ok hc).2 (gatherOps_open hxs (by simp) hg)
      exact packOps_normal h1 h2 h3

theorem binary_normal {k : BinOp} {a b r : IExpr} (ha : a.Normal) (hb : b.Normal)
    (h : binary k a b = .ok r) : r.Normal := by
  unfold binary at h
  split at h
  · cases h
    trivial
  · cases h
    trivial
  · obtain ⟨v, -, h⟩ := bind_eq_ok.mp h
    cases v with
    | none =>
      cases h
      trivial
    | some v =>
      obtain ⟨c, hc, h⟩ := bind_eq_ok.mp h
      cases h
      exact (narrow_eq_ok hc).2
  · next h1 h2 h3 =>
    cases h
    refine ⟨ha, hb, h1, h2, ?_⟩
    rintro ⟨h4, h5⟩
    cases a with
    | const l =>
      cases b with
      | const m => exact h3 l m rfl rfl
      | _ => cases h5
    | _ => cases h4

theorem bitComp_normal {a : IExpr} (ha : a.Normal) : (bitComp a).Normal := by
  cases a with
  | undef => trivial
  | const v =>
    simp only [IExpr.Normal, bitComp, InInt32] at ha ⊢
    omega
  | _ => exact ⟨ha, rfl⟩

theorem array_normal {cells : List Nat} {index : IExpr} (hi : index.Normal) :
    (array cells index).Normal := by
  cases index with
  | undef => trivial
  | const i =>
    simp only [array]
    split
    · trivial
    · split <;> trivial
  | _ => exact ⟨hi, rfl⟩

theorem wrap_normal {b : BExpr} (hb : b.Normal) : (wrap b).Normal := by
  cases b with
  | btrue => exact ⟨by decide, by decide⟩
  | bfalse => exact ⟨by decide, by decide⟩
  | bundef => trivial
  | _ => exact ⟨hb, rfl⟩

/-! ## Boolean constructors -/

theorem ofBool_normal (b : Bool) : (ofBool b).Normal := by
  cases b <;> trivial

theorem compare_normal {R : ExprIds} {k : CmpOp} {l r : IExpr} (hl : l.Normal)
    (hr : r.Normal) : (compare R k l r).Normal := by
  unfold compare
  split
  · trivial
  · trivial
  · exact ofBool_normal _
  · next h1 h2 h3 =>
    have hv : ¬(isValue l ∧ isValue r) := by
      rintro ⟨h4, h5⟩
      cases l with
      | const x =>
        cases r with
        | const y => exact h3 x y rfl rfl
        | _ => cases h5
      | _ => cases h4
    split
    · exact ofBool_normal _
    · split
      · exact ⟨hr, hl, h2, h1, fun h => hv ⟨h.2, h.1⟩⟩
      · exact ⟨hl, hr, h1, h2, hv⟩

theorem flattenConn_normal {k : ConnOp} {xs : List BExpr} (hxs : ∀ x ∈ xs, x.Normal)
    (ha : k.absorbing ∉ xs) :
    ∀ x ∈ flattenConn k xs, x.Normal ∧ x ≠ k.neutral ∧ x ≠ k.absorbing := by
  induction xs with
  | nil => simp [flattenConn]
  | cons y xs ih =>
    obtain ⟨hy, hys⟩ := List.forall_mem_cons.mp hxs
    obtain ⟨hya, has⟩ := not_or.mp (mt List.mem_cons.mpr ha)
    have ih := ih hys has
    have step : y ≠ k.neutral →
        ∀ x ∈ y :: flattenConn k xs, x.Normal ∧ x ≠ k.neutral ∧ x ≠ k.absorbing := by
      intro hne x hx
      rcases List.mem_cons.mp hx with rfl | hx
      · exact ⟨hy, hne, fun h => hya h.symm⟩
      · exact ih x hx
    cases y with
    | conn k' ops =>
      unfold flattenConn
      split
      · next hk =>
        subst hk
        intro x hx
        rcases List.mem_append.mp hx with hx | hx
        · exact ⟨normalBoolList_iff.mp hy.1 x hx, fun h => hy.2.2.2.1 (h ▸ hx),
            fun h => hy.2.2.2.2 (h ▸ hx)⟩
        · exact ih x hx
      · exact step (by cases k <;> simp [ConnOp.neutral])
    | _ =>
      unfold flattenConn
      split
      · exact ih
      · exact step (by assumption)

theorem packBools_normal {k : ConnOp} {flat : List BExpr}
    (hn : ∀ x ∈ flat, x.Normal ∧ x ≠ k.neutral ∧ x ≠ k.absorbing) (hnd : flat.Nodup) :
    (packBools k flat).Normal := by
  match flat with
  | [] => cases k <;> trivial
  | [x] => exact (hn x (List.mem_singleton.mpr rfl)).1
  | x :: y :: ys =>
    exact ⟨normalBoolList_iff.mpr fun z hz => (hn z hz).1, by simp, hnd,
      fun h => (hn _ h).2.1 rfl, fun h => (hn _ h).2.2 rfl⟩

theorem sortBools_perm (R : ExprIds) (xs : List BExpr) : (sortBools R xs).Perm xs :=
  List.perm_insertionSort _ _

theorem conn_normal {R : ExprIds} {k : ConnOp} {xs : List BExpr} (hxs : ∀ x ∈ xs, x.Normal) :
    (conn R k xs).Normal := by
  unfold conn
  split
  · cases k <;> trivial
  · next ha =>
    have hperm := sortBools_perm R (flattenConn k xs).dedup
    refine packBools_normal (fun x hx => ?_) (hperm.nodup_iff.mpr (List.nodup_dedup _))
    exact flattenConn_normal hxs ha x (List.mem_dedup.mp (hperm.mem_iff.mp hx))

theorem neg_normal {R : ExprIds} {a : BExpr} (ha : a.Normal) : (neg R a).Normal := by
  cases a with
  | cmp k l r => exact compare_normal ha.1 ha.2.1
  | conn k ops => exact ⟨ha, rfl⟩
  | neg b => exact ha.1
  | _ => trivial

/-! ## Walks -/

section Walk

variable {R : ExprIds} {leaf : IExpr → Option IExpr} {cell : Nat → Nat}
  (hleaf : ∀ e v, leaf e = some v → v.Normal)

include hleaf

mutual

/-- A walk that replaces by normal expressions keeps the normal form. -/
theorem rebuild_normal : (e : IExpr) → e.Normal → ∀ r, rebuild R leaf cell e = .ok r →
    r.Normal := by
  intro e he r h
  unfold rebuild at h
  split at h
  · next v hv =>
    cases h
    exact hleaf e _ hv
  · cases e with
    | undef =>
      cases h
      trivial
    | const c =>
      cases h
      exact he
    | var p =>
      cases h
      trivial
    | nary k ops =>
      obtain ⟨ops', hops, h⟩ := bind_eq_ok.mp h
      exact nary_normal (rebuildList_normal ops he.1 ops' hops) h
    | binary k a b =>
      obtain ⟨a', ha, h⟩ := bind_eq_ok.mp h
      obtain ⟨b', hb, h⟩ := bind_eq_ok.mp h
      exact binary_normal (rebuild_normal a he.1 a' ha) (rebuild_normal b he.2.1 b' hb) h
    | bitComp a =>
      obtain ⟨a', ha, h⟩ := bind_eq_ok.mp h
      cases h
      exact bitComp_normal (rebuild_normal a he.1 a' ha)
    | array cells index =>
      obtain ⟨i', hi, h⟩ := bind_eq_ok.mp h
      cases h
      exact array_normal (rebuild_normal index he.1 i' hi)
    | wrapBool b =>
      obtain ⟨b', hb, h⟩ := bind_eq_ok.mp h
      cases h
      exact wrap_normal (rebuildBool_normal b he.1 b' hb)
termination_by structural e => e

theorem rebuildList_normal : (xs : List IExpr) → IExpr.NormalList xs →
    ∀ r, rebuildList R leaf cell xs = .ok r → ∀ x ∈ r, x.Normal := by
  intro xs hxs r h
  cases xs with
  | nil =>
    cases h
    simp
  | cons x xs =>
    obtain ⟨x', hx, h⟩ := bind_eq_ok.mp h
    obtain ⟨xs', hxs', h⟩ := bind_eq_ok.mp h
    cases h
    exact List.forall_mem_cons.mpr
      ⟨rebuild_normal x hxs.1 x' hx, rebuildList_normal xs hxs.2 xs' hxs'⟩
termination_by structural xs => xs

theorem rebuildBool_normal : (e : BExpr) → e.Normal → ∀ r, rebuildBool R leaf cell e = .ok r →
    r.Normal := by
  intro e he r h
  cases e with
  | bfalse =>
    cases h
    trivial
  | btrue =>
    cases h
    trivial
  | bundef =>
    cases h
    trivial
  | cmp k a b =>
    obtain ⟨a', ha, h⟩ := bind_eq_ok.mp h
    obtain ⟨b', hb, h⟩ := bind_eq_ok.mp h
    cases h
    exact compare_normal (rebuild_normal a he.1 a' ha) (rebuild_normal b he.2.1 b' hb)
  | conn k ops =>
    obtain ⟨ops', hops, h⟩ := bind_eq_ok.mp h
    cases h
    exact conn_normal (rebuildBoolList_normal ops he.1 ops' hops)
  | neg a =>
    obtain ⟨a', ha, h⟩ := bind_eq_ok.mp h
    cases h
    exact neg_normal (rebuildBool_normal a he.1 a' ha)
termination_by structural e => e

theorem rebuildBoolList_normal : (xs : List BExpr) → BExpr.NormalList xs →
    ∀ r, rebuildBoolList R leaf cell xs = .ok r → ∀ x ∈ r, x.Normal := by
  intro xs hxs r h
  cases xs with
  | nil =>
    cases h
    simp
  | cons x xs =>
    obtain ⟨x', hx, h⟩ := bind_eq_ok.mp h
    obtain ⟨xs', hxs', h⟩ := bind_eq_ok.mp h
    cases h
    exact List.forall_mem_cons.mpr
      ⟨rebuildBool_normal x hxs.1 x' hx, rebuildBoolList_normal xs hxs.2 xs' hxs'⟩
termination_by structural xs => xs

end

end Walk

theorem replacing_normal {sub v : IExpr} (hv : v.Normal) :
    ∀ e w, replacing sub v e = some w → w.Normal := by
  intro e w h
  unfold replacing at h
  split at h
  · cases h
    exact hv
  · cases h

theorem shifting_normal {delta : Int} : ∀ e w, shifting delta e = some w → w.Normal := by
  intro e w h
  cases e with
  | var p =>
    cases h
    trivial
  | _ => cases h

variable {R : ExprIds}

theorem subst_normal {e v r : IExpr} {pos : Nat} (he : e.Normal) (hv : v.Normal)
    (h : subst R e pos v = .ok r) : r.Normal :=
  rebuild_normal (replacing_normal hv) e he r h

theorem substSubexpr_normal {e sub v r : IExpr} (he : e.Normal) (hv : v.Normal)
    (h : substSubexpr R e sub v = .ok r) : r.Normal :=
  rebuild_normal (replacing_normal hv) e he r h

theorem substSubexprBool_normal {e r : BExpr} {sub v : IExpr} (he : e.Normal)
    (hv : v.Normal) (h : substSubexprBool R e sub v = .ok r) : r.Normal :=
  rebuildBool_normal (replacing_normal hv) e he r h

theorem shiftPositions_normal {e r : IExpr} {delta : Int} (he : e.Normal)
    (h : shiftPositions R e delta = .ok r) : r.Normal := by
  unfold shiftPositions at h
  split at h
  · cases h
    exact he
  · exact rebuild_normal shifting_normal e he r h

theorem shiftPositionsBool_normal {e r : BExpr} {delta : Int} (he : e.Normal)
    (h : shiftPositionsBool R e delta = .ok r) : r.Normal := by
  unfold shiftPositionsBool at h
  split at h
  · cases h
    exact he
  · exact rebuildBool_normal shifting_normal e he r h

/-! ## Ground expressions -/

theorem isValue_of_immediate {e : IExpr} (h : immediate e = true) (hu : e ≠ .undef) :
    isValue e = true := by
  cases e with
  | undef => exact absurd rfl hu
  | const _ => rfl
  | _ => cases h

mutual

/-- A normal expression that reads nothing is a constant or undefined. -/
theorem ground_immediate : (e : IExpr) → e.Normal → collect e = [] → immediate e = true
  | .undef, _, _ => rfl
  | .const _, _, _ => rfl
  | .var p, _, h => nomatch h
  | .nary k ops, he, h => by
    exfalso
    have himm := groundList_immediate ops he.1 h
    have hall : ops.countP isValue = ops.length := by
      rw [List.countP_eq_length]
      intro x hx
      exact isValue_of_immediate (himm x hx) fun h => he.2.2.1 (h ▸ hx)
    have := he.2.1
    have := he.2.2.2
    omega
  | .binary k a b, he, h => by
    obtain ⟨ha, hb, hau, hbu, hv⟩ := he
    obtain ⟨h1, h2⟩ := List.append_eq_nil_iff.mp h
    exact absurd ⟨isValue_of_immediate (ground_immediate a ha h1) hau,
      isValue_of_immediate (ground_immediate b hb h2) hbu⟩ hv
  | .bitComp a, he, h => by
    have := ground_immediate a he.1 h
    rw [he.2] at this
    cases this
  | .array cells index, he, h => by
    have := ground_immediate index he.1 h
    rw [he.2] at this
    cases this
  | .wrapBool b, he, h => by
    have := groundBool_immediate b he.1 h
    rw [he.2] at this
    cases this

theorem groundList_immediate : (xs : List IExpr) → IExpr.NormalList xs →
    collectList xs = [] → ∀ x ∈ xs, immediate x = true
  | [], _, _ => by simp
  | x :: xs, hxs, h => by
    obtain ⟨h1, h2⟩ := List.append_eq_nil_iff.mp h
    exact List.forall_mem_cons.mpr ⟨ground_immediate x hxs.1 h1, groundList_immediate xs hxs.2 h2⟩

theorem groundBool_immediate : (e : BExpr) → e.Normal → collectBool e = [] → immediateBool e = true
  | .bfalse, _, _ => rfl
  | .btrue, _, _ => rfl
  | .bundef, _, _ => rfl
  | .cmp k a b, he, h => by
    obtain ⟨ha, hb, hau, hbu, hv⟩ := he
    obtain ⟨h1, h2⟩ := List.append_eq_nil_iff.mp h
    exact absurd ⟨isValue_of_immediate (ground_immediate a ha h1) hau,
      isValue_of_immediate (ground_immediate b hb h2) hbu⟩ hv
  | .conn k ops, he, h => by
    exfalso
    obtain ⟨hn, hlen, hnd, hneu, habs⟩ := he
    have himm := groundBoolList_immediate ops hn h
    -- only the undefined operand is left, and only once
    have hundef : ∀ x ∈ ops, x = .bundef := by
      intro x hx
      have hx' := himm x hx
      cases x with
      | bfalse => cases k <;> first | exact absurd hx hneu | exact absurd hx habs
      | btrue => cases k <;> first | exact absurd hx hneu | exact absurd hx habs
      | bundef => rfl
      | _ => cases hx'
    match ops with
    | [] => simp at hlen
    | [_] => simp at hlen
    | x :: y :: ys =>
      have hx := hundef x (by simp)
      have hy := hundef y (by simp)
      simp [hx, hy] at hnd
  | .neg a, he, h => by
    have hi := groundBool_immediate a he.1 h
    have hc := he.2
    cases a with
    | conn _ _ => cases hi
    | _ => cases hc

theorem groundBoolList_immediate : (xs : List BExpr) → BExpr.NormalList xs →
    collectBoolList xs = [] → ∀ x ∈ xs, immediateBool x = true
  | [], _, _ => by simp
  | x :: xs, hxs, h => by
    obtain ⟨h1, h2⟩ := List.append_eq_nil_iff.mp h
    exact List.forall_mem_cons.mpr
      ⟨groundBool_immediate x hxs.1 h1, groundBoolList_immediate xs hxs.2 h2⟩

end

end LibHSC.Lia
