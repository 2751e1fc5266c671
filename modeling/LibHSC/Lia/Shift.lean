import LibHSC.Lia.Built
import LibHSC.Lia.Outcomes
import LibHSC.Lia.Reads

/-!
Re-rooting. `moved` is an expression with its positions renamed and the operands
put back in the order of their ids; nothing folds. The walk of the factory
computes it, because a renaming that keeps positions apart keeps expressions
apart: no comparison becomes reflexive and no operand repeated.
-/

namespace LibHSC.Lia

section Definition

variable (R : ExprIds) (f : Nat → Nat)

mutual

def moved : IExpr → IExpr
  | .undef => .undef
  | .const v => .const v
  | .var p => .var (f p)
  | .nary k ops => .nary k (sortOps R (movedList ops))
  | .binary k a b => .binary k (moved a) (moved b)
  | .bitComp a => .bitComp (moved a)
  | .array cells index => .array (cells.map f) (moved index)
  | .wrapBool b => .wrapBool (movedBool b)

def movedList : List IExpr → List IExpr
  | [] => []
  | x :: xs => moved x :: movedList xs

def movedBool : BExpr → BExpr
  | .bfalse => .bfalse
  | .btrue => .btrue
  | .bundef => .bundef
  | .cmp k l r => orderCmp R k (moved l) (moved r)
  | .conn k ops => .conn k (sortBools R (movedBoolList ops))
  | .neg a => .neg (movedBool a)

def movedBoolList : List BExpr → List BExpr
  | [] => []
  | x :: xs => movedBool x :: movedBoolList xs

end

theorem movedList_eq (xs : List IExpr) : movedList R f xs = xs.map (moved R f) := by
  induction xs with
  | nil => rfl
  | cons x xs ih => exact congrArg (moved R f x :: ·) ih

theorem movedBoolList_eq (xs : List BExpr) : movedBoolList R f xs = xs.map (movedBool R f) := by
  induction xs with
  | nil => rfl
  | cons x xs ih => exact congrArg (movedBool R f x :: ·) ih

end Definition

/-! ## Heads -/

section Heads

variable {R : ExprIds} {f : Nat → Nat}

theorem moved_immediate (e : IExpr) : immediate (moved R f e) = immediate e := by
  cases e <;> rfl

theorem moved_isValue (e : IExpr) : isValue (moved R f e) = isValue e := by
  cases e <;> rfl

theorem moved_eq_undef {e : IExpr} : moved R f e = .undef ↔ e = .undef := by
  cases e <;> simp [moved]

theorem moved_eq_const {e : IExpr} {c : Int} : moved R f e = .const c ↔ e = .const c := by
  cases e <;> simp [moved]

theorem moved_heldOp {k : NaryOp} {x : IExpr} (h : HeldOp k x) : HeldOp k (moved R f x) := by
  refine ⟨fun hu => h.1 (moved_eq_undef.mp hu), ?_, fun c hc => h.2.2 c (moved_eq_const.mp hc)⟩
  have hk := h.2.1
  cases x <;> exact hk

theorem movedBool_immediate (b : BExpr) : immediateBool (movedBool R f b) = immediateBool b := by
  cases b with
  | cmp k l r =>
    simp only [movedBool, orderCmp]
    split
    · rfl
    · rfl
  | _ => rfl

theorem orderCmp_ne {k : CmpOp} {l r : IExpr} {b : BExpr} (hb : ∀ k l r, b ≠ .cmp k l r) :
    orderCmp R k l r ≠ b := by
  unfold orderCmp
  split
  · exact fun h => hb _ _ _ h.symm
  · exact fun h => hb _ _ _ h.symm

/-- An operand of a connective stays one. -/
theorem movedBool_arm {k : ConnOp} {x : BExpr}
    (h : x ≠ k.neutral ∧ x ≠ k.absorbing ∧ ∀ xs, x ≠ .conn k xs) :
    movedBool R f x ≠ k.neutral ∧ movedBool R f x ≠ k.absorbing ∧
      ∀ xs, movedBool R f x ≠ .conn k xs := by
  have hn : ∀ k' l r, k.neutral ≠ .cmp k' l r := by cases k <;> simp [ConnOp.neutral]
  have ha : ∀ k' l r, k.absorbing ≠ .cmp k' l r := by cases k <;> simp [ConnOp.absorbing]
  cases x with
  | bfalse => exact h
  | btrue => exact h
  | bundef => exact h
  | cmp k' l r => exact ⟨orderCmp_ne hn, orderCmp_ne ha, fun xs => orderCmp_ne (by simp)⟩
  | conn k' ops =>
    obtain ⟨-, -, hflat⟩ := h
    refine ⟨by cases k <;> simp [movedBool, ConnOp.neutral],
      by cases k <;> simp [movedBool, ConnOp.absorbing], fun xs hx => ?_⟩
    rw [movedBool] at hx
    injection hx with hk
    exact hflat ops (by rw [hk])
  | neg a =>
    exact ⟨by cases k <;> simp [movedBool, ConnOp.neutral],
      by cases k <;> simp [movedBool, ConnOp.absorbing], by simp [movedBool]⟩

end Heads

/-! ## Moving twice -/

section Compose

variable {R : ExprIds} {f g : Nat → Nat}

theorem movedBool_orderCmp (hR : Function.Injective R.iexpr) (k : CmpOp) (l r : IExpr) :
    movedBool R g (orderCmp R k l r) = orderCmp R k (moved R g l) (moved R g r) := by
  rw [orderCmp]
  split
  · next hk => exact orderCmp_comm hR hk.1 _ _
  · rfl

mutual

theorem moved_moved (hR : Function.Injective R.iexpr) (hB : Function.Injective R.bexpr) :
    (e : IExpr) → moved R g (moved R f e) = moved R (g ∘ f) e
  | .undef => rfl
  | .const _ => rfl
  | .var _ => rfl
  | .nary k ops => by
    rw [moved, moved, moved, movedList_eq, movedList_eq,
      sortOps_congr hR ((sortOps_perm R (ops.map (moved R f))).map (moved R g)),
      ← movedList_eq, ← movedList_eq, movedList_moved hR hB ops]
  | .binary k a b => by rw [moved, moved, moved, moved_moved hR hB a, moved_moved hR hB b]
  | .bitComp a => by rw [moved, moved, moved, moved_moved hR hB a]
  | .array cells index => by rw [moved, moved, moved, moved_moved hR hB index, List.map_map]
  | .wrapBool b => by rw [moved, moved, moved, movedBool_moved hR hB b]

theorem movedList_moved (hR : Function.Injective R.iexpr) (hB : Function.Injective R.bexpr) :
    (xs : List IExpr) → movedList R g (movedList R f xs) = movedList R (g ∘ f) xs
  | [] => rfl
  | x :: xs => by
    rw [movedList, movedList, movedList, moved_moved hR hB x, movedList_moved hR hB xs]

theorem movedBool_moved (hR : Function.Injective R.iexpr) (hB : Function.Injective R.bexpr) :
    (b : BExpr) → movedBool R g (movedBool R f b) = movedBool R (g ∘ f) b
  | .bfalse => rfl
  | .btrue => rfl
  | .bundef => rfl
  | .cmp k l r => by
    rw [movedBool, movedBool, movedBool_orderCmp hR, moved_moved hR hB l, moved_moved hR hB r]
  | .conn k ops => by
    rw [movedBool, movedBool, movedBool, movedBoolList_eq, movedBoolList_eq,
      sortBools_congr hB ((sortBools_perm R (ops.map (movedBool R f))).map (movedBool R g)),
      ← movedBoolList_eq, ← movedBoolList_eq, movedBoolList_moved hR hB ops]
  | .neg a => by rw [movedBool, movedBool, movedBool, movedBool_moved hR hB a]

theorem movedBoolList_moved (hR : Function.Injective R.iexpr) (hB : Function.Injective R.bexpr) :
    (xs : List BExpr) → movedBoolList R g (movedBoolList R f xs) = movedBoolList R (g ∘ f) xs
  | [] => rfl
  | x :: xs => by
    rw [movedBoolList, movedBoolList, movedBoolList, movedBool_moved hR hB x,
      movedBoolList_moved hR hB xs]

end

end Compose

/-! ## A renaming that keeps every position -/

section Self

variable {R : ExprIds} {V : Nat → Prop} {f : Nat → Nat}

theorem sortOps_sorted (hR : Function.Injective R.iexpr) {ops : List IExpr}
    (h : ops.Pairwise fun a b => R.iexpr a ≤ R.iexpr b) : sortOps R ops = ops :=
  List.Perm.eq_of_pairwise (fun _ _ _ _ h1 h2 => hR (le_antisymm h1 h2))
    (List.pairwise_insertionSort _ _) h (sortOps_perm R ops)

theorem sortBools_sorted (hB : Function.Injective R.bexpr) {ops : List BExpr}
    (h : ops.Pairwise fun a b => R.bexpr a ≤ R.bexpr b) : sortBools R ops = ops :=
  List.Perm.eq_of_pairwise (fun _ _ _ _ h1 h2 => hB (le_antisymm h1 h2))
    (List.pairwise_insertionSort _ _) h (sortBools_perm R ops)

theorem orderCmp_ordered {k : CmpOp} {l r : IExpr}
    (h : k = .eq ∨ k = .neq → R.iexpr l ≤ R.iexpr r) : orderCmp R k l r = .cmp k l r :=
  if_neg fun hk => not_lt.mpr (h hk.1) hk.2

theorem within_array {cells : List Nat} {index : IExpr} {P Q : Nat → Prop}
    (h : (IExpr.array cells index).Within P Q) : (∀ p ∈ cells, Q p) ∧ index.Within P Q :=
  ⟨fun p hp => h.cells p (List.mem_append_left _ hp),
    fun p hp => h.scalars p hp, fun p hp => h.cells p (List.mem_append_right _ hp)⟩

variable {W : Nat → Prop}

mutual

theorem moved_self (hR : Function.Injective R.iexpr) (hB : Function.Injective R.bexpr)
    (hf : ∀ p, V p → f p = p) : (e : IExpr) → e.Held R W → e.Within V V → moved R f e = e
  | .undef, _, _ => rfl
  | .const _, _, _ => rfl
  | .var p, _, hw => congrArg IExpr.var (hf p (IExpr.within_var.mp hw))
  | .nary k ops, h, hw => by
    have hops := movedList_self hR hB hf ops h.1 (IExpr.within_nary.mp hw)
    rw [moved, movedList_eq, List.map_congr_left hops, List.map_id', sortOps_sorted hR h.2.2.2.2]
  | .binary k a b, h, hw => by
    obtain ⟨ha, hb⟩ := hw.of_binary
    rw [moved, moved_self hR hB hf a h.1 ha, moved_self hR hB hf b h.2.1 hb]
  | .bitComp a, h, hw => by rw [moved, moved_self hR hB hf a h.1 ⟨hw.scalars, hw.cells⟩]
  | .array cells index, h, hw => by
    obtain ⟨hcells, hindex⟩ := within_array hw
    have hmap : cells.map f = cells :=
      (List.map_congr_left fun p hp => hf p (hcells p hp)).trans (List.map_id' cells)
    rw [moved, moved_self hR hB hf index h.1 hindex, hmap]
  | .wrapBool b, h, hw => by rw [moved, movedBool_self hR hB hf b h.1 ⟨hw.scalars, hw.cells⟩]

theorem movedList_self (hR : Function.Injective R.iexpr) (hB : Function.Injective R.bexpr)
    (hf : ∀ p, V p → f p = p) :
    (xs : List IExpr) → IExpr.HeldList R W xs → (∀ x ∈ xs, x.Within V V) → ∀ x ∈ xs, moved R f x = x
  | [], _, _ => by simp
  | x :: xs, h, hw => by
    obtain ⟨hx, hxs⟩ := List.forall_mem_cons.mp hw
    exact List.forall_mem_cons.mpr ⟨moved_self hR hB hf x h.1 hx,
      movedList_self hR hB hf xs h.2 hxs⟩

theorem movedBool_self (hR : Function.Injective R.iexpr) (hB : Function.Injective R.bexpr)
    (hf : ∀ p, V p → f p = p) : (b : BExpr) → b.Held R W → b.Within V V → movedBool R f b = b
  | .bfalse, _, _ => rfl
  | .btrue, _, _ => rfl
  | .bundef, _, _ => rfl
  | .cmp k l r, h, hw => by
    obtain ⟨hl, hr⟩ := BExpr.within_cmp.mp hw
    rw [movedBool, moved_self hR hB hf l h.1 hl, moved_self hR hB hf r h.2.1 hr,
      orderCmp_ordered h.2.2.2.2.2]
  | .conn k ops, h, hw => by
    have hops := movedBoolList_self hR hB hf ops h.1 (BExpr.within_conn.mp hw)
    rw [movedBool, movedBoolList_eq, List.map_congr_left hops, List.map_id',
      sortBools_sorted hB h.2.2.2.2]
  | .neg a, h, hw => by rw [movedBool, movedBool_self hR hB hf a h.1 (BExpr.within_neg.mp hw)]

theorem movedBoolList_self (hR : Function.Injective R.iexpr) (hB : Function.Injective R.bexpr)
    (hf : ∀ p, V p → f p = p) :
    (xs : List BExpr) → BExpr.HeldList R W xs → (∀ x ∈ xs, x.Within V V) →
      ∀ x ∈ xs, movedBool R f x = x
  | [], _, _ => by simp
  | x :: xs, h, hw => by
    obtain ⟨hx, hxs⟩ := List.forall_mem_cons.mp hw
    exact List.forall_mem_cons.mpr ⟨movedBool_self hR hB hf x h.1 hx,
      movedBoolList_self hR hB hf xs h.2 hxs⟩

end

end Self

/-! ## Nothing folds -/

section Nodes

variable {R : ExprIds}

theorem binary_open {k : BinOp} {a b : IExpr} (ha : a ≠ .undef) (hb : b ≠ .undef)
    (hv : ¬(isValue a ∧ isValue b)) : binary k a b = .ok (.binary k a b) := by
  unfold binary
  split
  · exact absurd rfl ha
  · exact absurd rfl hb
  · exact absurd ⟨rfl, rfl⟩ hv
  · rfl

theorem bitComp_open {a : IExpr} (ha : immediate a = false) : bitComp a = .bitComp a := by
  cases a <;> first | rfl | cases ha

theorem array_open {cells : List Nat} {index : IExpr} (hi : immediate index = false) :
    array cells index = .array cells index := by
  cases index <;> first | rfl | cases hi

theorem wrap_open {b : BExpr} (hb : immediateBool b = false) : wrap b = .wrapBool b := by
  cases b <;> first | rfl | cases hb

section Nary

variable {k : NaryOp}

theorem gatherOps_cons_part {x : IExpr} (hx : IsPart k x) (xs : List IExpr) (acc : Int)
    (flat : List IExpr) : gatherOps k (x :: xs) acc flat = gatherOps k xs acc (flat ++ [x]) := by
  cases x with
  | undef => cases hx.open_
  | const v => cases hx.open_
  | nary k' ops => exact if_neg (of_decide_eq_false hx.kind)
  | _ => rfl

theorem gatherOps_open_ops : ∀ {ops : List IExpr} (acc : Int) (flat : List IExpr),
    (∀ x ∈ ops, HeldOp k x) → ops.countP isValue = 0 →
    gatherOps k ops acc flat = .ok (some (acc, flat ++ ops)) := by
  intro ops
  induction ops with
  | nil =>
    intro acc flat _ _
    rw [List.append_nil]
    rfl
  | cons x ops ih =>
    intro acc flat h hc
    obtain ⟨hx, hops⟩ := List.forall_mem_cons.mp h
    rcases hx.cases with ⟨c, rfl, -⟩ | hp
    · rw [List.countP_cons_of_pos rfl] at hc
      exact absurd hc (Nat.succ_ne_zero _)
    · rw [List.countP_cons_of_neg (by rw [hp.isValue]; exact Bool.false_ne_true)] at hc
      rw [gatherOps_cons_part hp, ih acc _ hops hc, List.append_assoc]
      rfl

theorem accumulate_neutral {c : Int} (hc : InInt32 c) : k.accumulate k.neutral c = .ok c := by
  have hfits : fitsInt64 c = true := by
    rw [fitsInt64_iff]
    unfold InInt32 at hc
    omega
  cases k with
  | plus => exact congrArg Except.ok (Int.zero_add c)
  | mult =>
    show checked64 (1 * c) = .ok c
    rw [Int.one_mul, checked64_of_fits hfits]

theorem neutral_inInt32 (k : NaryOp) : InInt32 k.neutral := by
  cases k <;> exact ⟨by decide, by decide⟩

/-- The operands of a held sum or product are gathered as they stand. -/
theorem gatherOps_held : ∀ {ops : List IExpr} (flat : List IExpr), (∀ x ∈ ops, HeldOp k x) →
    ops.countP isValue ≤ 1 → (∀ c, .const c ∈ ops → InInt32 c) →
    gatherOps k ops k.neutral flat = .ok (some (constOps k ops, flat ++ openOps ops)) ∧
      InInt32 (constOps k ops) := by
  intro ops
  induction ops with
  | nil =>
    intro flat _ _ _
    exact ⟨by rw [openOps, List.filter_nil, List.append_nil]; rfl, neutral_inInt32 k⟩
  | cons x ops ih =>
    intro flat h hc hn
    obtain ⟨hx, hops⟩ := List.forall_mem_cons.mp h
    rcases hx.cases with ⟨c, rfl, -⟩ | hp
    · have hcount : ops.countP isValue = 0 := by
        rw [List.countP_cons_of_pos rfl] at hc
        omega
      have hopen : ∀ y ∈ ops, isValue y = false := by
        intro y hy
        simpa using List.countP_eq_zero.mp hcount y hy
      have hcint := hn c List.mem_cons_self
      have hconst : constOps k (.const c :: ops) = c := by
        rw [constOps, constOps_of_open hopen, k.eval_neutral]
      have hops' : openOps (.const c :: ops) = ops := by
        rw [openOps, List.filter_cons_of_neg (by simp [isValue])]
        exact openOps_of_open hopen
      rw [hconst, hops']
      refine ⟨?_, hcint⟩
      show (k.accumulate k.neutral c >>= fun acc => gatherOps k ops acc flat) = _
      rw [accumulate_neutral hcint]
      exact gatherOps_open_ops c flat hops hcount
    · have hv := hp.isValue
      rw [List.countP_cons_of_neg (by rw [hv]; exact Bool.false_ne_true)] at hc
      obtain ⟨h1, h2⟩ := ih (flat ++ [x]) hops hc fun c hc => hn c (List.mem_cons_of_mem _ hc)
      have hops' : openOps (x :: ops) = x :: openOps ops :=
        List.filter_cons_of_pos (by rw [hv]; rfl)
      rw [constOps_cons_open hv, hops', gatherOps_cons_part hp, h1, List.append_assoc]
      exact ⟨rfl, h2⟩

theorem packOps_perm (hR : Function.Injective R.iexpr) {xs ops : List IExpr} (h : xs.Perm ops)
    (hlen : 2 ≤ ops.length) : packOps R k xs = .nary k (sortOps R ops) := by
  match xs with
  | [] =>
    rw [← h.length_eq] at hlen
    exact absurd hlen (by simp)
  | [x] =>
    rw [← h.length_eq] at hlen
    exact absurd hlen (by simp)
  | x :: y :: ys => exact congrArg (IExpr.nary k) (sortOps_congr hR h)

/-- A sum or a product of operands that stand in one is their node. -/
theorem nary_open (hR : Function.Injective R.iexpr) {ops : List IExpr}
    (hops : ∀ x ∈ ops, HeldOp k x) (hlen : 2 ≤ ops.length) (hcount : ops.countP isValue ≤ 1)
    (hn : ∀ c, .const c ∈ ops → InInt32 c) : nary R k ops = .ok (.nary k (sortOps R ops)) := by
  obtain ⟨hg, hc⟩ := gatherOps_held [] hops hcount hn
  have hzero : ¬(k = .mult ∧ constOps k ops = 0) := by
    rintro ⟨rfl, h0⟩
    exact constOps_ne_zero (fun c hc => ((hops _ hc).2.2 c rfl).2 rfl) h0
  have hperm := (ops_perm hlen hcount hops).symm
  unfold nary
  rw [hg]
  simp only [List.nil_append, bind, Except.bind, if_neg hzero]
  rw [narrow, if_pos hc]
  exact congrArg Except.ok (packOps_perm hR hperm hlen)

end Nary

section Conn

variable {k : ConnOp}

theorem flattenConn_open : ∀ {ops : List BExpr},
    (∀ x ∈ ops, x ≠ k.neutral ∧ x ≠ k.absorbing ∧ ∀ xs, x ≠ .conn k xs) →
    flattenConn k ops = ops := by
  intro ops
  induction ops with
  | nil => intro _; rfl
  | cons x ops ih =>
    intro h
    obtain ⟨⟨hn, -, hflat⟩, hops⟩ := List.forall_mem_cons.mp h
    have ih := ih hops
    cases x with
    | conn k' xs =>
      have hk : k' ≠ k := fun hk => hflat xs (by rw [hk])
      rw [flattenConn, if_neg hk, ih]
    | _ =>
      rw [flattenConn, if_neg hn, ih]
      exact fun _ _ h => by cases h

/-- A connective of operands that stand in one is their node. -/
theorem conn_open {ops : List BExpr}
    (hops : ∀ x ∈ ops, x ≠ k.neutral ∧ x ≠ k.absorbing ∧ ∀ xs, x ≠ .conn k xs)
    (hnd : ops.Nodup) (hlen : 2 ≤ ops.length) :
    conn R k ops = .conn k (sortBools R ops) := by
  have ha : k.absorbing ∉ ops := fun h => (hops _ h).2.1 rfl
  rw [conn, if_neg ha, flattenConn_open hops, hnd.dedup]
  rw [← (sortBools_perm R ops).length_eq] at hlen
  match sortBools R ops, hlen with
  | x :: y :: ys, _ => rfl

end Conn

end Nodes

/-! ## The walk moves -/

section Walk

variable {R : ExprIds} {W : Nat → Prop}

/-- A position the shift keeps. -/
def Stays (d : Int) (p : Nat) : Prop := 0 ≤ (p : Int) + d

theorem shiftPos_back {d : Int} {p : Nat} (h : Stays d p) : shiftPos (-d) (shiftPos d p) = p := by
  unfold Stays at h
  unfold shiftPos
  omega

theorem shifting_open {d : Int} {e : IExpr} (h : ∀ p, e ≠ .var p) : shifting d e = none := by
  cases e with
  | var p => exact absurd rfl (h p)
  | _ => rfl

variable {d : Int}

/-- A shift keeps different expressions different. -/
theorem moved_inj (hR : Function.Injective R.iexpr) (hB : Function.Injective R.bexpr)
    {l r : IExpr} (hl : l.Held R W) (hr : r.Held R W)
    (hwl : l.Within (Stays d) (Stays d)) (hwr : r.Within (Stays d) (Stays d))
    (h : moved R (shiftPos d) l = moved R (shiftPos d) r) : l = r := by
  have hback : ∀ p, Stays d p → (shiftPos (-d) ∘ shiftPos d) p = p := fun p hp => shiftPos_back hp
  have hcong := congrArg (moved R (shiftPos (-d))) h
  rwa [moved_moved hR hB, moved_moved hR hB, moved_self hR hB hback l hl hwl,
    moved_self hR hB hback r hr hwr] at hcong

theorem movedBool_inj (hR : Function.Injective R.iexpr) (hB : Function.Injective R.bexpr)
    {l r : BExpr} (hl : l.Held R W) (hr : r.Held R W)
    (hwl : l.Within (Stays d) (Stays d)) (hwr : r.Within (Stays d) (Stays d))
    (h : movedBool R (shiftPos d) l = movedBool R (shiftPos d) r) : l = r := by
  have hback : ∀ p, Stays d p → (shiftPos (-d) ∘ shiftPos d) p = p := fun p hp => shiftPos_back hp
  have hcong := congrArg (movedBool R (shiftPos (-d))) h
  rwa [movedBool_moved hR hB, movedBool_moved hR hB, movedBool_self hR hB hback l hl hwl,
    movedBool_self hR hB hback r hr hwr] at hcong

theorem moved_ops_count {ops : List IExpr} :
    (ops.map (moved R (shiftPos d))).countP isValue = ops.countP isValue := by
  rw [List.countP_map]
  exact List.countP_congr fun x _ => by rw [Function.comp_apply, moved_isValue]

mutual

/-- The walk of a shift renames, and nothing folds. -/
theorem rebuild_moved (hR : Function.Injective R.iexpr) (hB : Function.Injective R.bexpr) :
    (e : IExpr) → e.Normal → e.Held R W → e.Distinct →
    e.Within (Stays d) (Stays d) →
    rebuild R (shifting d) (shiftPos d) e = .ok (moved R (shiftPos d) e)
  | .undef, _, _, _, _ => by rw [rebuild, shifting_open (by simp)]; rfl
  | .const v, _, _, _, _ => by rw [rebuild, shifting_open (by simp)]; rfl
  | .var p, _, _, _, _ => by rw [rebuild]; rfl
  | .nary k ops, hn, hh, hd, hw => by
    have hlist := rebuildList_moved hR hB ops hn.1 hh.1 hd (IExpr.within_nary.mp hw)
    rw [rebuild, shifting_open (by simp)]
    simp only [hlist, bind, Except.bind]
    rw [moved, movedList_eq]
    refine nary_open hR ?_ (by rw [List.length_map]; exact hh.2.1)
      (by rw [moved_ops_count]; exact hh.2.2.1) ?_
    · intro y hy
      obtain ⟨x, hx, rfl⟩ := List.mem_map.mp hy
      exact moved_heldOp (hh.2.2.2.1 x hx)
    · intro c hc
      obtain ⟨x, hx, hxc⟩ := List.mem_map.mp hc
      have hxn := normalList_iff.mp hn.1 x hx
      rw [moved_eq_const.mp hxc] at hxn
      exact hxn
  | .binary k a b, hn, hh, hd, hw => by
    obtain ⟨hwa, hwb⟩ := hw.of_binary
    obtain ⟨ha, hb, hau, hbu, hv⟩ := hh
    rw [rebuild, shifting_open (by simp)]
    simp only [rebuild_moved hR hB a hn.1 ha hd.1 hwa, rebuild_moved hR hB b hn.2.1 hb hd.2 hwb,
      bind, Except.bind]
    refine binary_open (fun h => hau (moved_eq_undef.mp h)) (fun h => hbu (moved_eq_undef.mp h)) ?_
    rw [moved_isValue, moved_isValue]
    exact hv
  | .bitComp a, hn, hh, hd, hw => by
    rw [rebuild, shifting_open (by simp)]
    simp only [rebuild_moved hR hB a hn.1 hh.1 hd ⟨hw.scalars, hw.cells⟩, bind, Except.bind]
    exact congrArg Except.ok (bitComp_open ((moved_immediate a).trans hh.2))
  | .array cells index, hn, hh, hd, hw => by
    rw [rebuild, shifting_open (by simp)]
    simp only [rebuild_moved hR hB index hn.1 hh.1 hd (within_array hw).2, bind, Except.bind]
    exact congrArg Except.ok (array_open ((moved_immediate index).trans hh.2))
  | .wrapBool b, hn, hh, hd, hw => by
    rw [rebuild, shifting_open (by simp)]
    simp only [rebuildBool_moved hR hB b hn.1 hh.1 hd ⟨hw.scalars, hw.cells⟩, bind, Except.bind]
    exact congrArg Except.ok (wrap_open ((movedBool_immediate b).trans hh.2))

theorem rebuildList_moved (hR : Function.Injective R.iexpr) (hB : Function.Injective R.bexpr) :
    (xs : List IExpr) → IExpr.NormalList xs → IExpr.HeldList R W xs →
    IExpr.DistinctList xs → (∀ x ∈ xs, x.Within (Stays d) (Stays d)) →
    rebuildList R (shifting d) (shiftPos d) xs = .ok (movedList R (shiftPos d) xs)
  | [], _, _, _, _ => rfl
  | x :: xs, hn, hh, hd, hw => by
    obtain ⟨hx, hxs⟩ := List.forall_mem_cons.mp hw
    rw [rebuildList, rebuild_moved hR hB x hn.1 hh.1 hd.1 hx,
      rebuildList_moved hR hB xs hn.2 hh.2 hd.2 hxs]
    rfl

theorem rebuildBool_moved (hR : Function.Injective R.iexpr) (hB : Function.Injective R.bexpr) :
    (b : BExpr) → b.Normal → b.Held R W → b.Distinct →
    b.Within (Stays d) (Stays d) →
    rebuildBool R (shifting d) (shiftPos d) b = .ok (movedBool R (shiftPos d) b)
  | .bfalse, _, _, _, _ => rfl
  | .btrue, _, _, _, _ => rfl
  | .bundef, _, _, _, _ => rfl
  | .cmp k l r, hn, hh, hd, hw => by
    obtain ⟨hwl, hwr⟩ := BExpr.within_cmp.mp hw
    obtain ⟨hl, hr, hlu, hru, hv, -⟩ := hh
    rw [rebuildBool, rebuild_moved hR hB l hn.1 hl hd.1 hwl,
      rebuild_moved hR hB r hn.2.1 hr hd.2.1 hwr]
    refine congrArg Except.ok (compare_open (fun h => hlu (moved_eq_undef.mp h))
      (fun h => hru (moved_eq_undef.mp h)) ?_ fun h => ?_)
    · rw [moved_isValue, moved_isValue]
      exact hv
    · exact hd.2.2 (moved_inj hR hB hl hr hwl hwr h)
  | .conn k ops, hn, hh, hd, hw => by
    have hwops := BExpr.within_conn.mp hw
    rw [rebuildBool, rebuildBoolList_moved hR hB ops hn.1 hh.1 hd.1 hwops, movedBool,
      movedBoolList_eq]
    refine congrArg Except.ok (conn_open ?_ ?_ (by rw [List.length_map]; exact hh.2.1))
    · intro y hy
      obtain ⟨x, hx, rfl⟩ := List.mem_map.mp hy
      exact movedBool_arm (hh.2.2.2.1 x hx)
    · refine hd.2.map_on fun x hx y hy h => ?_
      exact movedBool_inj hR hB (heldBoolList_iff.mp hh.1 x hx) (heldBoolList_iff.mp hh.1 y hy)
        (hwops x hx) (hwops y hy) h
  | .neg a, hn, hh, hd, hw => by
    rw [rebuildBool, rebuildBool_moved hR hB a hn.1 hh.1 hd (BExpr.within_neg.mp hw)]
    have hconn := hh.2
    cases a with
    | conn k ops => rfl
    | _ => cases hconn

theorem rebuildBoolList_moved (hR : Function.Injective R.iexpr) (hB : Function.Injective R.bexpr) :
    (xs : List BExpr) → BExpr.NormalList xs → BExpr.HeldList R W xs → BExpr.DistinctList xs →
    (∀ x ∈ xs, x.Within (Stays d) (Stays d)) →
    rebuildBoolList R (shifting d) (shiftPos d) xs = .ok (movedBoolList R (shiftPos d) xs)
  | [], _, _, _, _ => rfl
  | x :: xs, hn, hh, hd, hw => by
    obtain ⟨hx, hxs⟩ := List.forall_mem_cons.mp hw
    rw [rebuildBoolList, rebuildBool_moved hR hB x hn.1 hh.1 hd.1 hx,
      rebuildBoolList_moved hR hB xs hn.2 hh.2 hd.2 hxs]
    rfl

end

end Walk

/-! ## The value -/

section Value

variable {R : ExprIds} {f : Nat → Nat} {ρ ρ' : Reading}

mutual

/-- A renamed expression has the value of the expression where the positions do. -/
theorem moved_exact : (e : IExpr) → collectArrays e = [] →
    (∀ p ∈ collect e, ρ'.pos (f p) = ρ.pos p) → ρ'.access [] = ρ.access [] →
    exactInt ρ' (moved R f e) = exactInt ρ e
  | .undef, _, _, _ => rfl
  | .const _, _, _, _ => rfl
  | .var p, _, h, _ => h p (List.mem_singleton.mpr rfl)
  | .nary k ops, hc, h, ha => by
    rw [moved, exactInt, exactInt, exactNary_perm (sortOps_perm R _)]
    exact movedList_exact k ops hc h ha
  | .binary k a b, hc, h, ha => by
    obtain ⟨hca, hcb⟩ := List.append_eq_nil_iff.mp hc
    rw [moved, exactInt, exactInt,
      moved_exact a hca (fun p hp => h p (List.mem_append_left _ hp)) ha,
      moved_exact b hcb (fun p hp => h p (List.mem_append_right _ hp)) ha]
  | .bitComp a, hc, h, ha => by rw [moved, exactInt, exactInt, moved_exact a hc h ha]
  | .array cells index, hc, h, ha => by
    obtain ⟨rfl, hci⟩ := List.append_eq_nil_iff.mp hc
    rw [moved, exactInt, exactInt, moved_exact index hci h ha, List.map_nil, ha]
  | .wrapBool b, hc, h, ha => by rw [moved, exactInt, exactInt, movedBool_exact b hc h ha]

theorem movedList_exact (k : NaryOp) : (xs : List IExpr) → collectArraysList xs = [] →
    (∀ p ∈ collectList xs, ρ'.pos (f p) = ρ.pos p) → ρ'.access [] = ρ.access [] →
    exactNary ρ' k (movedList R f xs) = exactNary ρ k xs
  | [], _, _, _ => rfl
  | x :: xs, hc, h, ha => by
    obtain ⟨hcx, hcxs⟩ := List.append_eq_nil_iff.mp hc
    rw [movedList, exactNary, exactNary,
      moved_exact x hcx (fun p hp => h p (List.mem_append_left _ hp)) ha,
      movedList_exact k xs hcxs (fun p hp => h p (List.mem_append_right _ hp)) ha]

theorem movedBool_exact : (b : BExpr) → collectArraysBool b = [] →
    (∀ p ∈ collectBool b, ρ'.pos (f p) = ρ.pos p) → ρ'.access [] = ρ.access [] →
    exactBool ρ' (movedBool R f b) = exactBool ρ b
  | .bfalse, _, _, _ => rfl
  | .btrue, _, _, _ => rfl
  | .bundef, _, _, _ => rfl
  | .cmp k l r, hc, h, ha => by
    obtain ⟨hcl, hcr⟩ := List.append_eq_nil_iff.mp hc
    rw [movedBool, exactBool_orderCmp, exactBool,
      moved_exact l hcl (fun p hp => h p (List.mem_append_left _ hp)) ha,
      moved_exact r hcr (fun p hp => h p (List.mem_append_right _ hp)) ha]
  | .conn k ops, hc, h, ha => by
    rw [movedBool, exactBool, exactBool, exactConn_perm (sortBools_perm R _)]
    exact movedBoolList_exact k ops hc h ha
  | .neg a, hc, h, ha => by rw [movedBool, exactBool, exactBool, movedBool_exact a hc h ha]

theorem movedBoolList_exact (k : ConnOp) : (xs : List BExpr) → collectArraysBoolList xs = [] →
    (∀ p ∈ collectBoolList xs, ρ'.pos (f p) = ρ.pos p) → ρ'.access [] = ρ.access [] →
    exactConn ρ' k (movedBoolList R f xs) = exactConn ρ k xs
  | [], _, _, _ => rfl
  | x :: xs, hc, h, ha => by
    obtain ⟨hcx, hcxs⟩ := List.append_eq_nil_iff.mp hc
    rw [movedBoolList, exactConn, exactConn,
      movedBool_exact x hcx (fun p hp => h p (List.mem_append_left _ hp)) ha,
      movedBoolList_exact k xs hcxs (fun p hp => h p (List.mem_append_right _ hp)) ha]

end

end Value

/-! ## The law of re-rooting -/

section Law

/-- The values at the positions `ps`, `d` further on. -/
def ShiftedEnv (d : Int) (ps : List Nat) (env env' : List Int) : Prop :=
  ∀ p ∈ ps, ∃ v, env[p]? = some v ∧ env'[shiftPos d p]? = some v

variable {R : ExprIds} (hR : Function.Injective R.iexpr) (hB : Function.Injective R.bexpr)
  {d : Int}

include hR hB

theorem shiftPositions_moved {e : IExpr} (he : Built R e) (harr : collectArrays e = [])
    (hd : ∀ p ∈ collect e, 0 ≤ (p : Int) + d) :
    shiftPositions R e d = .ok (moved R (shiftPos d) e) := by
  have hw : e.Within (Stays d) (Stays d) :=
    ⟨hd, fun p hp => absurd (harr ▸ hp) List.not_mem_nil⟩
  unfold shiftPositions
  split
  · next h0 =>
    exact congrArg Except.ok (moved_self hR hB (fun p _ => shiftPos_zero h0 p) e he.held.1 hw).symm
  · exact rebuild_moved hR hB e he.normal he.held.1 he.held.2 hw

theorem shiftPositionsBool_moved {b : BExpr} (hb : BuiltBool R b)
    (harr : collectArraysBool b = []) (hd : ∀ p ∈ collectBool b, 0 ≤ (p : Int) + d) :
    shiftPositionsBool R b d = .ok (movedBool R (shiftPos d) b) := by
  have hw : b.Within (Stays d) (Stays d) :=
    ⟨hd, fun p hp => absurd (harr ▸ hp) List.not_mem_nil⟩
  unfold shiftPositionsBool
  split
  · next h0 =>
    exact congrArg Except.ok
      (movedBool_self hR hB (fun p _ => shiftPos_zero h0 p) b hb.held.1 hw).symm
  · exact rebuildBool_moved hR hB b hb.normal hb.held.1 hb.held.2 hw

omit hR hB in
theorem ShiftedEnv.reading {ps : List Nat} {env env' : List Int} (h : ShiftedEnv d ps env env') :
    ∀ p ∈ ps, (Reading.ofEnv env').pos (shiftPos d p) = (Reading.ofEnv env).pos p := by
  intro p hp
  obtain ⟨v, hv, hv'⟩ := h p hp
  exact hv'.trans hv.symm

omit hR hB in
theorem ShiftedEnv.inside {ps : List Nat} {env env' : List Int} (h : ShiftedEnv d ps env env') :
    ∀ p ∈ ps, p < env.length ∧ shiftPos d p < env'.length := by
  intro p hp
  obtain ⟨v, hv, hv'⟩ := h p hp
  exact ⟨(List.getElem?_eq_some_iff.mp hv).1, (List.getElem?_eq_some_iff.mp hv').1⟩

/-- A shifted expression is returned, with the exact value of the expression, and
evaluates as it does. -/
theorem shiftPositions_evaluates {e : IExpr} (he : Built R e) (harr : collectArrays e = [])
    (hd : ∀ p ∈ collect e, 0 ≤ (p : Int) + d) :
    ∃ e', shiftPositions R e d = .ok e' ∧ ∀ env env', ShiftedEnv d (collect e) env env' →
      exactInt (.ofEnv env') e' = exactInt (.ofEnv env) e ∧
        SameUnlessStray (evalInt env' e') (evalInt env e) := by
  have hs := shiftPositions_moved hR hB he harr hd
  refine ⟨_, hs, fun env env' henv => ?_⟩
  have hexact := moved_exact (R := R) (f := shiftPos d) e harr henv.reading rfl
  have hin' : ∀ p ∈ collect (moved R (shiftPos d) e), p < env'.length := by
    have hw : e.Within (fun q => shiftPos d q < env'.length) (fun _ => False) :=
      ⟨fun p hp => (henv.inside p hp).2, fun p hp => absurd (harr ▸ hp) List.not_mem_nil⟩
    exact (shiftPositions_within hw (fun _ hq => hq) hs).scalars
  refine ⟨hexact, sameUnlessStray (x := exactInt (.ofEnv env) e) (fun y hy => ?_) (fun y hy => ?_)
    (evalInt_error _ hin') (evalInt_error e fun p hp => (henv.inside p hp).1)⟩
  · exact hexact.symm.trans (evalInt_exact _ y hy)
  · exact evalInt_exact e y hy

theorem shiftPositionsBool_evaluates {b : BExpr} (hb : BuiltBool R b)
    (harr : collectArraysBool b = []) (hd : ∀ p ∈ collectBool b, 0 ≤ (p : Int) + d) :
    ∃ b', shiftPositionsBool R b d = .ok b' ∧ ∀ env env', ShiftedEnv d (collectBool b) env env' →
      exactBool (.ofEnv env') b' = exactBool (.ofEnv env) b ∧
        SameUnlessStray (evalBool env' b') (evalBool env b) := by
  have hs := shiftPositionsBool_moved hR hB hb harr hd
  refine ⟨_, hs, fun env env' henv => ?_⟩
  have hexact := movedBool_exact (R := R) (f := shiftPos d) b harr henv.reading rfl
  have hin' : ∀ p ∈ collectBool (movedBool R (shiftPos d) b), p < env'.length := by
    have hw : b.Within (fun q => shiftPos d q < env'.length)
        (fun q => shiftPos d q < env'.length ∧ True) :=
      ⟨fun p hp => (henv.inside p hp).2, fun p hp => absurd (harr ▸ hp) List.not_mem_nil⟩
    exact (shiftPositionsBool_moves (Q := fun _ => True) hw hs).scalars
  refine ⟨hexact, sameUnlessStray (x := exactBool (.ofEnv env) b) (fun y hy => ?_)
    (fun y hy => ?_) (evalBool_error _ hin') (evalBool_error b fun p hp => (henv.inside p hp).1)⟩
  · exact hexact.symm.trans (evalBool_exact _ y hy)
  · exact evalBool_exact b y hy

omit hR hB in
/-- Evaluation depends on the values at the support alone, and a shifted expression
in the shifted environment has the same exact value and evaluates to the same
outcome unless one of the two evaluations leaves 64 bits. -/
theorem support_and_shift (R : ExprIds) (hR : Function.Injective R.iexpr)
    (hB : Function.Injective R.bexpr) :
    (∀ (e : IExpr) (env env' : List Int), (∀ p ∈ support e, env[p]? = env'[p]?) →
      evalInt env e = evalInt env' e) ∧
    (∀ (b : BExpr) (env env' : List Int), (∀ p ∈ supportBool b, env[p]? = env'[p]?) →
      evalBool env b = evalBool env' b) ∧
    (∀ (e : IExpr) (d : Int), Built R e → collectArrays e = [] →
      (∀ p ∈ support e, 0 ≤ (p : Int) + d) →
      ∃ e', shiftPositions R e d = .ok e' ∧ ∀ env env', ShiftedEnv d (support e) env env' →
        exactInt (.ofEnv env') e' = exactInt (.ofEnv env) e ∧
          SameUnlessStray (evalInt env' e') (evalInt env e)) ∧
    (∀ (b : BExpr) (d : Int), BuiltBool R b → collectArraysBool b = [] →
      (∀ p ∈ supportBool b, 0 ≤ (p : Int) + d) →
      ∃ b', shiftPositionsBool R b d = .ok b' ∧ ∀ env env', ShiftedEnv d (supportBool b) env env' →
          exactBool (.ofEnv env') b' = exactBool (.ofEnv env) b ∧
            SameUnlessStray (evalBool env' b') (evalBool env b)) := by
  refine ⟨fun e env env' h => evalInt_congr e fun p hp => h p (mem_support.mpr hp),
    fun b env env' h => evalBool_congr b fun p hp => h p (mem_supportBool.mpr hp),
    fun e d he harr hd => ?_, fun b d hb harr hd => ?_⟩
  · obtain ⟨e', hs, h⟩ := shiftPositions_evaluates hR hB he harr
      fun p hp => hd p (mem_support.mpr hp)
    exact ⟨e', hs, fun env env' henv => h env env' fun p hp => henv p (mem_support.mpr hp)⟩
  · obtain ⟨b', hs, h⟩ := shiftPositionsBool_evaluates hR hB hb harr
      fun p hp => hd p (mem_supportBool.mpr hp)
    exact ⟨b', hs, fun env env' henv => h env env' fun p hp => henv p (mem_supportBool.mpr hp)⟩

end Law

/-! ## Operands in another order -/

section Order

/-- The ids of a run that came to position 3 before any other. -/
def thirdFirst : ExprIds := ⟨fun e => if e = .var 3 then 0 else number e + 1, numberBool⟩

theorem thirdFirst_iexpr : Function.Injective thirdFirst.iexpr := by
  intro a b h
  simp only [thirdFirst] at h
  split at h
  · next ha =>
    split at h
    · next hb => exact ha.trans hb.symm
    · exact absurd h.symm (Nat.succ_ne_zero _)
  · split at h
    · exact absurd h (Nat.succ_ne_zero _)
    · exact number_inj a b (Nat.succ.inj h)

theorem thirdFirst_bexpr : Function.Injective thirdFirst.bexpr := fun a b h => numberBool_inj a b h

/-- The product of four positions, the last one first. -/
def fourFactors : IExpr := .nary .mult [.var 3, .var 0, .var 1, .var 2]

theorem fourFactors_built : Built thirdFirst fourFactors := by
  have hmade : nary thirdFirst .mult [.var 0, .var 1, .var 2, .var 3] = .ok fourFactors := by
    decide +kernel
  refine .nary (fun x hx => ?_) hmade
  simp only [List.mem_cons, List.not_mem_nil, or_false] at hx
  rcases hx with rfl | rfl | rfl | rfl <;> exact .var _

theorem support_fourFactors : support fourFactors = [0, 1, 2, 3] := by decide +kernel

/-- The positions of the product, one further on. -/
theorem fourFactors_shifted {a b c d : Int} :
    ShiftedEnv 1 (support fourFactors) [a, b, c, d] [5, a, b, c, d] := by
  rw [support_fourFactors]
  intro p hp
  simp only [List.mem_cons, List.not_mem_nil, or_false] at hp
  rcases hp with rfl | rfl | rfl | rfl <;> exact ⟨_, rfl, rfl⟩

/-- The product of 1, 2, 3 and 4, and whether its positions 0 and 3 are equal. -/
theorem support_and_shift_product :
    evalInt [1, 2, 3, 4] fourFactors = evalInt [1, 2, 3, 4, 9] fourFactors ∧
    (∃ e', shiftPositions thirdFirst fourFactors 1 = .ok e' ∧
      SameUnlessStray (evalInt [5, 1, 2, 3, 4] e') (evalInt [1, 2, 3, 4] fourFactors)) ∧
    ∃ b', shiftPositionsBool thirdFirst (compare thirdFirst .eq (.var 0) (.var 3)) 1 = .ok b' ∧
      SameUnlessStray (evalBool [5, 1, 2, 3, 4] b')
        (evalBool [1, 2, 3, 4] (compare thirdFirst .eq (.var 0) (.var 3))) := by
  obtain ⟨hsup, -, hint, hbool⟩ := support_and_shift thirdFirst thirdFirst_iexpr thirdFirst_bexpr
  have hsupport : supportBool (compare thirdFirst .eq (.var 0) (.var 3)) = [0, 3] := by
    decide +kernel
  refine ⟨hsup _ _ _ ?_, ?_, ?_⟩
  · rw [support_fourFactors]
    decide
  · obtain ⟨e', hs, h⟩ := hint fourFactors 1 fourFactors_built rfl (by
      rw [support_fourFactors]
      decide)
    exact ⟨e', hs, (h _ _ fourFactors_shifted).2⟩
  · obtain ⟨b', hs, h⟩ := hbool _ 1 (.compare .eq (.var 0) (.var 3)) (by decide +kernel) (by
      rw [hsupport]
      decide)
    refine ⟨b', hs, (h _ _ ?_).2⟩
    rw [hsupport]
    intro p hp
    simp only [List.mem_cons, List.not_mem_nil, or_false] at hp
    rcases hp with rfl | rfl <;> exact ⟨_, rfl, rfl⟩

/-- With a zero at position 3 and the largest value elsewhere the product is zero:
the zero is read first. Shifted by one the same product reads it last, and the
three others left 64 bits before. -/
theorem shift_reorders :
    Function.Injective thirdFirst.iexpr ∧ Function.Injective thirdFirst.bexpr ∧
    Built thirdFirst fourFactors ∧ collectArrays fourFactors = [] ∧
    ShiftedEnv 1 (support fourFactors) [2147483647, 2147483647, 2147483647, 0]
      [5, 2147483647, 2147483647, 2147483647, 0] ∧
    shiftPositions thirdFirst fourFactors 1 = .ok (.nary .mult [.var 3, .var 1, .var 2, .var 4]) ∧
    evalInt [2147483647, 2147483647, 2147483647, 0] fourFactors = .ok (some 0) ∧
    evalInt [5, 2147483647, 2147483647, 2147483647, 0]
      (.nary .mult [.var 3, .var 1, .var 2, .var 4]) = .error .overflow := by
  exact ⟨thirdFirst_iexpr, thirdFirst_bexpr, fourFactors_built, rfl, fourFactors_shifted,
    by decide +kernel, by decide +kernel, by decide +kernel⟩

end Order

end LibHSC.Lia
