import LibHSC.Lia.Normal
import LibHSC.Lia.Exact
import Mathlib.Data.List.Perm.Basic

/-!
Sums and products as a constant and the operands that are none, put in one order by the
ids of the table.

`Held` is what the constructors leave of an expression: flat sums and products
without a neutral constant, operands in the order of their ids. `Distinct` is
what reflexivity and the merging of equal operands leave.
-/

namespace LibHSC.Lia

/-- The operands that are no constants. -/
def openOps (ops : List IExpr) : List IExpr := ops.filter fun x => !isValue x

/-- The constants among the operands, merged. -/
def constOps (k : NaryOp) : List IExpr → Int
  | [] => k.neutral
  | .const v :: xs => k.eval v (constOps k xs)
  | _ :: xs => constOps k xs

/-- The expression with this constant and these parts. -/
def pack (R : ExprIds) (k : NaryOp) (c : Int) (flat : List IExpr) : IExpr :=
  packOps R k (withConst k c flat)

/-! ## Constants of operands -/

section Ops

variable {k : NaryOp}

theorem constOps_cons_open {x : IExpr} {xs : List IExpr} (hx : isValue x = false) :
    constOps k (x :: xs) = constOps k xs := by
  cases x with
  | const v => cases hx
  | _ => rfl

theorem constOps_perm {xs ys : List IExpr} (h : xs.Perm ys) : constOps k xs = constOps k ys := by
  induction h with
  | nil => rfl
  | cons x _ ih =>
    cases hx : isValue x with
    | false => rw [constOps_cons_open hx, constOps_cons_open hx, ih]
    | true =>
      cases x with
      | const v => exact congrArg (k.eval v) ih
      | _ => cases hx
  | swap x y xs =>
    cases hx : isValue x with
    | false =>
      cases hy : isValue y with
      | false => simp only [constOps_cons_open hx, constOps_cons_open hy]
      | true =>
        cases y with
        | const v => simp only [constOps, constOps_cons_open hx]
        | _ => cases hy
    | true =>
      cases x with
      | const v =>
        cases hy : isValue y with
        | false => simp only [constOps, constOps_cons_open hy]
        | true =>
          cases y with
          | const w =>
            simp only [constOps]
            rw [← k.eval_assoc, k.eval_comm w v, k.eval_assoc]
          | _ => cases hy
      | _ => cases hx
  | trans _ _ h1 h2 => exact h1.trans h2

theorem constOps_append (xs ys : List IExpr) :
    constOps k (xs ++ ys) = k.eval (constOps k xs) (constOps k ys) := by
  induction xs with
  | nil => exact (k.neutral_eval _).symm
  | cons x xs ih =>
    cases hx : isValue x with
    | false =>
      rw [List.cons_append, constOps_cons_open hx, constOps_cons_open hx, ih]
    | true =>
      cases x with
      | const v =>
        simp only [List.cons_append, constOps, ih]
        exact (k.eval_assoc _ _ _).symm
      | _ => cases hx

theorem constOps_of_open {xs : List IExpr} (h : ∀ x ∈ xs, isValue x = false) :
    constOps k xs = k.neutral := by
  induction xs with
  | nil => rfl
  | cons x xs ih =>
    obtain ⟨hx, hxs⟩ := List.forall_mem_cons.mp h
    rw [constOps_cons_open hx, ih hxs]

theorem openOps_of_open {xs : List IExpr} (h : ∀ x ∈ xs, isValue x = false) :
    openOps xs = xs := by
  unfold openOps
  rw [List.filter_eq_self]
  intro x hx
  rw [h x hx]
  rfl

end Ops

/-! ## Packing and unpacking -/

section Pack

variable {R : ExprIds} {k : NaryOp}

theorem openOps_withConst {c : Int} {flat : List IExpr} (h : ∀ x ∈ flat, isValue x = false) :
    openOps (withConst k c flat) = flat := by
  unfold withConst
  split
  · show openOps (flat ++ [.const c]) = flat
    unfold openOps
    rw [List.filter_append]
    have hf : flat.filter (fun x => !isValue x) = flat := openOps_of_open h
    rw [hf]
    simp [isValue]
  · exact openOps_of_open h

theorem constOps_ne_zero {xs : List IExpr} (h : ∀ c, .const c ∈ xs → c ≠ 0) :
    constOps .mult xs ≠ 0 := by
  induction xs with
  | nil => exact one_ne_zero
  | cons x xs ih =>
    have hxs := ih fun c hc => h c (List.mem_cons_of_mem _ hc)
    cases hx : isValue x with
    | false =>
      rw [constOps_cons_open hx]
      exact hxs
    | true =>
      cases x with
      | const v => exact mul_ne_zero (h v (by simp)) hxs
      | _ => cases hx

variable (hR : Function.Injective R.iexpr)

include hR

/-- The order of ids is one order: sorting forgets how the list was given. -/
theorem sortOps_congr {xs ys : List IExpr} (h : xs.Perm ys) : sortOps R xs = sortOps R ys := by
  refine List.Perm.eq_of_pairwise (fun a b _ _ h1 h2 => hR (le_antisymm h1 h2)) ?_ ?_
    ((sortOps_perm R xs).trans (h.trans (sortOps_perm R ys).symm))
  · exact List.pairwise_insertionSort _ _
  · exact List.pairwise_insertionSort _ _

end Pack

/-! ## Held expressions -/

/-- The constant a sum or a product keeps: neither neutral nor absorbing. -/
def KeptConst (k : NaryOp) (c : Int) : Prop := c ≠ k.neutral ∧ (k = .mult → c ≠ 0)

/-- An operand of a held sum or product. -/
def HeldOp (k : NaryOp) (x : IExpr) : Prop :=
  x ≠ .undef ∧ isNary k x = false ∧ ∀ c, x = .const c → KeptConst k c

section Held

variable (R : ExprIds) (V : Nat → Prop)

mutual

/-- What the constructors leave of an expression over the positions `V`. -/
def IExpr.Held : IExpr → Prop
  | .undef => True
  | .const _ => True
  | .var p => V p
  | .nary k ops => IExpr.HeldList ops ∧ 2 ≤ ops.length ∧ ops.countP isValue ≤ 1 ∧
      (∀ x ∈ ops, HeldOp k x) ∧ ops.Pairwise fun a b => R.iexpr a ≤ R.iexpr b
  | .binary _ a b =>
    a.Held ∧ b.Held ∧ a ≠ .undef ∧ b ≠ .undef ∧ ¬(isValue a ∧ isValue b)
  | .bitComp a => a.Held ∧ immediate a = false
  | .array _ index => index.Held ∧ immediate index = false
  | .wrapBool b => b.Held ∧ immediateBool b = false

def IExpr.HeldList : List IExpr → Prop
  | [] => True
  | x :: xs => x.Held ∧ IExpr.HeldList xs

def BExpr.Held : BExpr → Prop
  | .bfalse => True
  | .btrue => True
  | .bundef => True
  | .cmp k l r => l.Held ∧ r.Held ∧ l ≠ .undef ∧ r ≠ .undef ∧ ¬(isValue l ∧ isValue r) ∧
      (k = .eq ∨ k = .neq → R.iexpr l ≤ R.iexpr r)
  | .conn k ops => BExpr.HeldList ops ∧ 2 ≤ ops.length ∧ ops.countP immediateBool ≤ 1 ∧
      (∀ x ∈ ops, x ≠ k.neutral ∧ x ≠ k.absorbing ∧ ∀ xs, x ≠ .conn k xs) ∧
      ops.Pairwise fun a b => R.bexpr a ≤ R.bexpr b
  | .neg a => a.Held ∧ isConn a = true

def BExpr.HeldList : List BExpr → Prop
  | [] => True
  | x :: xs => x.Held ∧ BExpr.HeldList xs

end

end Held

mutual

/-- No comparison of an expression with itself, no operand of a connective twice. -/
def IExpr.Distinct : IExpr → Prop
  | .undef => True
  | .const _ => True
  | .var _ => True
  | .nary _ ops => IExpr.DistinctList ops
  | .binary _ a b => a.Distinct ∧ b.Distinct
  | .bitComp a => a.Distinct
  | .array _ index => index.Distinct
  | .wrapBool b => b.Distinct

def IExpr.DistinctList : List IExpr → Prop
  | [] => True
  | x :: xs => x.Distinct ∧ IExpr.DistinctList xs

def BExpr.Distinct : BExpr → Prop
  | .bfalse => True
  | .btrue => True
  | .bundef => True
  | .cmp _ l r => l.Distinct ∧ r.Distinct ∧ l ≠ r
  | .conn _ ops => BExpr.DistinctList ops ∧ ops.Nodup
  | .neg a => a.Distinct

def BExpr.DistinctList : List BExpr → Prop
  | [] => True
  | x :: xs => x.Distinct ∧ BExpr.DistinctList xs

end

section HeldLemmas

variable {R : ExprIds} {V : Nat → Prop} {k : NaryOp}

theorem heldList_iff {xs : List IExpr} : IExpr.HeldList R V xs ↔ ∀ x ∈ xs, x.Held R V := by
  induction xs with
  | nil => simp [IExpr.HeldList]
  | cons x xs ih => simp [IExpr.HeldList, ih]

theorem heldBoolList_iff {xs : List BExpr} : BExpr.HeldList R V xs ↔ ∀ x ∈ xs, x.Held R V := by
  induction xs with
  | nil => simp [BExpr.HeldList]
  | cons x xs ih => simp [BExpr.HeldList, ih]

/-- An expression that is neither undefined nor a constant, and held. -/
structure OpenHeld (R : ExprIds) (V : Nat → Prop) (e : IExpr) : Prop where
  held : e.Held R V
  open_ : immediate e = false

theorem HeldOp.cases {x : IExpr} (h : HeldOp k x) :
    (∃ c, x = .const c ∧ KeptConst k c) ∨ IsPart k x := by
  cases hv : Lia.isValue x with
  | true =>
    cases x with
    | const c => exact Or.inl ⟨c, rfl, h.2.2 c rfl⟩
    | _ => cases hv
  | false => exact Or.inr ⟨immediate_eq_false.mpr ⟨h.1, hv⟩, h.2.1⟩

/-- The operands of a held sum or product are its parts and its constant. -/
theorem ops_perm {ops : List IExpr} (hlen : 2 ≤ ops.length) (hcount : ops.countP isValue ≤ 1)
    (hops : ∀ x ∈ ops, HeldOp k x) :
    ops.Perm (withConst k (constOps k ops) (openOps ops)) := by
  have hsplit : ops.Perm (openOps ops ++ ops.filter isValue) := by
    have h := List.filter_append_perm (fun x => !isValue x) ops
    simp only [Bool.not_not] at h
    exact h.symm
  have hopen : ∀ x ∈ openOps ops, isValue x = false := by
    intro x hx
    simpa using (List.mem_filter.mp hx).2
  match hval : ops.filter isValue with
  | [] =>
    rw [hval, List.append_nil] at hsplit
    have hconst : constOps k ops = k.neutral := by
      rw [constOps_perm hsplit, constOps_of_open hopen]
    have hne : openOps ops ≠ [] := by
      intro hn
      rw [hn] at hsplit
      rw [hsplit.eq_nil] at hlen
      simp at hlen
    unfold withConst
    rw [if_neg (by simp [hconst, hne])]
    exact hsplit
  | [x] =>
    have hmem : x ∈ ops.filter isValue := by simp [hval]
    obtain ⟨hx, hxv⟩ := List.mem_filter.mp hmem
    cases x with
    | const c =>
      rw [hval] at hsplit
      have hconst : constOps k ops = c := by
        rw [constOps_perm hsplit, constOps_append, constOps_of_open hopen, k.neutral_eval]
        exact k.eval_neutral c
      unfold withConst
      rw [hconst, if_pos (Or.inl ((hops _ hx).2.2 c rfl).1)]
      exact hsplit
    | _ => cases hxv
  | x :: y :: ys =>
    rw [List.countP_eq_length_filter, hval] at hcount
    simp at hcount

variable (hR : Function.Injective R.iexpr)

include hR

omit hR in
/-- Packing held parts beside a constant that may stand there. -/
theorem pack_held {c : Int} {flat : List IExpr} (hf : ∀ x ∈ flat, x.Held R V ∧ IsPart k x)
    (hne : flat ≠ []) (hc : k = .mult → c ≠ 0) : OpenHeld R V (pack R k c flat) := by
  have hops : ∀ x ∈ withConst k c flat, x.Held R V ∧ HeldOp k x := by
    intro x hx
    unfold withConst at hx
    have hpart : x ∈ flat → x.Held R V ∧ HeldOp k x := by
      intro hx
      obtain ⟨h1, h2⟩ := hf x hx
      refine ⟨h1, (immediate_eq_false.mp h2.open_).1, h2.kind, ?_⟩
      rintro c rfl
      cases h2.open_
    split at hx
    · next hcond =>
      rcases List.mem_append.mp hx with hx | hx
      · exact hpart hx
      · rw [List.mem_singleton.mp hx]
        refine ⟨trivial, by simp, rfl, ?_⟩
        rintro c' hc'
        cases hc'
        exact ⟨hcond.resolve_right hne, hc⟩
    · exact hpart hx
  have hv : ∀ x ∈ flat, Lia.isValue x = false := fun x hx => (hf x hx).2.isValue
  have hcount : (withConst k c flat).countP Lia.isValue ≤ 1 := by
    have h0 : flat.countP Lia.isValue = 0 := by
      rw [List.countP_eq_zero]
      intro x hx
      simp [hv x hx]
    unfold withConst
    split
    · rw [List.countP_append, h0]
      simp [List.countP_cons, Lia.isValue]
    · omega
  have hopen := openOps_withConst (k := k) (c := c) hv
  unfold pack
  cases hw : withConst k c flat with
  | nil =>
    rw [hw] at hopen
    exact absurd hopen.symm hne
  | cons x rest =>
    cases rest with
    | nil =>
      rw [hw] at hops hopen
      obtain ⟨h1, h2⟩ := hops x (by simp)
      refine ⟨h1, immediate_eq_false.mpr ⟨h2.1, ?_⟩⟩
      cases hx : Lia.isValue x with
      | false => exact hx
      | true =>
        simp [openOps, hx] at hopen
        exact absurd hopen hne
    | cons y ys =>
      rw [hw] at hops hcount
      have hperm := sortOps_perm R (x :: y :: ys)
      refine ⟨⟨heldList_iff.mpr fun z hz => (hops z (hperm.mem_iff.mp hz)).1, ?_, ?_,
        fun z hz => (hops z (hperm.mem_iff.mp hz)).2, List.pairwise_insertionSort _ _⟩, rfl⟩
      · rw [hperm.length_eq]
        simp
      · rw [hperm.countP_eq]
        exact hcount

end HeldLemmas

end LibHSC.Lia
