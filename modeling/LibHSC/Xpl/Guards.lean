import LibHSC.Xpl.Eval
import LibHSC.Lia.Subst

/-!
Guards that compare positions and constants: the explicit engine decides them
in every state, and as the exact meaning of the expression says.
-/

namespace LibHSC.Lia

/-- A position below `n`, or a constant. -/
def IExpr.Simple (n : Nat) : IExpr → Prop
  | .const _ => True
  | .var p => p < n
  | _ => False

mutual

/-- Comparisons of positions and constants, under connectives. -/
def BExpr.Plain (n : Nat) : BExpr → Prop
  | .bfalse => True
  | .btrue => True
  | .bundef => False
  | .cmp _ l r => l.Simple n ∧ r.Simple n
  | .conn _ ops => BExpr.PlainList n ops
  | .neg a => a.Plain n

def BExpr.PlainList (n : Nat) : List BExpr → Prop
  | [] => True
  | x :: xs => x.Plain n ∧ BExpr.PlainList n xs

end

section Plain

variable {n : Nat} {R : ExprIds}

theorem ofBool_plain (b : Bool) : (ofBool b).Plain n := by
  cases b <;> trivial

theorem compare_plain {k : CmpOp} {l r : IExpr} (hl : l.Simple n) (hr : r.Simple n) :
    (compare R k l r).Plain n := by
  unfold compare
  split
  · exact hl.elim
  · exact hr.elim
  · exact ofBool_plain _
  · split
    · exact ofBool_plain _
    · split
      · exact ⟨hr, hl⟩
      · exact ⟨hl, hr⟩

/-- A comparison of a position that has a value with a constant. -/
theorem exactBool_compare {ρ : Reading} {k : CmpOp} {p : Nat} {x v : Int} (hp : ρ.pos p = some x) :
    exactBool ρ (compare R k (.var p) (.const v)) = Truth.ofBool (cmpEval k x v) := by
  have hx : exactInt ρ (.var p) = some x := hp
  rcases compare_exact R ρ k (.var p) (.const v) with h | ⟨h, -⟩
  · rw [h, hx]
    rfl
  · rw [hx] at h
    cases h

end Plain

end LibHSC.Lia

namespace LibHSC.Xpl

open Lia

section Eval

variable {env : Word}

/-- The engine decides the guard, as its exact meaning says. -/
def Decides (env : Word) (b : BExpr) : Prop :=
  ∃ v : Bool, evalBool env b = .ok (Truth.ofBool v) ∧ exactBool (.ofEnv env) b = Truth.ofBool v

theorem Truth.ofBool_not (v : Bool) : (Truth.ofBool v).not = Truth.ofBool !v := by
  cases v <;> rfl

/-- A connective of decided operands, whether it stops early or not. -/
theorem evalConn_decides {k : ConnOp} : ∀ {xs : List BExpr}, (∀ x ∈ xs, Decides env x) →
    ∃ v : Bool, evalConn env k false xs = .ok (Truth.ofBool v) ∧
      exactConn (.ofEnv env) k xs = Truth.ofBool v := by
  intro xs
  induction xs with
  | nil =>
    intro _
    cases k
    · exact ⟨true, rfl, rfl⟩
    · exact ⟨false, rfl, rfl⟩
  | cons x xs ih =>
    intro h
    obtain ⟨⟨v, hv, hx⟩, hxs⟩ := List.forall_mem_cons.mp h
    obtain ⟨w, hw, hws⟩ := ih hxs
    rw [evalConn, exactConn, hv, hx, hws]
    simp only [bind, Except.bind]
    have hundef : decide (Truth.ofBool v = .undef) = false := by cases v <;> rfl
    rw [hundef, Bool.or_false, hw]
    cases k with
    | conj =>
      cases v
      · exact ⟨false, rfl, by cases w <;> rfl⟩
      · exact ⟨w, rfl, by cases w <;> rfl⟩
    | disj =>
      cases v
      · exact ⟨w, rfl, by cases w <;> rfl⟩
      · exact ⟨true, rfl, by cases w <;> rfl⟩

theorem evalInt_simple {e : IExpr} (h : e.Simple env.length) :
    ∃ v : Int, evalInt env e = .ok (some v) ∧ exactInt (.ofEnv env) e = some v := by
  cases e with
  | const v => exact ⟨v, rfl, rfl⟩
  | var p =>
    have hp : env[p]? = some env[p] := List.getElem?_eq_getElem h
    refine ⟨env[p], ?_, hp⟩
    rw [evalInt, hp]
  | _ => exact h.elim

mutual

theorem plain_decides : (b : BExpr) → b.Plain env.length → Decides env b
  | .bfalse, _ => ⟨false, rfl, rfl⟩
  | .btrue, _ => ⟨true, rfl, rfl⟩
  | .bundef, h => h.elim
  | .cmp k l r, h => by
    obtain ⟨x, hx, hx'⟩ := evalInt_simple h.1
    obtain ⟨y, hy, hy'⟩ := evalInt_simple h.2
    refine ⟨cmpEval k x y, ?_, ?_⟩
    · rw [evalBool, hx, hy]
      rfl
    · rw [exactBool, hx', hy', cmpExact]
  | .conn k ops, h => by
    obtain ⟨v, hv, hv'⟩ := evalConn_decides (k := k) (plainList_decides ops h)
    exact ⟨v, hv, hv'⟩
  | .neg a, h => by
    obtain ⟨v, hv, hv'⟩ := plain_decides a h
    refine ⟨!v, ?_, ?_⟩
    · rw [evalBool, hv, ← Truth.ofBool_not]
      rfl
    · rw [exactBool, hv', Truth.ofBool_not]

theorem plainList_decides : (xs : List BExpr) → BExpr.PlainList env.length xs →
    ∀ x ∈ xs, Decides env x
  | [], _ => nofun
  | x :: xs, h => List.forall_mem_cons.mpr ⟨plain_decides x h.1, plainList_decides xs h.2⟩

end

/-- A plain guard holds where its exact meaning does. -/
theorem plain_yes {b : BExpr} (h : b.Plain env.length) :
    evalBool env b = .ok .yes ↔ exactBool (.ofEnv env) b = .yes := by
  obtain ⟨v, hv, hv'⟩ := plain_decides b h
  rw [hv, hv', Except.ok.injEq]

theorem evalBool_compare {R : ExprIds} {k : CmpOp} {p : Nat} {x v : Int} (hp : env[p]? = some x) :
    evalBool env (compare R k (.var p) (.const v)) = .ok .yes ↔ cmpEval k x v = true := by
  have hlt : p < env.length := (List.getElem?_eq_some_iff.mp hp).1
  have hplain : (compare R k (.var p) (.const v)).Plain env.length :=
    compare_plain (l := .var p) (r := .const v) hlt trivial
  rw [plain_yes hplain, exactBool_compare (ρ := .ofEnv env) hp, Truth.ofBool_yes]

end Eval

end LibHSC.Xpl
