import Mathlib.Data.List.Basic

/-!
Two computations side by side: both throw the same error, or both return and their
results are related. And two rows over named columns that agree off some of the
names.
-/

namespace LibHSC

section Lift

variable {ε α β γ δ : Type}

/-- The same error, or related results. -/
inductive LiftRel (P : α → β → Prop) : Except ε α → Except ε β → Prop
  | error (e : ε) : LiftRel P (.error e) (.error e)
  | ok {a : α} {b : β} : P a b → LiftRel P (.ok a) (.ok b)

namespace LiftRel

variable {P : α → β → Prop} {P' : γ → δ → Prop}

theorem refl {x : Except ε α} : LiftRel (· = ·) x x := by
  cases x with
  | error e => exact .error e
  | ok a => exact .ok rfl

theorem eq {x y : Except ε α} (h : LiftRel (· = ·) x y) : x = y := by
  cases h with
  | error e => rfl
  | ok hab => exact congrArg Except.ok hab

theorem mono {P' : α → β → Prop} {x : Except ε α} {y : Except ε β} (h : LiftRel P x y)
    (hP : ∀ a b, P a b → P' a b) : LiftRel P' x y := by
  cases h with
  | error e => exact .error e
  | ok hab => exact .ok (hP _ _ hab)

theorem bind {x : Except ε α} {y : Except ε β} {f : α → Except ε γ} {g : β → Except ε δ}
    (h : LiftRel P x y) (hfg : ∀ a b, P a b → LiftRel P' (f a) (g b)) :
    LiftRel P' (x >>= f) (y >>= g) := by
  cases h with
  | error e => exact .error e
  | ok hab => exact hfg _ _ hab

/-- The same computation first, then related ones. -/
theorem bind_same {x : Except ε α} {f : α → Except ε γ} {g : α → Except ε δ}
    (hfg : ∀ a, x = .ok a → LiftRel P' (f a) (g a)) : LiftRel P' (x >>= f) (x >>= g) := by
  cases x with
  | error e => exact .error e
  | ok a => exact hfg a rfl

end LiftRel

end Lift

section Rows

variable {ι α : Type} {order names : List ι} {w w' : List α}

/-- Two rows over the columns `order` that agree off the columns `names`. -/
structure AgreeOff (order names : List ι) (w w' : List α) : Prop where
  left : w.length = order.length
  right : w'.length = order.length
  agree : ∀ (p : Nat) (t : ι), order[p]? = some t → t ∉ names → w[p]? = w'[p]?

namespace AgreeOff

theorem map {g g' : ι → α} (h : ∀ t, t ∉ names → g t = g' t) :
    AgreeOff order names (order.map g) (order.map g') := by
  refine ⟨List.length_map .., List.length_map .., fun p t hp ht => ?_⟩
  rw [List.getElem?_map, List.getElem?_map, hp, Option.map_some, Option.map_some, h t ht]

/-- Writing one value to both rows, at a column that is `t` if `t` has one. -/
theorem set [DecidableEq ι] (h : AgreeOff order names w w') {t : ι} {i : Nat} {v : α}
    (hi : ∀ p : Nat, order[p]? = some t → p = i) :
    AgreeOff order (names.filter fun n => decide (n ≠ t)) (w.set i v) (w'.set i v) := by
  refine ⟨(List.length_set ..).trans h.left, (List.length_set ..).trans h.right, ?_⟩
  intro p n hp hn
  rw [List.getElem?_set, List.getElem?_set, h.left, h.right]
  by_cases hpi : i = p
  · rw [if_pos hpi, if_pos hpi]
  · rw [if_neg hpi, if_neg hpi]
    refine h.agree p n hp fun hmem => hn (List.mem_filter.mpr ⟨hmem, decide_eq_true ?_⟩)
    rintro rfl
    exact hpi (hi p hp).symm

theorem mono {names' : List ι} (h : AgreeOff order names w w') (hsub : ∀ n ∈ names, n ∈ names') :
    AgreeOff order names' w w' :=
  ⟨h.left, h.right, fun p t hp ht => h.agree p t hp fun hmem => ht (hsub t hmem)⟩

/-- Rows that agree everywhere are one. -/
theorem eq (h : AgreeOff order [] w w') : w = w' := by
  refine List.ext_getElem? fun p => ?_
  by_cases hp : p < order.length
  · exact h.agree p _ (List.getElem?_eq_getElem hp) (List.not_mem_nil)
  · rw [List.getElem?_eq_none (by have := h.left; omega),
      List.getElem?_eq_none (by have := h.right; omega)]

end AgreeOff

end Rows

end LibHSC
