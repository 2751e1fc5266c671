import Mathlib.Data.Set.Lattice

/-!
The support algebra a sort exports: absence, the id of a code, join, meet and
relative difference. There is no top and no complement.

A code is the value an intern table names; `num` is the id the table handed out
for it, so that comparing codes is comparing values and sorting by code is
sorting by `num`.
-/

namespace LibHSC

/-- How a call can end without a value: a loud overflow, an operation the theory
does not offer, a broken precondition, behaviour the language leaves undefined,
or a loop that outlives the fuel of the model. -/
inductive Err where
  | overflow
  | unsupported
  | logic
  | undefinedBehaviour
  | fuel
  deriving DecidableEq, Repr

/-- The operations of `support_algebra` on values. -/
structure SupportAlgebra (C : Type) where
  none : C
  num : C → Nat
  join : C → C → C
  meet : C → C → C
  minus : C → C → C

/-- The contract of a support algebra: every code names one set of words
(`den`), the canonical codes are closed under the operations, and a canonical
code is determined by its set. -/
structure SupportLaws {C W : Type} (A : SupportAlgebra C) (den : C → Set W)
    (Canon : C → Prop) : Prop where
  num_inj : Function.Injective A.num
  canon_none : Canon A.none
  den_none : den A.none = ∅
  ext : ∀ {a b}, Canon a → Canon b → den a = den b → a = b
  canon_join : ∀ {a b}, Canon a → Canon b → Canon (A.join a b)
  den_join : ∀ {a b}, Canon a → Canon b → den (A.join a b) = den a ∪ den b
  canon_meet : ∀ {a b}, Canon a → Canon b → Canon (A.meet a b)
  den_meet : ∀ {a b}, Canon a → Canon b → den (A.meet a b) = den a ∩ den b
  canon_minus : ∀ {a b}, Canon a → Canon b → Canon (A.minus a b)
  den_minus : ∀ {a b}, Canon a → Canon b → den (A.minus a b) = den a \ den b

namespace SupportLaws

variable {C W : Type} {A : SupportAlgebra C} {den : C → Set W} {Canon : C → Prop}

/-- Emptiness is a comparison with absence. -/
theorem eq_none_iff (h : SupportLaws A den Canon) {a : C} (ha : Canon a) :
    a = A.none ↔ den a = ∅ := by
  constructor
  · rintro rfl
    exact h.den_none
  · intro he
    exact h.ext ha h.canon_none (he.trans h.den_none.symm)

theorem nonempty_of_ne_none (h : SupportLaws A den Canon) {a : C} (ha : Canon a)
    (hne : a ≠ A.none) : (den a).Nonempty := by
  rw [Set.nonempty_iff_ne_empty]
  exact fun he => hne ((h.eq_none_iff ha).mpr he)

theorem join_none (h : SupportLaws A den Canon) : A.join A.none A.none = A.none := by
  refine (h.eq_none_iff (h.canon_join h.canon_none h.canon_none)).mpr ?_
  rw [h.den_join h.canon_none h.canon_none, h.den_none, Set.union_self]

theorem join_ne_none (h : SupportLaws A den Canon) {a b : C} (ha : Canon a) (hb : Canon b)
    (hne : a ≠ A.none) : A.join a b ≠ A.none := by
  rw [Ne, h.eq_none_iff (h.canon_join ha hb), h.den_join ha hb, Set.union_empty_iff]
  exact fun he => hne ((h.eq_none_iff ha).mpr he.1)

/-- Equality of codes is equality of sets. -/
theorem num_eq_iff (h : SupportLaws A den Canon) {a b : C} (ha : Canon a) (hb : Canon b) :
    A.num a = A.num b ↔ den a = den b :=
  ⟨fun e => congrArg den (h.num_inj e), fun e => congrArg A.num (h.ext ha hb e)⟩

end SupportLaws

end LibHSC
