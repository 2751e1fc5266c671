import Mathlib.Algebra.Order.Group.Int
import Mathlib.Algebra.Group.Hom.Defs
import Mathlib.Algebra.Order.Group.Unbundled.Basic
import Mathlib.Tactic.Abel

/-!
Place/transition nets over an ordered group: enabling, firing, what holds of every
reachable marking. A linear form that no transition raises stays below its first
value; a place that never gets a token stays empty; forgetting places keeps runs.
-/

namespace PetriNets

structure Net (P T G : Type) where
  pre : T → P → G
  post : T → P → G

namespace Net

variable {P Q T G : Type}

def Enabled [LE G] (N : Net P T G) (t : T) (m : P → G) : Prop := ∀ p, N.pre t p ≤ m p

section Group

variable [AddCommGroup G]

def effect (N : Net P T G) (t : T) : P → G := N.post t - N.pre t

def fire (N : Net P T G) (t : T) (m : P → G) : P → G := m + N.effect t

theorem fire_apply {N : Net P T G} {m : P → G} (t : T) (p : P) :
    N.fire t m p = m p - N.pre t p + N.post t p := by
  simp only [fire, effect, Pi.add_apply, Pi.sub_apply]
  abel

end Group

/-- `N'` is `N` on the places `f` names: the arcs of the others are dropped. -/
structure Projects {U : Type} (N : Net P T G) (N' : Net Q U G) (f : Q → P) (g : T → U) : Prop where
  pre : ∀ t q, N'.pre (g t) q = N.pre t (f q)
  post : ∀ t q, N'.post (g t) q = N.post t (f q)

/-- No transition is enabled. -/
def Dead [LE G] (N : Net P T G) (m : P → G) : Prop := ∀ t, ¬ N.Enabled t m

section Projections

variable {U : Type} {N : Net P T G} {N' : Net Q U G} {f : Q → P} {g : T → U}

theorem Projects.enabled [LE G] (h : N.Projects N' f g) {t : T} {m : P → G}
    (ht : N.Enabled t m) : N'.Enabled (g t) (m ∘ f) := by
  intro q
  rw [h.pre]
  exact ht (f q)

theorem Projects.fire [AddCommGroup G] (h : N.Projects N' f g) (t : T) (m : P → G) :
    N'.fire (g t) (m ∘ f) = N.fire t m ∘ f := by
  funext q
  rw [Function.comp_apply, fire_apply, fire_apply, h.pre, h.post, Function.comp_apply]

/-- What is dead in the projection is dead in the net. -/
theorem Projects.dead [LE G] (h : N.Projects N' f g) {m : P → G} (hd : N'.Dead (m ∘ f)) :
    N.Dead m :=
  fun t ht => hd (g t) (h.enabled ht)

end Projections

variable [AddCommGroup G] [LinearOrder G]

def Step (N : Net P T G) (m m' : P → G) : Prop := ∃ t, N.Enabled t m ∧ m' = N.fire t m

def Reachable (N : Net P T G) : (P → G) → (P → G) → Prop := Relation.ReflTransGen N.Step

/-- Arcs take and give, never the other way round. -/
structure Nonneg (N : Net P T G) : Prop where
  pre : ∀ t p, 0 ≤ N.pre t p
  post : ∀ t p, 0 ≤ N.post t p

variable {N : Net P T G} {m₀ m : P → G}

/-- What the first marking has and every firing keeps. -/
theorem Reachable.invariant {I : (P → G) → Prop} (h : N.Reachable m₀ m) (h₀ : I m₀)
    (hfire : ∀ t m, N.Enabled t m → I m → I (N.fire t m)) : I m := by
  induction h with
  | refl => exact h₀
  | tail _ hstep ih =>
    obtain ⟨t, ht, rfl⟩ := hstep
    exact hfire t _ ht ih

/-! ## Linear forms -/

section Forms

variable {y : (P → G) →+ G}

/-- A form that no transition raises. -/
theorem Reachable.form_le [IsOrderedAddMonoid G] (h : N.Reachable m₀ m)
    (hy : ∀ t, y (N.effect t) ≤ 0) : y m ≤ y m₀ := by
  refine h.invariant (I := fun m => y m ≤ y m₀) le_rfl fun t m _ ih => ?_
  have hsum : y (N.fire t m) = y m + y (N.effect t) := map_add y _ _
  rw [hsum]
  exact (add_le_of_nonpos_right (hy t)).trans ih

/-- A form that no transition changes. -/
theorem Reachable.form_eq (h : N.Reachable m₀ m) (hy : ∀ t, y (N.effect t) = 0) :
    y m = y m₀ := by
  refine h.invariant (I := fun m => y m = y m₀) rfl fun t m _ ih => ?_
  have hsum : y (N.fire t m) = y m + y (N.effect t) := map_add y _ _
  rw [hsum, hy t, add_zero, ih]

end Forms

/-! ## Tokens -/

section Tokens

variable [IsOrderedAddMonoid G]

theorem Reachable.nonneg (hN : N.Nonneg) (h : N.Reachable m₀ m) (h₀ : ∀ p, 0 ≤ m₀ p) :
    ∀ p, 0 ≤ m p := by
  refine h.invariant (I := fun m => ∀ p, 0 ≤ m p) h₀ fun t m ht _ p => ?_
  rw [fire_apply]
  exact add_nonneg (sub_nonneg.mpr (ht p)) (hN.post t p)

/-- A token can get there: at first, or from a transition whose inputs can all be marked. -/
inductive Markable (N : Net P T G) (m₀ : P → G) : P → Prop
  | first {p : P} : 0 < m₀ p → Markable N m₀ p
  | produced {t : T} {p : P} : (∀ q, 0 < N.pre t q → Markable N m₀ q) → 0 < N.post t p →
      Markable N m₀ p

/-- A marked place is markable. -/
theorem Reachable.markable (hN : N.Nonneg) (h : N.Reachable m₀ m) :
    ∀ p, 0 < m p → N.Markable m₀ p := by
  refine h.invariant (I := fun m => ∀ p, 0 < m p → N.Markable m₀ p) (fun p => .first)
    fun t m ht ih p hp => ?_
  rw [fire_apply] at hp
  by_cases hpost : 0 < N.post t p
  · exact .produced (fun q hq => ih q (hq.trans_le (ht q))) hpost
  · have hzero : N.post t p = 0 := le_antisymm (not_lt.mp hpost) (hN.post t p)
    rw [hzero, add_zero] at hp
    exact ih p (hp.trans_le (sub_le_self _ (hN.pre t p)))

end Tokens

/-! ## Forgetting places -/

/-- Forgetting places only adds behaviour: a run projects to a run. -/
theorem Reachable.project {U : Type} {N' : Net Q U G} {f : Q → P} {g : T → U}
    (h : N.Reachable m₀ m) (hp : N.Projects N' f g) : N'.Reachable (m₀ ∘ f) (m ∘ f) := by
  induction h with
  | refl => exact .refl
  | tail _ hstep ih =>
    obtain ⟨t, ht, rfl⟩ := hstep
    exact ih.tail ⟨g t, hp.enabled ht, (hp.fire t _).symm⟩

end Net

end PetriNets
