import Mathlib.Logic.Relation
import Mathlib.Order.Bounds.Basic
import Mathlib.Data.Set.Lattice
import Mathlib.Data.List.Forall2

/-!
Images of sets under relations, their least closures, and the loop that
iterates a fallible step until its value is stable.

`post_reflTransGen_isLeast` says that the image under the reflexive-transitive
closure is the least closed superset; `untilStable_inv` is the rule for a loop:
what every step keeps holds of the result, and the result is a fixed point.

A state that numbers what it finds is a list that grows at its end.
-/

namespace LibHSC

section Fallible

variable {ε α β : Type}

theorem bind_eq_ok {x : Except ε α} {f : α → Except ε β} {r : β} :
    (x >>= f) = .ok r ↔ ∃ a, x = .ok a ∧ f a = .ok r := by
  cases x with
  | error e => simp [bind, Except.bind]
  | ok a => simp [bind, Except.bind]

theorem bind_eq_error {x : Except ε α} {f : α → Except ε β} {e : ε} :
    (x >>= f) = .error e ↔ x = .error e ∨ ∃ a, x = .ok a ∧ f a = .error e := by
  cases x with
  | error e => simp [bind, Except.bind]
  | ok a => simp [bind, Except.bind]

theorem bind_of_ok {x : Except ε α} {f : α → Except ε β} {a : α} {y : Except ε β}
    (h : x = .ok a) (hy : f a = y) : (x >>= f) = y := by
  rw [h]
  exact hy

/-- A computation stays when each of its parts returns what it returned. -/
theorem bind_le {x x' : Except ε α} {f f' : α → Except ε β} {r : β}
    (hx : ∀ a, x = .ok a → x' = .ok a) (hf : ∀ a, f a = .ok r → f' a = .ok r)
    (h : (x >>= f) = .ok r) : (x' >>= f') = .ok r := by
  obtain ⟨a, ha, h⟩ := bind_eq_ok.mp h
  exact bind_of_ok (hx a ha) (hf a h)

theorem ite_le {p : Prop} [Decidable p] {x x' y y' : Except ε α} {r : α}
    (hx : x = .ok r → x' = .ok r) (hy : y = .ok r → y' = .ok r)
    (h : (if p then x else y) = .ok r) : (if p then x' else y') = .ok r := by
  split at h
  · next hp => exact (if_pos hp).trans (hx h)
  · next hp => exact (if_neg hp).trans (hy h)

theorem pure_eq_ok {a r : α} : (pure a : Except ε α) = .ok r ↔ a = r := by
  simp [pure, Except.pure]

theorem mapM_eq_ok {f : α → Except ε β} {l : List α} {r : List β} (h : l.mapM f = .ok r) :
    List.Forall₂ (fun a b => f a = .ok b) l r := by
  induction l generalizing r with
  | nil =>
    cases h
    exact .nil
  | cons a l ih =>
    rw [List.mapM_cons] at h
    obtain ⟨b, hb, h⟩ := bind_eq_ok.mp h
    obtain ⟨bs, hbs, h⟩ := bind_eq_ok.mp h
    cases h
    exact .cons hb (ih hbs)

theorem exists_mapM_ok {f : α → Except ε β} {l : List α} (h : ∀ a ∈ l, ∃ b, f a = .ok b) :
    ∃ r, l.mapM f = .ok r := by
  induction l with
  | nil => exact ⟨[], rfl⟩
  | cons a l ih =>
    obtain ⟨⟨b, hb⟩, h⟩ := List.forall_mem_cons.mp h
    obtain ⟨r, hr⟩ := ih h
    refine ⟨b :: r, ?_⟩
    rw [List.mapM_cons, hb, hr]
    rfl

end Fallible

section Forall

variable {α β : Type} {r : α → β → Prop} {as : List α} {bs : List β}

theorem forall₂_mem_left (h : List.Forall₂ r as bs) {a : α} (ha : a ∈ as) : ∃ b ∈ bs, r a b := by
  induction h with
  | nil => cases ha
  | cons hab _ ih =>
    rcases List.mem_cons.mp ha with rfl | ha
    · exact ⟨_, List.mem_cons_self .., hab⟩
    · obtain ⟨b, hb, hr⟩ := ih ha
      exact ⟨b, List.mem_cons_of_mem _ hb, hr⟩

theorem forall₂_getElem? (h : List.Forall₂ r as bs) : ∀ {i : Nat} {a : α} {b : β},
    as[i]? = some a → bs[i]? = some b → r a b := by
  induction h with
  | nil =>
    intro i a b ha
    simp at ha
  | cons hab _ ih =>
    intro i a b ha hb
    cases i with
    | zero =>
      cases ha
      cases hb
      exact hab
    | succ i => exact ih ha hb

theorem forall₂_mem_right (h : List.Forall₂ r as bs) {b : β} (hb : b ∈ bs) : ∃ a ∈ as, r a b :=
  forall₂_mem_left h.flip hb

end Forall

section Images

variable {α : Type*}

/-- The successors of a set. -/
def post (r : α → α → Prop) (X : Set α) : Set α := {u | ∃ v ∈ X, r v u}

theorem mem_post {r : α → α → Prop} {X : Set α} {u : α} : u ∈ post r X ↔ ∃ v ∈ X, r v u :=
  Iff.rfl

theorem post_mono {r : α → α → Prop} {X Y : Set α} (h : X ⊆ Y) : post r X ⊆ post r Y := by
  rintro u ⟨v, hv, hr⟩
  exact ⟨v, h hv, hr⟩

theorem post_mono_rel {r r' : α → α → Prop} (h : ∀ v u, r v u → r' v u) (X : Set α) :
    post r X ⊆ post r' X := by
  rintro u ⟨v, hv, hr⟩
  exact ⟨v, hv, h v u hr⟩

@[simp] theorem post_eq (X : Set α) : post (fun v u => v = u) X = X := by
  ext u
  simp [post]

@[simp] theorem post_empty (r : α → α → Prop) : post r ∅ = ∅ := by
  ext u
  simp [post]

theorem post_union (r : α → α → Prop) (X Y : Set α) : post r (X ∪ Y) = post r X ∪ post r Y := by
  ext u
  simp only [mem_post, Set.mem_union, or_and_right, exists_or]

theorem post_comp (r r' : α → α → Prop) (X : Set α) :
    post (Relation.Comp r r') X = post r' (post r X) := by
  ext u
  constructor
  · rintro ⟨v, hv, m, hr, hr'⟩
    exact ⟨m, ⟨v, hv, hr⟩, hr'⟩
  · rintro ⟨m, ⟨v, hv, hr⟩, hr'⟩
    exact ⟨v, hv, m, hr, hr'⟩

theorem post_reflTransGen_subset {r : α → α → Prop} {X Y : Set α} (hX : X ⊆ Y)
    (hY : post r Y ⊆ Y) : post (Relation.ReflTransGen r) X ⊆ Y := by
  rintro u ⟨v, hv, hr⟩
  induction hr with
  | refl => exact hX hv
  | tail _ hstep ih => exact hY ⟨_, ih, hstep⟩

theorem subset_post_reflTransGen (r : α → α → Prop) (X : Set α) :
    X ⊆ post (Relation.ReflTransGen r) X :=
  fun v hv => ⟨v, hv, .refl⟩

theorem post_post_reflTransGen (r : α → α → Prop) (X : Set α) :
    post r (post (Relation.ReflTransGen r) X) ⊆ post (Relation.ReflTransGen r) X := by
  rintro u ⟨m, ⟨v, hv, hr⟩, hstep⟩
  exact ⟨v, hv, hr.tail hstep⟩

/-- The image under the closure of a relation is the least closed superset. -/
theorem post_reflTransGen_isLeast (r : α → α → Prop) (X : Set α) :
    IsLeast {Y | X ⊆ Y ∧ post r Y ⊆ Y} (post (Relation.ReflTransGen r) X) :=
  ⟨⟨subset_post_reflTransGen r X, post_post_reflTransGen r X⟩,
    fun _ hY => post_reflTransGen_subset hY.1 hY.2⟩

/-- A closed superset inside the closure is the closure. -/
theorem eq_post_reflTransGen {r : α → α → Prop} {X Y : Set α} (hX : X ⊆ Y)
    (hY : post r Y ⊆ Y) (hle : Y ⊆ post (Relation.ReflTransGen r) X) :
    Y = post (Relation.ReflTransGen r) X :=
  Set.Subset.antisymm hle (post_reflTransGen_subset hX hY)

/-- The closure of a relation that moves nothing. -/
theorem reflTransGen_of_le_eq {r : α → α → Prop} (h : ∀ v u, r v u → v = u) :
    Relation.ReflTransGen r = fun v u => v = u := by
  funext v u
  apply propext
  constructor
  · intro hr
    induction hr with
    | refl => rfl
    | tail _ hstep ih => exact ih.trans (h _ _ hstep)
  · rintro rfl
    exact .refl

/-- Two relations that simulate each other's steps have one closure. -/
theorem reflTransGen_congr {r r' : α → α → Prop} (h : ∀ v u, r v u → Relation.ReflTransGen r' v u)
    (h' : ∀ v u, r' v u → Relation.ReflTransGen r v u) :
    Relation.ReflTransGen r = Relation.ReflTransGen r' := by
  funext v u
  exact propext ⟨Relation.reflTransGen_closed h v u, Relation.reflTransGen_closed h' v u⟩

end Images

section Products

variable {V W : Type*}

/-- A relation of pairs that moves the tail only. -/
def tailStep (r : W → W → Prop) (v u : V × W) : Prop := v.1 = u.1 ∧ r v.2 u.2

/-- A relation of pairs that moves the head only. -/
def headStep (r : V → V → Prop) (v u : V × W) : Prop := r v.1 u.1 ∧ v.2 = u.2

theorem reflTransGen_tailStep {r : W → W → Prop} :
    Relation.ReflTransGen (tailStep (V := V) r) = tailStep (Relation.ReflTransGen r) := by
  funext v u
  apply propext
  constructor
  · intro h
    induction h with
    | refl => exact ⟨rfl, .refl⟩
    | tail _ hstep ih => exact ⟨ih.1.trans hstep.1, ih.2.tail hstep.2⟩
  · obtain ⟨a, b⟩ := v
    obtain ⟨c, e⟩ := u
    rintro ⟨rfl, h⟩
    exact h.lift (Prod.mk a) fun x y hxy => ⟨rfl, hxy⟩

theorem reflTransGen_headStep {r : V → V → Prop} :
    Relation.ReflTransGen (headStep (W := W) r) = headStep (Relation.ReflTransGen r) := by
  funext v u
  apply propext
  constructor
  · intro h
    induction h with
    | refl => exact ⟨.refl, rfl⟩
    | tail _ hstep ih => exact ⟨ih.1.tail hstep.1, ih.2.trans hstep.2⟩
  · obtain ⟨a, b⟩ := v
    obtain ⟨c, e⟩ := u
    rintro ⟨h, rfl⟩
    exact h.lift (fun x => (x, b)) fun x y hxy => ⟨hxy, rfl⟩

end Products

section Loop

variable {ε C : Type} [DecidableEq C]

/-- Iterate a step until its value is stable; `out` is the error of a loop that
uses up its fuel. -/
def untilStable (out : ε) (step : C → Except ε C) : Nat → C → Except ε C
  | 0, _ => .error out
  | n + 1, x => do
      let y ← step x
      if y = x then return x else untilStable out step n y

theorem untilStable_inv {out : ε} {step : C → Except ε C} {P : C → Prop}
    (hstep : ∀ x y, P x → step x = .ok y → P y) :
    ∀ {n : Nat} {x r : C}, P x → untilStable out step n x = .ok r → P r ∧ step r = .ok r := by
  intro n
  induction n with
  | zero =>
    intro x r _ h
    cases h
  | succ n ih =>
    intro x r hx h
    obtain ⟨y, hy, h⟩ := bind_eq_ok.mp h
    by_cases hyx : y = x
    · rw [if_pos hyx] at h
      have hxr := pure_eq_ok.mp h
      subst hxr
      exact ⟨hx, hyx ▸ hy⟩
    · rw [if_neg hyx] at h
      exact ih (hstep x y hx hy) h

/-- A step that returns more, and more rounds, give the same value. -/
theorem untilStable_mono {out : ε} {step step' : C → Except ε C}
    (hle : ∀ x y, step x = .ok y → step' x = .ok y) :
    ∀ {n k : Nat} {x r : C}, n ≤ k → untilStable out step n x = .ok r →
      untilStable out step' k x = .ok r := by
  intro n
  induction n with
  | zero =>
    intro k x r _ h
    cases h
  | succ n ih =>
    intro k x r hk h
    obtain ⟨k, rfl⟩ : ∃ k', k = k' + 1 := ⟨k - 1, by omega⟩
    obtain ⟨y, hy, h⟩ := bind_eq_ok.mp h
    refine bind_of_ok (hle x y hy) ?_
    by_cases hyx : y = x
    · rw [if_pos hyx] at h ⊢
      exact h
    · rw [if_neg hyx] at h ⊢
      exact ih (by omega) h

/-- The rule for termination: a step that always returns with some fuel, and moves only
downward in a measure, reaches a stable value with some fuel. -/
theorem untilStable_total {out : ε} {step : Nat → C → Except ε C} {P : C → Prop}
    {s : C → Nat}
    (hmono : ∀ n k x y, n ≤ k → step n x = .ok y → step k x = .ok y)
    (hstep : ∀ x, P x → ∃ n y, step n x = .ok y ∧ P y ∧ (y ≠ x → s y < s x)) :
    ∀ x, P x → ∃ n r, untilStable out (step n) n x = .ok r := by
  suffices h : ∀ b x, s x = b → P x → ∃ n r, untilStable out (step n) n x = .ok r from
    fun x => h _ x rfl
  intro b
  induction b using Nat.strong_induction_on with
  | _ b ih =>
    rintro x rfl hx
    obtain ⟨n, y, hy, hPy, hlt⟩ := hstep x hx
    by_cases hyx : y = x
    · refine ⟨n + 1, x, bind_of_ok (hmono _ _ _ _ (Nat.le_succ n) hy) ?_⟩
      rw [if_pos hyx]
      rfl
    · obtain ⟨k, r, hr⟩ := ih _ (hlt hyx) y rfl hPy
      refine ⟨max n k + 1, r, bind_of_ok (hmono n _ _ _ (by omega) hy) ?_⟩
      rw [if_neg hyx]
      exact untilStable_mono (fun _ _ => hmono k _ _ _ (by omega)) (Nat.le_max_right n k) hr

/-- The rule for a closure: a step that stays between its argument and the
closed set, and is stable only on closed sets, computes the closed set. -/
theorem untilStable_closure {α : Type*} {out : ε} {step : C → Except ε C} {Canon : C → Prop}
    {den : C → Set α} {rel : α → α → Prop}
    (hstep : ∀ x y, Canon x → step x = .ok y → Canon y ∧ den x ⊆ den y ∧
      den y ⊆ post (Relation.ReflTransGen rel) (den x))
    (hfix : ∀ x, Canon x → step x = .ok x → post rel (den x) ⊆ den x)
    {n : Nat} {x r : C} (hx : Canon x) (h : untilStable out step n x = .ok r) :
    Canon r ∧ den r = post (Relation.ReflTransGen rel) (den x) := by
  obtain ⟨⟨hc, hlo, hhi⟩, hr⟩ := untilStable_inv
    (P := fun y => Canon y ∧ den x ⊆ den y ∧ den y ⊆ post (Relation.ReflTransGen rel) (den x))
    (fun y z hy hz => by
      obtain ⟨hzc, hyz, hzy⟩ := hstep y z hy.1 hz
      refine ⟨hzc, hy.2.1.trans hyz, hzy.trans ?_⟩
      exact post_reflTransGen_subset hy.2.2 (post_post_reflTransGen _ _))
    ⟨hx, subset_rfl, subset_post_reflTransGen _ _⟩ h
  exact ⟨hc, eq_post_reflTransGen hlo (hfix r hc hr) hhi⟩

end Loop

/-! ## Lists that grow at their end -/

theorem getElem?_snoc_eq_some {α : Type} {l : List α} {x y : α} {i : Nat} :
    (l ++ [x])[i]? = some y ↔ l[i]? = some y ∨ (i = l.length ∧ x = y) := by
  rcases Nat.lt_trichotomy i l.length with h | h | h
  · rw [List.getElem?_append_left h]
    simp [Nat.ne_of_lt h]
  · subst h
    simp
  · rw [List.getElem?_eq_none (by simp; omega), List.getElem?_eq_none (by omega)]
    simp
    omega

theorem getElem?_extends {α : Type} {xs ys : List α} (h : xs <+: ys) {i : Nat} {x : α}
    (hx : xs[i]? = some x) : ys[i]? = some x := by
  obtain ⟨zs, rfl⟩ := h
  rw [List.getElem?_append_left (List.getElem?_eq_some_iff.mp hx).1, hx]

end LibHSC
