import Mathlib.Data.List.Basic

/-!
Grouping a list of keyed values by key, as association lists: the values under
one key are collected (`groupAll`) or combined (`joinInsert`).
-/

namespace Grouping

variable {α β : Type} [DecidableEq α]

/-- One more value under its key. -/
def groupInsert (k : α) (x : β) : List (α × List β) → List (α × List β)
  | [] => [(k, [x])]
  | (k', xs) :: gs => if k' = k then (k', x :: xs) :: gs else (k', xs) :: groupInsert k x gs

def groupAll : List (α × β) → List (α × List β)
  | [] => []
  | (k, x) :: rest => groupInsert k x (groupAll rest)

/-- One more value under its key: combined with what is there. -/
def joinInsert (join : β → β → β) (k : α) (x : β) : List (α × β) → List (α × β)
  | [] => [(k, x)]
  | (k', y) :: gs => if k' = k then (k', join y x) :: gs else (k', y) :: joinInsert join k x gs

/-! ## Combining -/

/-- A property of keyed values that combining keeps holds of every entry. -/
theorem forall_joinInsert {join : β → β → β} {P : α × β → Prop}
    (hjoin : ∀ k x y, P (k, x) → P (k, y) → P (k, join x y)) {k : α} {x : β}
    (hx : P (k, x)) {gs : List (α × β)} (h : ∀ g ∈ gs, P g) :
    ∀ g ∈ joinInsert join k x gs, P g := by
  induction gs with
  | nil => simpa [joinInsert] using hx
  | cons g gs ih =>
    obtain ⟨j, y⟩ := g
    obtain ⟨hg, hgs⟩ := List.forall_mem_cons.mp h
    unfold joinInsert
    split
    · next hj =>
      subst hj
      exact List.forall_mem_cons.mpr ⟨hjoin _ y x hg hx, hgs⟩
    · exact List.forall_mem_cons.mpr ⟨hg, ih hgs⟩

theorem joinInsert_keys {join : β → β → β} {k : α} {x : β} {gs : List (α × β)} (j : α) :
    j ∈ (joinInsert join k x gs).map Prod.fst ↔ j = k ∨ j ∈ gs.map Prod.fst := by
  induction gs with
  | nil => simp [joinInsert]
  | cons g gs ih =>
    obtain ⟨j', y⟩ := g
    unfold joinInsert
    split
    · next hj =>
      subst hj
      simp
    · rw [List.map_cons, List.mem_cons, ih, List.map_cons, List.mem_cons]
      exact or_left_comm

theorem nodup_joinInsert {join : β → β → β} {k : α} {x : β} {gs : List (α × β)}
    (h : (gs.map Prod.fst).Nodup) : ((joinInsert join k x gs).map Prod.fst).Nodup := by
  induction gs with
  | nil => simp [joinInsert]
  | cons g gs ih =>
    obtain ⟨j, y⟩ := g
    obtain ⟨hj, hgs⟩ := List.nodup_cons.mp h
    unfold joinInsert
    split
    · exact h
    · next hne =>
      refine List.nodup_cons.mpr ⟨fun hmem => ?_, ih hgs⟩
      rcases (joinInsert_keys j).mp hmem with heq | hmem
      · exact hne heq
      · exact hj hmem

/-! ## Collecting -/

theorem mem_groupInsert {k : α} {x : β} {gs : List (α × List β)} {k' : α} {y : β} :
    (∃ ys, (k', ys) ∈ groupInsert k x gs ∧ y ∈ ys) ↔
      (k' = k ∧ y = x) ∨ ∃ ys, (k', ys) ∈ gs ∧ y ∈ ys := by
  induction gs with
  | nil => simp [groupInsert]
  | cons g gs ih =>
    obtain ⟨j, xs⟩ := g
    unfold groupInsert
    split
    · next hj =>
      subst hj
      simp only [List.mem_cons, Prod.mk.injEq]
      constructor
      · rintro ⟨ys, ⟨rfl, rfl⟩ | h, hy⟩
        · rcases List.mem_cons.mp hy with rfl | hy
          · exact Or.inl ⟨rfl, rfl⟩
          · exact Or.inr ⟨xs, Or.inl ⟨rfl, rfl⟩, hy⟩
        · exact Or.inr ⟨ys, Or.inr h, hy⟩
      · rintro (⟨rfl, rfl⟩ | ⟨ys, ⟨rfl, rfl⟩ | h, hy⟩)
        · exact ⟨y :: xs, Or.inl ⟨rfl, rfl⟩, List.mem_cons_self⟩
        · exact ⟨x :: ys, Or.inl ⟨rfl, rfl⟩, List.mem_cons_of_mem _ hy⟩
        · exact ⟨ys, Or.inr h, hy⟩
    · simp only [List.mem_cons, Prod.mk.injEq, or_and_right, exists_or, ih]
      exact or_left_comm

/-- The groups hold exactly the values, each under its key. -/
theorem mem_groupAll {l : List (α × β)} {k : α} {x : β} :
    (∃ xs, (k, xs) ∈ groupAll l ∧ x ∈ xs) ↔ (k, x) ∈ l := by
  induction l with
  | nil => simp [groupAll]
  | cons c rest ih =>
    obtain ⟨k', x'⟩ := c
    rw [groupAll, mem_groupInsert, ih, List.mem_cons, Prod.mk.injEq]

/-- The values of a group stand in the order of the list. -/
theorem groupAll_sublist {l : List (α × β)} {k : α} {xs : List β} (h : (k, xs) ∈ groupAll l) :
    xs.Sublist (l.map Prod.snd) := by
  induction l generalizing k xs with
  | nil => simp [groupAll] at h
  | cons c rest ih =>
    obtain ⟨j, x⟩ := c
    have step : ∀ gs : List (α × List β), (k, xs) ∈ groupInsert j x gs →
        (k, xs) ∈ gs ∨ xs = [x] ∨ ∃ ys, (k, ys) ∈ gs ∧ xs = x :: ys := by
      intro gs
      induction gs with
      | nil =>
        intro h
        simp only [groupInsert, List.mem_singleton, Prod.mk.injEq] at h
        exact Or.inr (Or.inl h.2)
      | cons g gs ihg =>
        obtain ⟨j', ys⟩ := g
        intro h
        unfold groupInsert at h
        split at h
        · rcases List.mem_cons.mp h with h | h
          · cases h
            exact Or.inr (Or.inr ⟨ys, List.mem_cons_self, rfl⟩)
          · exact Or.inl (List.mem_cons_of_mem _ h)
        · rcases List.mem_cons.mp h with h | h
          · cases h
            exact Or.inl List.mem_cons_self
          · rcases ihg h with h | h | ⟨zs, hz, h⟩
            · exact Or.inl (List.mem_cons_of_mem _ h)
            · exact Or.inr (Or.inl h)
            · exact Or.inr (Or.inr ⟨zs, List.mem_cons_of_mem _ hz, h⟩)
    rcases step _ h with h | rfl | ⟨ys, hy, rfl⟩
    · exact (ih h).cons x
    · exact List.Sublist.cons_cons x (List.nil_sublist _)
    · exact (ih hy).cons_cons x

/-- Collecting is combining, with the new value in front. -/
theorem groupInsert_eq {k : α} {x : β} (gs : List (α × List β)) :
    groupInsert k x gs = joinInsert (fun xs new => new ++ xs) k [x] gs := by
  induction gs with
  | nil => rfl
  | cons g gs ih =>
    rw [groupInsert, joinInsert, ih]
    rfl

theorem ne_nil_of_mem_groupAll {l : List (α × β)} : ∀ g ∈ groupAll l, g.2 ≠ [] := by
  induction l with
  | nil => simp [groupAll]
  | cons c rest ih =>
    rw [groupAll, groupInsert_eq]
    exact forall_joinInsert (P := fun g => g.2 ≠ [])
      (fun _ _ _ _ hnew h => hnew (List.append_eq_nil_iff.mp h).1) (by simp) ih

/-- Each key has one group. -/
theorem nodup_groupAll (l : List (α × β)) : ((groupAll l).map Prod.fst).Nodup := by
  induction l with
  | nil => exact List.nodup_nil
  | cons c rest ih =>
    rw [groupAll, groupInsert_eq]
    exact nodup_joinInsert ih

end Grouping
