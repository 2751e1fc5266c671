import Mathlib.Data.Finset.Card
import Mathlib.Data.List.Basic

/-!
Partitions given as functions into block numbers, and flat tables. A partition
that is finer than another and has no more blocks is the same partition; this is
what lets a refinement stop on the number of its blocks.
-/

namespace Refinement

section Blocks

variable {α β γ : Type} [DecidableEq β] [DecidableEq γ] {s : Finset α} {f : α → β} {g : α → γ}

/-- Two elements in one block of `f` are in one block of `g`. -/
def Finer (s : Finset α) (f : α → β) (g : α → γ) : Prop :=
  ∀ c ∈ s, ∀ d ∈ s, f c = f d → g c = g d

/-- The blocks of the coarser partition are an image of those of the finer one. -/
theorem Finer.exists_image (h : Finer s f g) : ∃ φ : β → Option γ,
    (∀ c ∈ s, φ (f c) = some (g c)) ∧ (s.image g).image some = (s.image f).image φ := by
  classical
  let φ : β → Option γ := fun b =>
    if hb : ∃ c ∈ s, f c = b then some (g hb.choose) else none
  have hφ : ∀ c ∈ s, φ (f c) = some (g c) := by
    intro c hc
    have hb : ∃ c' ∈ s, f c' = f c := ⟨c, hc, rfl⟩
    have hval : φ (f c) = some (g hb.choose) := dif_pos hb
    rw [hval, h _ hb.choose_spec.1 c hc hb.choose_spec.2]
  refine ⟨φ, hφ, ?_⟩
  rw [Finset.image_image, Finset.image_image]
  exact Finset.image_congr fun c hc => (hφ c hc).symm

theorem Finer.card_le (h : Finer s f g) : (s.image g).card ≤ (s.image f).card := by
  obtain ⟨φ, -, himage⟩ := h.exists_image
  calc (s.image g).card = ((s.image g).image some).card :=
        (Finset.card_image_of_injective _ (Option.some_injective γ)).symm
    _ = ((s.image f).image φ).card := by rw [himage]
    _ ≤ (s.image f).card := Finset.card_image_le

/-- A finer partition with no more blocks is the same partition. -/
theorem Finer.symm_of_card (h : Finer s f g) (hcard : (s.image f).card ≤ (s.image g).card) :
    Finer s g f := by
  obtain ⟨φ, hφ, himage⟩ := h.exists_image
  have heq : ((s.image f).image φ).card = (s.image f).card := by
    refine le_antisymm Finset.card_image_le ?_
    rw [← himage, Finset.card_image_of_injective _ (Option.some_injective γ)]
    exact hcard
  intro c hc d hd hg
  refine Finset.card_image_iff.mp heq (Finset.mem_image_of_mem f hc)
    (Finset.mem_image_of_mem f hd) ?_
  rw [hφ c hc, hφ d hd, hg]

end Blocks

/-- A list without its duplicates has none. By induction on the length: what is
left of the tail is shorter. -/
theorem nodup_eraseDups {β : Type} [BEq β] [LawfulBEq β] (l : List β) : l.eraseDups.Nodup := by
  induction hn : l.length using Nat.strongRecOn generalizing l with
  | ind n ih =>
    cases l with
    | nil => simp
    | cons a l =>
      have hlt : (l.filter fun b => !b == a).length < n := by
        rw [← hn, List.length_cons]
        exact Nat.lt_succ_of_le (List.length_filter_le _ _)
      rw [List.eraseDups_cons, List.nodup_cons, List.mem_eraseDups]
      exact ⟨by simp, ih _ hlt _ rfl⟩

section Flat

variable {α β : Type} {n : Nat}

/-- The entry of a flat table: one row of `n` columns per element. -/
theorem getElem?_flatMap_rows {row : α → List β} (hrow : ∀ x, (row x).length = n) (xs : List α)
    {i a : Nat} (ha : a < n) :
    (xs.flatMap row)[i * n + a]? = (xs[i]?).bind fun x => (row x)[a]? := by
  induction xs generalizing i with
  | nil => simp
  | cons x xs ih =>
    rw [List.flatMap_cons]
    cases i with
    | zero => simp [List.getElem?_append_left, hrow, ha]
    | succ i =>
      have hge : n ≤ (i + 1) * n + a := by
        rw [Nat.succ_mul]
        omega
      have hsub : (i + 1) * n + a - n = i * n + a := by
        rw [Nat.succ_mul]
        omega
      rw [List.getElem?_append_right (by rw [hrow]; exact hge), hrow, hsub, ih]
      simp

theorem getElem?_flatMap_range (f : α → Nat → β) (xs : List α) {i a : Nat} (ha : a < n) :
    (xs.flatMap fun x => (List.range n).map (f x))[i * n + a]? = (xs[i]?).map fun x => f x a := by
  rw [getElem?_flatMap_rows (by simp) xs ha]
  cases xs[i]? with
  | none => rfl
  | some x => simp [ha]

theorem length_flatMap_rows {row : α → List β} (hrow : ∀ x, (row x).length = n) (xs : List α) :
    (xs.flatMap row).length = xs.length * n := by
  induction xs with
  | nil => simp
  | cons x xs ih =>
    rw [List.flatMap_cons, List.length_append, ih, hrow, List.length_cons, Nat.succ_mul,
      Nat.add_comm]

end Flat

end Refinement
