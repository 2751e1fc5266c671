import Mathlib.Data.Set.Prod
import Mathlib.Data.List.Pairwise
import Mathlib.Data.Set.BooleanAlgebra
import Mathlib.Order.CompletePartialOrder

/-!
Finite unions of rectangles `A × B`, and the one decomposition of such a union
into rectangles with disjoint first sides and distinct second sides.

* `cover` is the set a list of rectangles denotes, `slice_eq_of_mem` reads a
  section off a disjoint list;
* `Decomposition` is the normal form, and `Decomposition.mem_iff` proves that
  two normal forms of one set have the same members.
-/

namespace LibHSC.Rectangles

variable {α β : Type*}

/-- The union of the rectangles of a list. -/
def cover (l : List (Set α × Set β)) : Set (α × β) :=
  {w | ∃ r ∈ l, w.1 ∈ r.1 ∧ w.2 ∈ r.2}

/-- The points standing over `a` in a set of pairs. -/
def slice (s : Set (α × β)) (a : α) : Set β := {b | (a, b) ∈ s}

/-- Sides non-empty, first sides pairwise disjoint, second sides pairwise
distinct. -/
structure Decomposition (l : List (Set α × Set β)) : Prop where
  fst_nonempty : ∀ r ∈ l, r.1.Nonempty
  snd_nonempty : ∀ r ∈ l, r.2.Nonempty
  disjoint : l.Pairwise fun r r' => Disjoint r.1 r'.1
  distinct : l.Pairwise fun r r' => r.2 ≠ r'.2

@[simp] theorem cover_nil : cover ([] : List (Set α × Set β)) = ∅ := by
  ext w
  simp [cover]

@[simp] theorem cover_cons (r : Set α × Set β) (l : List (Set α × Set β)) :
    cover (r :: l) = r.1 ×ˢ r.2 ∪ cover l := by
  ext w
  simp [cover]

@[simp] theorem cover_append (l l' : List (Set α × Set β)) :
    cover (l ++ l') = cover l ∪ cover l' := by
  ext w
  simp only [cover, List.mem_append, Set.mem_ofPred_eq, Set.mem_union]
  constructor
  · rintro ⟨r, hr | hr, hw⟩
    · exact Or.inl ⟨r, hr, hw⟩
    · exact Or.inr ⟨r, hr, hw⟩
  · rintro (⟨r, hr, hw⟩ | ⟨r, hr, hw⟩)
    · exact ⟨r, Or.inl hr, hw⟩
    · exact ⟨r, Or.inr hr, hw⟩

/-- Two members of a list whose first sides are pairwise disjoint are equal as
soon as their first sides meet. -/
theorem eq_of_mem_of_mem {l : List (Set α × Set β)}
    (hd : l.Pairwise fun r r' => Disjoint r.1 r'.1) {r r' : Set α × Set β}
    (hr : r ∈ l) (hr' : r' ∈ l) {a : α} (ha : a ∈ r.1) (ha' : a ∈ r'.1) : r = r' := by
  by_contra hne
  have hsym : Std.Symm fun r r' : Set α × Set β => Disjoint r.1 r'.1 :=
    ⟨fun _ _ h => h.symm⟩
  have hdis := List.Pairwise.forall hd hr hr' hne
  exact Set.disjoint_left.mp hdis ha ha'

theorem slice_eq_of_mem {l : List (Set α × Set β)}
    (hd : l.Pairwise fun r r' => Disjoint r.1 r'.1) {r : Set α × Set β}
    (hr : r ∈ l) {a : α} (ha : a ∈ r.1) : slice (cover l) a = r.2 := by
  ext b
  constructor
  · rintro ⟨r', hr', ha', hb⟩
    rw [eq_of_mem_of_mem hd hr hr' ha ha']
    exact hb
  · intro hb
    exact ⟨r, hr, ha, hb⟩

/-- The first half of uniqueness: a rectangle of one decomposition is inside
the rectangle of the other that has the same second side. -/
private theorem exists_superset {l l' : List (Set α × Set β)} (hl : Decomposition l)
    (hl' : Decomposition l') (he : cover l = cover l') {r : Set α × Set β} (hr : r ∈ l) :
    ∃ r' ∈ l', r'.2 = r.2 ∧ r.1 ⊆ r'.1 := by
  have hover : ∀ a ∈ r.1, ∃ r' ∈ l', a ∈ r'.1 ∧ r'.2 = r.2 := by
    intro a ha
    obtain ⟨b, hb⟩ := hl.snd_nonempty r hr
    have hw : (a, b) ∈ cover l' := he ▸ ⟨r, hr, ha, hb⟩
    obtain ⟨r', hr', ha', -⟩ := hw
    refine ⟨r', hr', ha', ?_⟩
    rw [← slice_eq_of_mem hl'.disjoint hr' ha', ← he, slice_eq_of_mem hl.disjoint hr ha]
  obtain ⟨a, ha⟩ := hl.fst_nonempty r hr
  obtain ⟨r', hr', -, h2⟩ := hover a ha
  refine ⟨r', hr', h2, ?_⟩
  intro a' ha'
  obtain ⟨r'', hr'', hin, h2'⟩ := hover a' ha'
  by_cases heq : r' = r''
  · exact heq ▸ hin
  · have hsym : Std.Symm fun r r' : Set α × Set β => r.2 ≠ r'.2 := ⟨fun _ _ h => h.symm⟩
    have hdiff := List.Pairwise.forall hl'.distinct hr' hr'' heq
    exact absurd (h2.trans h2'.symm) hdiff

/-- Uniqueness of the decomposition: one set, one set of rectangles. -/
theorem Decomposition.mem_iff {l l' : List (Set α × Set β)} (hl : Decomposition l)
    (hl' : Decomposition l') (he : cover l = cover l') (r : Set α × Set β) :
    r ∈ l ↔ r ∈ l' := by
  have half : ∀ {m m' : List (Set α × Set β)}, Decomposition m → Decomposition m' →
      cover m = cover m' → r ∈ m → r ∈ m' := by
    intro m m' hm hm' hem hr
    obtain ⟨r', hr', h2, h1⟩ := exists_superset hm hm' hem hr
    obtain ⟨r'', hr'', h2', h1'⟩ := exists_superset hm' hm hem.symm hr'
    have hsame : r = r'' := by
      obtain ⟨a, ha⟩ := hm.fst_nonempty r hr
      exact eq_of_mem_of_mem hm.disjoint hr hr'' ha (h1' (h1 ha))
    subst hsame
    have : r = r' := Prod.ext (Set.Subset.antisymm h1 h1') h2'
    exact this ▸ hr'
  exact ⟨half hl hl' he, half hl' hl he.symm⟩

end LibHSC.Rectangles
