import LibHSC.Support
import Mathlib.Data.List.Sort
import Mathlib.Data.Int.Order.Basic

/-!
Finite sets of integers: the leaf theory's values. A set is the ascending,
duplicate-free run of its elements; the empty run is absence. The three set
operations are the merges of the standard library on sorted runs.
-/

namespace LibHSC

/-- The range of a machine value. -/
def InInt32 (v : Int) : Prop := -2147483648 ≤ v ∧ v ≤ 2147483647

instance (v : Int) : Decidable (InInt32 v) := inferInstanceAs (Decidable (_ ∧ _))

/-- The elements of a set, ascending. -/
abbrev IntSet := List Int

namespace IntSet

/-- Sorted strictly, every element a machine value. -/
def Canon (s : IntSet) : Prop := s.Pairwise (· < ·) ∧ ∀ v ∈ s, InInt32 v

instance (s : IntSet) : Decidable (Canon s) := inferInstanceAs (Decidable (_ ∧ _))

def den (s : IntSet) : Set Int := {v | v ∈ s}

/-! ## The merges -/

def keepIf (k : Bool) (v : Int) (rest : IntSet) : IntSet := if k then v :: rest else rest

/-- The walk over the right run while the left one stands at `x`; `next` goes
on with the left run's tail. -/
def mergeAt (left right both : Bool) (x : Int) (next : IntSet → IntSet) : IntSet → IntSet
  | [] => keepIf left x (next [])
  | y :: ys =>
    if x < y then keepIf left x (next (y :: ys))
    else if y < x then keepIf right y (mergeAt left right both x next ys)
    else keepIf both x (next ys)

/-- The merge of two sorted runs that keeps the elements of the left run only,
of the right run only, and of both, as the three flags say. -/
def merge (left right both : Bool) : IntSet → IntSet → IntSet
  | [], ys => if right then ys else []
  | x :: xs, ys => mergeAt left right both x (merge left right both xs) ys

def setUnion : IntSet → IntSet → IntSet := merge true true true

def setIntersection : IntSet → IntSet → IntSet := merge false false true

def setDifference : IntSet → IntSet → IntSet := merge true false false

theorem mem_keepIf (k : Bool) (v x : Int) (rest : IntSet) :
    v ∈ keepIf k x rest ↔ (k = true ∧ v = x) ∨ v ∈ rest := by
  cases k <;> simp [keepIf]

/-- Which elements a merge keeps, and that it stays above any bound of both
runs. -/
private theorem merge_spec (l r b : Bool) :
    ∀ xs ys : IntSet, xs.Pairwise (· < ·) → ys.Pairwise (· < ·) →
      (merge l r b xs ys).Pairwise (· < ·) ∧
      ∀ v, v ∈ merge l r b xs ys ↔ (l = true ∧ v ∈ xs ∧ v ∉ ys) ∨
        (r = true ∧ v ∉ xs ∧ v ∈ ys) ∨ (b = true ∧ v ∈ xs ∧ v ∈ ys) := by
  intro xs
  induction xs with
  | nil =>
    intro ys _ hy
    cases r <;> simp [merge, hy]
  | cons x xs ihx =>
    intro ys hx
    obtain ⟨hxlt, hxs⟩ := List.pairwise_cons.mp hx
    have hxx : x ∉ xs := fun h => lt_irrefl _ (hxlt x h)
    induction ys with
    | nil =>
      intro _
      obtain ⟨hs, hm⟩ := ihx [] hxs List.Pairwise.nil
      simp only [merge, mergeAt]
      refine ⟨?_, ?_⟩
      · cases l
        · simpa [keepIf] using hs
        · simp only [keepIf, ↓reduceIte, List.pairwise_cons]
          refine ⟨?_, hs⟩
          intro v hv
          have := (hm v).mp hv
          simp only [List.not_mem_nil, and_false, not_false_eq_true, and_true, or_false] at this
          exact hxlt v this.2
      · intro v
        rw [mem_keepIf, hm v]
        simp only [List.not_mem_nil, List.mem_cons]
        tauto
    | cons y ys ihy =>
      intro hy
      obtain ⟨hylt, hys⟩ := List.pairwise_cons.mp hy
      have hyy : y ∉ ys := fun h => lt_irrefl _ (hylt y h)
      simp only [merge, mergeAt]
      by_cases h1 : x < y
      · obtain ⟨hs, hm⟩ := ihx (y :: ys) hxs hy
        have hxy : x ∉ y :: ys := by
          intro h
          rcases List.mem_cons.mp h with h | h
          · omega
          · exact absurd (hylt x h) (by omega)
        have hlow : ∀ v ∈ merge l r b xs (y :: ys), x < v := by
          intro v hv
          rcases (hm v).mp hv with ⟨-, h, -⟩ | ⟨-, -, h⟩ | ⟨-, h, -⟩
          · exact hxlt v h
          · rcases List.mem_cons.mp h with h | h
            · omega
            · exact lt_trans h1 (hylt v h)
          · exact hxlt v h
        rw [if_pos h1]
        refine ⟨?_, ?_⟩
        · cases l
          · simpa [keepIf] using hs
          · simpa [keepIf, List.pairwise_cons] using ⟨hlow, hs⟩
        · intro v
          rw [mem_keepIf, hm v]
          by_cases hv : v = x
          · subst hv
            simp [hxx, hxy]
          · simp [List.mem_cons, hv]
      · by_cases h2 : y < x
        · obtain ⟨hs, hm⟩ := ihy hys
          have hyx : y ∉ x :: xs := by
            intro h
            rcases List.mem_cons.mp h with h | h
            · omega
            · exact absurd (hxlt y h) (by omega)
          have hlow : ∀ v ∈ merge l r b (x :: xs) ys, y < v := by
            intro v hv
            have hin : v ∈ x :: xs ∨ v ∈ ys := by
              rcases (hm v).mp hv with ⟨-, h, -⟩ | ⟨-, -, h⟩ | ⟨-, h, -⟩ <;> tauto
            rcases hin with h | h
            · rcases List.mem_cons.mp h with h | h
              · omega
              · exact lt_trans h2 (hxlt v h)
            · exact hylt v h
          rw [if_neg h1, if_pos h2]
          change (keepIf r y (merge l r b (x :: xs) ys)).Pairwise _ ∧ _
          refine ⟨?_, ?_⟩
          · cases r
            · simpa [keepIf] using hs
            · simpa only [keepIf, ↓reduceIte, List.pairwise_cons] using ⟨hlow, hs⟩
          · intro v
            have hmv := hm v
            rw [mem_keepIf]
            change (r = true ∧ v = y ∨ v ∈ merge l r b (x :: xs) ys) ↔ _
            rw [hmv]
            by_cases hv : v = y
            · subst hv
              simp [hyx, hyy]
            · simp [List.mem_cons, hv]
        · have hxy : x = y := by omega
          subst hxy
          obtain ⟨hs, hm⟩ := ihx ys hxs hys
          have hlow : ∀ v ∈ merge l r b xs ys, x < v := by
            intro v hv
            rcases (hm v).mp hv with ⟨-, h, -⟩ | ⟨-, -, h⟩ | ⟨-, h, -⟩
            · exact hxlt v h
            · exact hylt v h
            · exact hxlt v h
          rw [if_neg h1, if_neg h2]
          refine ⟨?_, ?_⟩
          · cases b
            · simpa [keepIf] using hs
            · simpa [keepIf, List.pairwise_cons] using ⟨hlow, hs⟩
          · intro v
            rw [mem_keepIf, hm v]
            by_cases hv : v = x
            · subst hv
              simp [hxx, hyy]
            · simp [List.mem_cons, hv]

theorem merge_sorted {l r b : Bool} {xs ys : IntSet} (hx : xs.Pairwise (· < ·))
    (hy : ys.Pairwise (· < ·)) : (merge l r b xs ys).Pairwise (· < ·) :=
  (merge_spec l r b xs ys hx hy).1

theorem mem_merge {l r b : Bool} {xs ys : IntSet} (hx : xs.Pairwise (· < ·))
    (hy : ys.Pairwise (· < ·)) (v : Int) :
    v ∈ merge l r b xs ys ↔ (l = true ∧ v ∈ xs ∧ v ∉ ys) ∨
      (r = true ∧ v ∉ xs ∧ v ∈ ys) ∨ (b = true ∧ v ∈ xs ∧ v ∈ ys) :=
  (merge_spec l r b xs ys hx hy).2 v

theorem merge_canon {l r b : Bool} {xs ys : IntSet} (hx : Canon xs) (hy : Canon ys) :
    Canon (merge l r b xs ys) := by
  refine ⟨merge_sorted hx.1 hy.1, ?_⟩
  intro v hv
  rcases (mem_merge hx.1 hy.1 v).mp hv with ⟨-, h, -⟩ | ⟨-, -, h⟩ | ⟨-, h, -⟩
  · exact hx.2 v h
  · exact hy.2 v h
  · exact hx.2 v h

/-- A sorted run is determined by its elements. -/
theorem ext_of_sorted {xs ys : IntSet} (hx : xs.Pairwise (· < ·)) (hy : ys.Pairwise (· < ·))
    (h : ∀ v, v ∈ xs ↔ v ∈ ys) : xs = ys := by
  have hnx : xs.Nodup := hx.imp fun h => ne_of_lt h
  have hny : ys.Nodup := hy.imp fun h => ne_of_lt h
  exact List.Perm.eq_of_pairwise' hx hy ((List.perm_ext_iff_of_nodup hnx hny).mpr h)

/-! ## The theory's set operations -/

def join (a b : IntSet) : IntSet := if a = b then a else setUnion a b

def meet (a b : IntSet) : IntSet := if a = b then a else setIntersection a b

def minus (a b : IntSet) : IntSet := if a = b then [] else setDifference a b

/-- The leaf theory as a support algebra, `num` the ids of its table. -/
def algebra (num : IntSet → Nat) : SupportAlgebra IntSet where
  none := []
  num := num
  join := join
  meet := meet
  minus := minus

theorem canon_join {a b : IntSet} (ha : Canon a) (hb : Canon b) : Canon (join a b) := by
  unfold join
  split
  · exact ha
  · exact merge_canon ha hb

theorem canon_meet {a b : IntSet} (ha : Canon a) (hb : Canon b) : Canon (meet a b) := by
  unfold meet
  split
  · exact ha
  · exact merge_canon ha hb

theorem canon_nil : Canon [] := ⟨List.Pairwise.nil, by simp⟩

theorem canon_minus {a b : IntSet} (ha : Canon a) (hb : Canon b) : Canon (minus a b) := by
  unfold minus
  split
  · exact canon_nil
  · exact merge_canon ha hb

theorem mem_join {a b : IntSet} (ha : Canon a) (hb : Canon b) (v : Int) :
    v ∈ join a b ↔ v ∈ a ∨ v ∈ b := by
  unfold join
  split
  · simp_all
  · rw [setUnion, mem_merge ha.1 hb.1]
    tauto

theorem mem_meet {a b : IntSet} (ha : Canon a) (hb : Canon b) (v : Int) :
    v ∈ meet a b ↔ v ∈ a ∧ v ∈ b := by
  unfold meet
  split
  · simp_all
  · rw [setIntersection, mem_merge ha.1 hb.1]
    simp

theorem mem_minus {a b : IntSet} (ha : Canon a) (hb : Canon b) (v : Int) :
    v ∈ minus a b ↔ v ∈ a ∧ v ∉ b := by
  unfold minus
  split
  · simp_all
  · rw [setDifference, mem_merge ha.1 hb.1]
    simp

theorem laws {num : IntSet → Nat} (hn : Function.Injective num) :
    SupportLaws (algebra num) den Canon where
  num_inj := hn
  canon_none := canon_nil
  den_none := by ext v; simp [den, algebra]
  ext := fun ha hb h => ext_of_sorted ha.1 hb.1 fun v => Set.ext_iff.mp h v
  canon_join := canon_join
  den_join := fun ha hb => Set.ext fun v => mem_join ha hb v
  canon_meet := canon_meet
  den_meet := fun ha hb => Set.ext fun v => mem_meet ha hb v
  canon_minus := canon_minus
  den_minus := fun ha hb => Set.ext fun v => mem_minus ha hb v

end IntSet

end LibHSC
