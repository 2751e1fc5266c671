import LibHSC.Support
import LibHSC.Library.Rectangles
import Mathlib.Data.List.Perm.Basic
import Mathlib.Data.List.Nodup

/-!
Nodes: the arcs of a diagram over a head and a tail sort, what a list of arcs
denotes, and the two invariants, of an accumulator (`Entries`) and of a finished
node (`NodeCanon`).
-/

namespace LibHSC

/-- One arc of a node: a prime and the sub it leads to. -/
structure Arc (C D : Type) where
  prime : C
  sub : D
  deriving DecidableEq, Repr

variable {C D : Type}

/-! ## What a list of arcs denotes -/

section Denotation

variable {V W : Type} (denH : C → Set V) (denT : D → Set W)

/-- The points of a list of arcs: a head word and the sub it leads to. -/
def pts (l : List (Arc C D)) : Set (V × D) := {p | ∃ a ∈ l, p.1 ∈ denH a.prime ∧ a.sub = p.2}

/-- The head words some arc holds. -/
def dom (l : List (Arc C D)) : Set V := {x | ∃ a ∈ l, x ∈ denH a.prime}

/-- The words of a list of arcs: the union of its rectangles. -/
def nodeDen (l : List (Arc C D)) : Set (V × W) :=
  Rectangles.cover (l.map fun a => (denH a.prime, denT a.sub))

def DisjointPrimes (l : List (Arc C D)) : Prop :=
  l.Pairwise fun a b => Disjoint (denH a.prime) (denH b.prime)

theorem mem_nodeDen {l : List (Arc C D)} {w : V × W} :
    w ∈ nodeDen denH denT l ↔ ∃ a ∈ l, w.1 ∈ denH a.prime ∧ w.2 ∈ denT a.sub := by
  simp [nodeDen, Rectangles.cover]

theorem mem_nodeDen_pts {l : List (Arc C D)} {w : V × W} :
    w ∈ nodeDen denH denT l ↔ ∃ s, (w.1, s) ∈ pts denH l ∧ w.2 ∈ denT s := by
  rw [mem_nodeDen]
  constructor
  · rintro ⟨a, ha, h1, h2⟩
    exact ⟨a.sub, ⟨a, ha, h1, rfl⟩, h2⟩
  · rintro ⟨s, ⟨a, ha, h1, rfl⟩, h2⟩
    exact ⟨a, ha, h1, h2⟩

@[simp] theorem nodeDen_nil : nodeDen denH denT ([] : List (Arc C D)) = ∅ := by
  simp [nodeDen]

@[simp] theorem nodeDen_cons (a : Arc C D) (l : List (Arc C D)) :
    nodeDen denH denT (a :: l) = denH a.prime ×ˢ denT a.sub ∪ nodeDen denH denT l := by
  simp [nodeDen]

@[simp] theorem nodeDen_append (l l' : List (Arc C D)) :
    nodeDen denH denT (l ++ l') = nodeDen denH denT l ∪ nodeDen denH denT l' := by
  simp [nodeDen]

@[simp] theorem dom_nil : dom denH ([] : List (Arc C D)) = ∅ := by
  ext x
  simp [dom]

@[simp] theorem dom_cons (a : Arc C D) (l : List (Arc C D)) :
    dom denH (a :: l) = denH a.prime ∪ dom denH l := by
  ext x
  simp [dom]

@[simp] theorem dom_append (l l' : List (Arc C D)) :
    dom denH (l ++ l') = dom denH l ∪ dom denH l' := by
  induction l with
  | nil => simp
  | cons a l ih => simp [ih, Set.union_assoc]

theorem mem_dom_pts {l : List (Arc C D)} {x : V} :
    x ∈ dom denH l ↔ ∃ s, (x, s) ∈ pts denH l := by
  constructor
  · rintro ⟨a, ha, hx⟩
    exact ⟨a.sub, a, ha, hx, rfl⟩
  · rintro ⟨s, a, ha, hx, -⟩
    exact ⟨a, ha, hx⟩

theorem mem_pts_nil {p : V × D} : ¬ p ∈ pts denH ([] : List (Arc C D)) := by
  simp [pts]

theorem mem_pts_cons {a : Arc C D} {l : List (Arc C D)} {p : V × D} :
    p ∈ pts denH (a :: l) ↔ (p.1 ∈ denH a.prime ∧ a.sub = p.2) ∨ p ∈ pts denH l := by
  simp [pts]

theorem mem_dom_of_mem_pts {l : List (Arc C D)} {p : V × D} (h : p ∈ pts denH l) :
    p.1 ∈ dom denH l :=
  (mem_dom_pts denH).mpr ⟨p.2, h⟩

theorem DisjointPrimes.eq_of_mem {l : List (Arc C D)} (h : DisjointPrimes denH l) {a b : Arc C D}
    (ha : a ∈ l) (hb : b ∈ l) {v : V} (hva : v ∈ denH a.prime) (hvb : v ∈ denH b.prime) :
    a = b := by
  induction l with
  | nil => exact absurd ha List.not_mem_nil
  | cons x xs ih =>
    obtain ⟨hx, hxs⟩ := List.pairwise_cons.mp h
    rcases List.mem_cons.mp ha with rfl | ha'
    · rcases List.mem_cons.mp hb with rfl | hb'
      · rfl
      · exact absurd hvb (Set.disjoint_left.mp (hx b hb') hva)
    · rcases List.mem_cons.mp hb with rfl | hb'
      · exact absurd hva (Set.disjoint_left.mp (hx a ha') hvb)
      · exact ih hxs ha' hb'

@[simp] theorem disjointPrimes_nil : DisjointPrimes denH ([] : List (Arc C D)) :=
  List.Pairwise.nil

@[simp] theorem disjointPrimes_cons (a : Arc C D) (l : List (Arc C D)) :
    DisjointPrimes denH (a :: l) ↔
      Disjoint (denH a.prime) (dom denH l) ∧ DisjointPrimes denH l := by
  unfold DisjointPrimes
  rw [List.pairwise_cons]
  refine and_congr_left fun _ => ?_
  constructor
  · intro h
    rw [Set.disjoint_left]
    rintro x hx ⟨b, hb, hxb⟩
    exact Set.disjoint_left.mp (h b hb) hx hxb
  · intro h b hb
    rw [Set.disjoint_left] at h ⊢
    exact fun x hx hxb => h hx ⟨b, hb, hxb⟩

@[simp] theorem disjointPrimes_append (l l' : List (Arc C D)) :
    DisjointPrimes denH (l ++ l') ↔
      DisjointPrimes denH l ∧ DisjointPrimes denH l' ∧ Disjoint (dom denH l) (dom denH l') := by
  induction l with
  | nil => simp
  | cons a l ih =>
    simp only [List.cons_append, disjointPrimes_cons, dom_append, dom_cons, ih,
      Set.disjoint_union_left, Set.disjoint_union_right]
    tauto

end Denotation

/-! ## The invariants -/

section Correctness

variable {V W : Type} {H : SupportAlgebra C} {T : SupportAlgebra D}
  {denH : C → Set V} {denT : D → Set W} {CanonH : C → Prop} {CanonT : D → Prop}

/-- Both components of every arc are canonical codes. -/
def CanonArcs (CanonH : C → Prop) (CanonT : D → Prop) (l : List (Arc C D)) : Prop :=
  ∀ a ∈ l, CanonH a.prime ∧ CanonT a.sub

/-- The accumulator's invariant. A prime may be absent (consumed), a sub may
not. -/
structure Entries (T : SupportAlgebra D) (denH : C → Set V) (CanonH : C → Prop)
    (CanonT : D → Prop) (l : List (Arc C D)) : Prop where
  canon : CanonArcs CanonH CanonT l
  sub_ne : ∀ a ∈ l, a.sub ≠ T.none
  disjoint : DisjointPrimes denH l
  distinct : (l.map Arc.sub).Nodup

/-- The representation invariant of a node: primes non-empty and pairwise
disjoint, subs non-empty and pairwise distinct, arcs in the order of their
primes' codes. -/
structure NodeCanon (H : SupportAlgebra C) (T : SupportAlgebra D) (denH : C → Set V)
    (CanonH : C → Prop) (CanonT : D → Prop) (l : List (Arc C D)) : Prop where
  canon : CanonArcs CanonH CanonT l
  prime_ne : ∀ a ∈ l, a.prime ≠ H.none
  sub_ne : ∀ a ∈ l, a.sub ≠ T.none
  disjoint : DisjointPrimes denH l
  distinct : (l.map Arc.sub).Nodup
  ordered : l.Pairwise fun a b => H.num a.prime < H.num b.prime

@[simp] theorem canonArcs_nil : CanonArcs CanonH CanonT ([] : List (Arc C D)) := by
  simp [CanonArcs]

@[simp] theorem canonArcs_cons (a : Arc C D) (l : List (Arc C D)) :
    CanonArcs CanonH CanonT (a :: l) ↔
      (CanonH a.prime ∧ CanonT a.sub) ∧ CanonArcs CanonH CanonT l := by
  simp [CanonArcs]

@[simp] theorem canonArcs_append (l l' : List (Arc C D)) :
    CanonArcs CanonH CanonT (l ++ l') ↔ CanonArcs CanonH CanonT l ∧ CanonArcs CanonH CanonT l' := by
  simp only [CanonArcs, List.mem_append, or_imp, forall_and]
  tauto

theorem entries_nil : Entries T denH CanonH CanonT ([] : List (Arc C D)) :=
  ⟨canonArcs_nil, by simp, by simp, by simp⟩

/-- A canonical node is determined by its words. -/
theorem nodeCanon_ext (hH : SupportLaws H denH CanonH) (hT : SupportLaws T denT CanonT)
    {l l' : List (Arc C D)} (hl : NodeCanon H T denH CanonH CanonT l)
    (hl' : NodeCanon H T denH CanonH CanonT l')
    (he : nodeDen denH denT l = nodeDen denH denT l') : l = l' := by
  have decomp : ∀ {m : List (Arc C D)}, NodeCanon H T denH CanonH CanonT m →
      Rectangles.Decomposition (m.map fun a => (denH a.prime, denT a.sub)) := by
    intro m hm
    refine ⟨?_, ?_, ?_, ?_⟩
    · simp only [List.mem_map, forall_exists_index, and_imp, forall_apply_eq_imp_iff₂]
      exact fun a ha => hH.nonempty_of_ne_none (hm.canon a ha).1 (hm.prime_ne a ha)
    · simp only [List.mem_map, forall_exists_index, and_imp, forall_apply_eq_imp_iff₂]
      exact fun a ha => hT.nonempty_of_ne_none (hm.canon a ha).2 (hm.sub_ne a ha)
    · exact List.pairwise_map.mpr hm.disjoint
    · refine List.pairwise_map.mpr ((List.pairwise_map.mp hm.distinct).imp_of_mem ?_)
      intro a b ha hb hne hden
      exact hne (hT.ext (hm.canon a ha).2 (hm.canon b hb).2 hden)
  have half : ∀ {m m' : List (Arc C D)}, NodeCanon H T denH CanonH CanonT m →
      NodeCanon H T denH CanonH CanonT m' → nodeDen denH denT m = nodeDen denH denT m' →
      ∀ a ∈ m, a ∈ m' := by
    intro m m' hm hm' hmm a ha
    have hin := ((decomp hm).mem_iff (decomp hm') hmm _).mp (List.mem_map_of_mem ha)
    obtain ⟨b, hb, hab⟩ := List.mem_map.mp hin
    obtain ⟨h1, h2⟩ := Prod.mk.inj hab
    have hp := hH.ext (hm'.canon b hb).1 (hm.canon a ha).1 h1
    have hs := hT.ext (hm'.canon b hb).2 (hm.canon a ha).2 h2
    obtain ⟨bp, bs⟩ := b
    obtain ⟨ap, as⟩ := a
    simp only at hp hs
    rw [← hp, ← hs]
    exact hb
  have nodup : ∀ {m : List (Arc C D)}, NodeCanon H T denH CanonH CanonT m → m.Nodup :=
    fun hm => List.Nodup.of_map _ hm.distinct
  have hperm : l.Perm l' := (List.perm_ext_iff_of_nodup (nodup hl) (nodup hl')).mpr
    fun a => ⟨half hl hl' he a, half hl' hl he.symm a⟩
  exact List.Perm.eq_of_pairwise (fun a b _ _ h h' => absurd h (lt_asymm h')) hl.ordered
    hl'.ordered hperm

end Correctness

end LibHSC
