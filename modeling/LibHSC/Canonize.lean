import LibHSC.Node
import Mathlib.Data.List.Sort
import Mathlib.Data.List.Perm.Basic

/-!
The canonicalizer of diagrams, for a head algebra and a tail algebra given by
their operations alone: a leaf theory and a nested diagram are the same case.

A node is the list of its arcs and the empty list is absence. `sieve` carves an
operand into the accumulator keeping the primes disjoint, `add` keeps the subs
distinct, `finish` orders the arcs by the code of their prime.
-/

namespace LibHSC

variable {C D : Type} [DecidableEq C] [DecidableEq D]

/-! ## The accumulator -/

section Operations

variable (H : SupportAlgebra C) (T : SupportAlgebra D)

/-- The entry of `sub` if there is one, merged with `prime`; else a new last
entry. The search is the linear one: the index of a wide accumulator finds the
same entry. -/
def mergeEntry (sub : D) (prime : C) : List (Arc C D) → List (Arc C D)
  | [] => [⟨prime, sub⟩]
  | a :: as =>
    if a.sub = sub then
      ⟨if a.prime = H.none then prime else H.join a.prime prime, a.sub⟩ :: as
    else a :: mergeEntry sub prime as

/-- `accumulator::add`: absence is dropped before anything. -/
def add (entries : List (Arc C D)) (a : Arc C D) : List (Arc C D) :=
  if a.sub = T.none ∨ a.prime = H.none then entries
  else mergeEntry H a.sub a.prime entries

def addAll (entries : List (Arc C D)) (arcs : List (Arc C D)) : List (Arc C D) :=
  arcs.foldl (add H T) entries

/-- Drop dead entries and order by prime. An empty node is absence. -/
def finish (entries : List (Arc C D)) : List (Arc C D) :=
  (entries.filter fun a => ¬ (a.prime = H.none ∨ a.sub = T.none)).insertionSort
    fun a b => H.num a.prime ≤ H.num b.prime

/-! ## The sieve -/

/-- What the walk of one incoming arc over the entries leaves behind: the
carved entries, the overlaps, and the part of the prime no entry covered. -/
structure Carved (C D : Type) where
  entries : List (Arc C D)
  merged : List (Arc C D)
  rest : C

/-- The inner loop of the sieve, for an incoming arc with sub `sub`. -/
def carve (sub : D) : C → List (Arc C D) → Carved C D
  | rest, [] => ⟨[], [], rest⟩
  | rest, e :: es =>
    if e.prime = H.none then
      -- consumed by an earlier arc
      let r := carve sub rest es
      ⟨e :: r.entries, r.merged, r.rest⟩
    else if rest = H.none then ⟨e :: es, [], rest⟩
    else if e.prime = rest then
      ⟨⟨H.none, e.sub⟩ :: es, [⟨rest, T.join e.sub sub⟩], H.none⟩
    else
      let overlap := H.meet e.prime rest
      if overlap = H.none then
        let r := carve sub rest es
        ⟨e :: r.entries, r.merged, r.rest⟩
      else
        let left := if overlap = e.prime then H.none else H.minus e.prime overlap
        let r := carve sub (H.minus rest overlap) es
        ⟨⟨left, e.sub⟩ :: r.entries, ⟨overlap, T.join e.sub sub⟩ :: r.merged, r.rest⟩

/-- The outer loop of the sieve: entries and the buffer of merged arcs. -/
def sieveLoop : List (Arc C D) → List (Arc C D) → List (Arc C D) → List (Arc C D) × List (Arc C D)
  | entries, merged, [] => (entries, merged)
  | entries, merged, inc :: operand =>
    if inc.prime = H.none ∨ inc.sub = T.none then sieveLoop entries merged operand
    else
      let r := carve H T inc.sub inc.prime entries
      let left := if r.rest = H.none then [] else [⟨r.rest, inc.sub⟩]
      sieveLoop r.entries (merged ++ r.merged ++ left) operand

/-- Sieve one operand into the accumulator. The results are buffered and only
merged afterwards. -/
def sieve (entries operand : List (Arc C D)) : List (Arc C D) :=
  let r := sieveLoop H T entries [] operand
  addAll H T r.1 r.2

/-- Each rectangle is its own operand: nothing is assumed about the bag. -/
def canonize (rectangles : List (Arc C D)) : List (Arc C D) :=
  finish H T (rectangles.foldl (fun acc r => sieve H T acc [r]) [])

def rectangle (prime : C) (sub : D) : List (Arc C D) :=
  if prime = H.none ∨ sub = T.none then [] else [⟨prime, sub⟩]

end Operations


/-! ## Correctness of the accumulator -/

section Correctness

variable {V W : Type} {H : SupportAlgebra C} {T : SupportAlgebra D}
  {denH : C → Set V} {denT : D → Set W} {CanonH : C → Prop} {CanonT : D → Prop}
  (hH : SupportLaws H denH CanonH) (hT : SupportLaws T denT CanonT)

include hH in
private theorem mergePrime_spec {p q : C} (hp : CanonH p) (hq : CanonH q) :
    CanonH (if p = H.none then q else H.join p q) ∧
      denH (if p = H.none then q else H.join p q) = denH p ∪ denH q := by
  split
  · next h =>
    subst h
    exact ⟨hq, by rw [hH.den_none, Set.empty_union]⟩
  · exact ⟨hH.canon_join hp hq, hH.den_join hp hq⟩

variable (denT) in
include hH in
/-- One entry more, or one prime larger: the effect of `mergeEntry`. -/
private theorem mergeEntry_spec {s : D} {p : C} (hp : CanonH p) (hs : CanonT s) (hs0 : s ≠ T.none) :
    ∀ {l : List (Arc C D)}, Entries T denH CanonH CanonT l → Disjoint (dom denH l) (denH p) →
      Entries T denH CanonH CanonT (mergeEntry H s p l) ∧
      dom denH (mergeEntry H s p l) = dom denH l ∪ denH p ∧
      nodeDen denH denT (mergeEntry H s p l) = nodeDen denH denT l ∪ denH p ×ˢ denT s ∧
      (∀ t, t ∈ (mergeEntry H s p l).map Arc.sub → t ∈ l.map Arc.sub ∨ t = s) := by
  intro l
  induction l with
  | nil =>
    intro _ _
    refine ⟨⟨?_, ?_, ?_, ?_⟩, ?_, ?_, ?_⟩ <;> simp [mergeEntry, hp, hs, hs0]
  | cons a l ih =>
    rintro ⟨hc, hn, hd, hu⟩ hdis
    obtain ⟨⟨hpa, hsa⟩, hcl⟩ := (canonArcs_cons a l).mp hc
    obtain ⟨hda, hdl⟩ := (disjointPrimes_cons denH a l).mp hd
    rw [dom_cons, Set.disjoint_union_left] at hdis
    obtain ⟨hua, hul⟩ := List.nodup_cons.mp hu
    by_cases h : a.sub = s
    · obtain ⟨hmc, hmd⟩ := mergePrime_spec hH hpa hp
      simp only [mergeEntry, h, ↓reduceIte]
      refine ⟨⟨?_, ?_, ?_, ?_⟩, ?_, ?_, ?_⟩
      · exact (canonArcs_cons _ _).mpr ⟨⟨hmc, hs⟩, hcl⟩
      · intro b hb
        rcases List.mem_cons.mp hb with rfl | hb
        · exact hs0
        · exact hn b (List.mem_cons_of_mem _ hb)
      · rw [disjointPrimes_cons, hmd, Set.disjoint_union_left]
        exact ⟨⟨hda, hdis.2.symm⟩, hdl⟩
      · simpa [h] using hu
      · simp only [dom_cons, hmd, Set.union_right_comm]
      · simp only [nodeDen_cons, hmd, Set.union_prod, h, Set.union_right_comm]
      · intro t ht
        simp only [List.map_cons, List.mem_cons] at ht ⊢
        tauto
    · obtain ⟨hE, hdom, hden, hsub⟩ :=
        ih ⟨hcl, fun b hb => hn b (List.mem_cons_of_mem _ hb), hdl, hul⟩ hdis.2
      simp only [mergeEntry, h, ↓reduceIte]
      refine ⟨⟨?_, ?_, ?_, ?_⟩, ?_, ?_, ?_⟩
      · exact (canonArcs_cons _ _).mpr ⟨⟨hpa, hsa⟩, hE.canon⟩
      · intro b hb
        rcases List.mem_cons.mp hb with rfl | hb
        · exact hn b List.mem_cons_self
        · exact hE.sub_ne b hb
      · rw [disjointPrimes_cons, hdom, Set.disjoint_union_right]
        exact ⟨⟨hda, hdis.1⟩, hE.disjoint⟩
      · rw [List.map_cons, List.nodup_cons]
        refine ⟨?_, hE.distinct⟩
        intro hin
        rcases hsub _ hin with hin | hin
        · exact hua hin
        · exact h hin
      · simp only [dom_cons, hdom, Set.union_assoc]
      · simp only [nodeDen_cons, hden, Set.union_assoc]
      · intro t ht
        simp only [List.map_cons, List.mem_cons] at ht ⊢
        rcases ht with rfl | ht
        · exact Or.inl (Or.inl rfl)
        · rcases hsub t ht with ht | ht
          · exact Or.inl (Or.inr ht)
          · exact Or.inr ht

include hH hT in
theorem add_spec {l : List (Arc C D)} {a : Arc C D} (hl : Entries T denH CanonH CanonT l)
    (hp : CanonH a.prime) (hs : CanonT a.sub) (hd : Disjoint (dom denH l) (denH a.prime)) :
    Entries T denH CanonH CanonT (add H T l a) ∧
      dom denH (add H T l a) ⊆ dom denH l ∪ denH a.prime ∧
      nodeDen denH denT (add H T l a) = nodeDen denH denT l ∪ denH a.prime ×ˢ denT a.sub := by
  unfold add
  split
  · next h =>
    refine ⟨hl, Set.subset_union_left, ?_⟩
    rcases h with h | h
    · rw [h, hT.den_none, Set.prod_empty, Set.union_empty]
    · rw [h, hH.den_none, Set.empty_prod, Set.union_empty]
  · next h =>
    obtain ⟨hE, hdom, hden, -⟩ :=
      mergeEntry_spec denT hH hp hs (fun e => h (Or.inl e)) hl hd
    exact ⟨hE, hdom.subset, hden⟩

include hH hT in
/-- Regrouping by sub: arcs whose primes are disjoint from each other and from
the entries are added without loss. -/
theorem addAll_spec {arcs : List (Arc C D)} :
    ∀ {l : List (Arc C D)}, Entries T denH CanonH CanonT l → CanonArcs CanonH CanonT arcs →
      DisjointPrimes denH arcs → Disjoint (dom denH l) (dom denH arcs) →
      Entries T denH CanonH CanonT (addAll H T l arcs) ∧ nodeDen denH denT (addAll H T l arcs) =
          nodeDen denH denT l ∪ nodeDen denH denT arcs := by
  induction arcs with
  | nil =>
    intro l hl _ _ _
    exact ⟨hl, by simp [addAll]⟩
  | cons a arcs ih =>
    intro l hl hc hd hdis
    obtain ⟨⟨hp, hs⟩, hc'⟩ := (canonArcs_cons a arcs).mp hc
    obtain ⟨hda, hd'⟩ := (disjointPrimes_cons denH a arcs).mp hd
    rw [dom_cons, Set.disjoint_union_right] at hdis
    obtain ⟨hE, hdom, hden⟩ := add_spec hH hT hl hp hs hdis.1
    have hdis' : Disjoint (dom denH (add H T l a)) (dom denH arcs) :=
      Set.disjoint_of_subset_left hdom (Set.disjoint_union_left.mpr ⟨hdis.2, hda⟩)
    obtain ⟨hE', hden'⟩ := ih hE hc' hd' hdis'
    refine ⟨hE', ?_⟩
    calc nodeDen denH denT (addAll H T l (a :: arcs))
        = nodeDen denH denT (add H T l a) ∪ nodeDen denH denT arcs := hden'
      _ = nodeDen denH denT l ∪ nodeDen denH denT (a :: arcs) := by
        rw [hden, nodeDen_cons, Set.union_assoc]

/-! ## Correctness of `finish` -/

include hH hT in
theorem finish_spec {l : List (Arc C D)} (hl : Entries T denH CanonH CanonT l) :
    NodeCanon H T denH CanonH CanonT (finish H T l) ∧
      nodeDen denH denT (finish H T l) = nodeDen denH denT l := by
  set f := l.filter fun a => ¬ (a.prime = H.none ∨ a.sub = T.none) with hf
  have hperm : (finish H T l).Perm f := List.perm_insertionSort _ _
  have hmem : ∀ a, a ∈ finish H T l ↔ a ∈ l ∧ a.prime ≠ H.none ∧ a.sub ≠ T.none := by
    intro a
    rw [hperm.mem_iff, hf]
    simp [not_or]
  have hdis : DisjointPrimes denH (finish H T l) := by
    have hsub : DisjointPrimes denH f := List.Pairwise.sublist List.filter_sublist hl.disjoint
    exact (hperm.pairwise_iff fun h => h.symm).mpr hsub
  have hcanon : CanonArcs CanonH CanonT (finish H T l) :=
    fun a ha => hl.canon a ((hmem a).mp ha).1
  refine ⟨⟨hcanon, fun a ha => ((hmem a).mp ha).2.1, fun a ha => ((hmem a).mp ha).2.2,
    hdis, ?_, ?_⟩, ?_⟩
  · have hsub : (f.map Arc.sub).Nodup := hl.distinct.sublist (List.filter_sublist.map _)
    exact (hperm.map Arc.sub).nodup_iff.mpr hsub
  · have hle : (finish H T l).Pairwise fun a b => H.num a.prime ≤ H.num b.prime :=
      List.pairwise_insertionSort _ _
    refine (hle.and hdis).imp_of_mem ?_
    rintro a b ha hb ⟨hab, hdab⟩
    refine lt_of_le_of_ne hab fun he => ?_
    have hpe : a.prime = b.prime := hH.num_inj he
    rw [hpe, disjoint_self] at hdab
    exact ((hmem b).mp hb).2.1 ((hH.eq_none_iff (hcanon b hb).1).mpr hdab)
  · ext w
    simp only [mem_nodeDen, hmem]
    constructor
    · rintro ⟨a, ⟨ha, -, -⟩, hw⟩
      exact ⟨a, ha, hw⟩
    · rintro ⟨a, ha, h1, h2⟩
      refine ⟨a, ⟨ha, ?_, ?_⟩, h1, h2⟩
      · rintro he
        rw [he, hH.den_none] at h1
        exact h1
      · rintro he
        rw [he, hT.den_none] at h2
        exact h2

/-! ## Correctness of the sieve -/

/-- What the walk of one incoming arc `(p, s)` does: the entries lose the
incoming prime, the overlaps gain the incoming sub, and the rest is what no
entry held. -/
structure CarveSpec (T : SupportAlgebra D) (denH : C → Set V) (CanonH : C → Prop)
    (CanonT : D → Prop) (s : D) (p : C) (l : List (Arc C D)) (r : Carved C D) : Prop where
  subs : r.entries.map Arc.sub = l.map Arc.sub
  entries_canon : CanonArcs CanonH CanonT r.entries
  merged_canon : CanonArcs CanonH CanonT r.merged
  rest_canon : CanonH r.rest
  entries_disjoint : DisjointPrimes denH r.entries
  merged_disjoint : DisjointPrimes denH r.merged
  rest_den : denH r.rest = denH p \ dom denH l
  entries_pts : ∀ x t, (x, t) ∈ pts denH r.entries ↔ (x, t) ∈ pts denH l ∧ x ∉ denH p
  merged_pts : ∀ x t, (x, t) ∈ pts denH r.merged ↔
    x ∈ denH p ∧ ∃ u, (x, u) ∈ pts denH l ∧ t = T.join u s

omit [DecidableEq C] [DecidableEq D] in
/-- An entry the incoming prime misses is kept as it is. -/
private theorem CarveSpec.skip {s : D} {p : C} {e : Arc C D} {es : List (Arc C D)}
    {r : Carved C D} (hr : CarveSpec T denH CanonH CanonT s p es r)
    (he : CanonH e.prime ∧ CanonT e.sub) (hde : Disjoint (denH e.prime) (dom denH es))
    (hempty : denH e.prime ∩ denH p = ∅) :
    CarveSpec T denH CanonH CanonT s p (e :: es) ⟨e :: r.entries, r.merged, r.rest⟩ := by
  have hmiss : ∀ x, x ∈ denH e.prime → x ∉ denH p := fun x h1 h2 =>
    (Set.eq_empty_iff_forall_notMem.mp hempty x) ⟨h1, h2⟩
  refine ⟨by simp [hr.subs], (canonArcs_cons _ _).mpr ⟨he, hr.entries_canon⟩,
    hr.merged_canon, hr.rest_canon, ?_, hr.merged_disjoint, ?_, ?_, ?_⟩
  · rw [disjointPrimes_cons]
    refine ⟨Set.disjoint_left.mpr ?_, hr.entries_disjoint⟩
    intro x hx hxd
    obtain ⟨t, ht⟩ := (mem_dom_pts denH).mp hxd
    exact Set.disjoint_left.mp hde hx (mem_dom_of_mem_pts denH ((hr.entries_pts x t).mp ht).1)
  · rw [hr.rest_den, dom_cons]
    ext x
    simp only [Set.mem_sdiff, Set.mem_union]
    have := hmiss x
    tauto
  · intro x t
    rw [mem_pts_cons, mem_pts_cons, hr.entries_pts]
    have := hmiss x
    tauto
  · intro x t
    rw [hr.merged_pts]
    simp only [mem_pts_cons]
    constructor
    · rintro ⟨hx, u, hu, rfl⟩
      exact ⟨hx, u, Or.inr hu, rfl⟩
    · rintro ⟨hx, u, ⟨hu, -⟩ | hu, rfl⟩
      · exact absurd hx (hmiss x hu)
      · exact ⟨hx, u, hu, rfl⟩

include hH hT in
/-- By induction on the entries, for every incoming prime. -/
theorem carve_spec {s : D} (hs : CanonT s) :
    ∀ {l : List (Arc C D)} {p : C}, CanonH p → CanonArcs CanonH CanonT l →
      DisjointPrimes denH l → CarveSpec T denH CanonH CanonT s p l (carve H T s p l) := by
  intro l
  induction l with
  | nil =>
    intro p hp _ _
    constructor <;> simp [carve, hp, mem_pts_nil]
  | cons e es ih =>
    intro p hp hc hd
    obtain ⟨⟨hpe, hse⟩, hces⟩ := (canonArcs_cons e es).mp hc
    obtain ⟨hde, hdes⟩ := (disjointPrimes_cons denH e es).mp hd
    have hout : ∀ x t, (x, t) ∈ pts denH es → x ∉ denH e.prime := fun x t hx hxe =>
      Set.disjoint_left.mp hde hxe (mem_dom_of_mem_pts denH hx)
    rw [carve]
    by_cases h1 : e.prime = H.none
    · rw [if_pos h1]
      exact (ih hp hces hdes).skip ⟨hpe, hse⟩ hde (by rw [h1, hH.den_none, Set.empty_inter])
    rw [if_neg h1]
    by_cases h2 : p = H.none
    · rw [if_pos h2]
      have hp0 : denH p = ∅ := by rw [h2, hH.den_none]
      refine ⟨rfl, hc, canonArcs_nil, hp, hd, disjointPrimes_nil denH, ?_, ?_, ?_⟩
      · simp [hp0]
      · simp [hp0]
      · simp [hp0, mem_pts_nil]
    rw [if_neg h2]
    by_cases h3 : e.prime = p
    · -- the entry is the incoming prime: the others are disjoint from it
      rw [if_pos h3]
      subst h3
      refine ⟨rfl, ?_, ?_, hH.canon_none, ?_, ?_, ?_, ?_, ?_⟩
      · exact (canonArcs_cons _ _).mpr ⟨⟨hH.canon_none, hse⟩, hces⟩
      · simpa using ⟨hpe, hT.canon_join hse hs⟩
      · simp [hH.den_none, hdes]
      · simp
      · rw [hH.den_none, dom_cons]
        exact (Set.sdiff_eq_empty.mpr Set.subset_union_left).symm
      · intro x t
        rw [mem_pts_cons, mem_pts_cons, hH.den_none]
        have := hout x t
        simp only [Set.mem_empty_iff_false, false_and, false_or]
        tauto
      · intro x t
        simp only [mem_pts_cons, mem_pts_nil, or_false]
        constructor
        · rintro ⟨hx, rfl⟩
          exact ⟨hx, e.sub, Or.inl ⟨hx, rfl⟩, rfl⟩
        · rintro ⟨hx, u, ⟨-, rfl⟩ | hu, rfl⟩
          · exact ⟨hx, rfl⟩
          · exact absurd hx (hout x u hu)
    rw [if_neg h3]
    by_cases h4 : H.meet e.prime p = H.none
    · simp only [h4, ↓reduceIte]
      exact (ih hp hces hdes).skip ⟨hpe, hse⟩ hde (by rw [← hH.den_meet hpe hp, h4, hH.den_none])
    · -- a proper overlap: the entry and the rest both lose it
      simp only [h4, ↓reduceIte]
      have hoc := hH.canon_meet hpe hp
      have hod := hH.den_meet hpe hp
      have hrc := hH.canon_minus hp hoc
      have hrd : denH (H.minus p (H.meet e.prime p)) = denH p \ denH e.prime := by
        rw [hH.den_minus hp hoc, hod]
        ext x
        simp only [Set.mem_sdiff, Set.mem_inter_iff]
        tauto
      set left := if H.meet e.prime p = e.prime then H.none
        else H.minus e.prime (H.meet e.prime p) with hleft
      have hlc : CanonH left := by
        rw [hleft]
        split
        · exact hH.canon_none
        · exact hH.canon_minus hpe hoc
      have hld : denH left = denH e.prime \ denH p := by
        rw [hleft]
        split
        · next h5 =>
          rw [hH.den_none, ← Set.sdiff_self_inter, ← hod, h5, Set.sdiff_self]
        · rw [hH.den_minus hpe hoc, hod, Set.sdiff_self_inter]
      obtain ⟨g1, g2, g3, g4, g5, g6, g7, g8, g9⟩ := ih hrc hces hdes
      refine ⟨by simp [g1], (canonArcs_cons _ _).mpr ⟨⟨hlc, hse⟩, g2⟩,
        (canonArcs_cons _ _).mpr ⟨⟨hoc, hT.canon_join hse hs⟩, g3⟩, g4, ?_, ?_, ?_, ?_, ?_⟩
      · rw [disjointPrimes_cons]
        refine ⟨Set.disjoint_left.mpr ?_, g5⟩
        intro x hx hxd
        obtain ⟨t, ht⟩ := (mem_dom_pts denH).mp hxd
        rw [hld] at hx
        exact hout x t ((g8 x t).mp ht).1 hx.1
      · rw [disjointPrimes_cons]
        refine ⟨Set.disjoint_left.mpr ?_, g6⟩
        intro x hx hxd
        obtain ⟨t, ht⟩ := (mem_dom_pts denH).mp hxd
        obtain ⟨-, u, hu, -⟩ := (g9 x t).mp ht
        rw [hod] at hx
        exact hout x u hu hx.1
      · rw [g7, hrd, dom_cons, Set.sdiff_sdiff]
      · intro x t
        rw [mem_pts_cons, mem_pts_cons, g8, hld, hrd]
        have := hout x t
        simp only [Set.mem_sdiff]
        tauto
      · intro x t
        rw [mem_pts_cons, g9, hod, hrd]
        simp only [mem_pts_cons, Set.mem_sdiff, Set.mem_inter_iff]
        constructor
        · rintro (⟨⟨hxe, hxp⟩, rfl⟩ | ⟨⟨hxp, -⟩, u, hu, rfl⟩)
          · exact ⟨hxp, e.sub, Or.inl ⟨hxe, rfl⟩, rfl⟩
          · exact ⟨hxp, u, Or.inr hu, rfl⟩
        · rintro ⟨hxp, u, ⟨hxe, rfl⟩ | hu, rfl⟩
          · exact Or.inl ⟨⟨hxe, hxp⟩, rfl⟩
          · exact Or.inr ⟨⟨hxp, hout x u hu⟩, u, hu, rfl⟩

omit [DecidableEq C] [DecidableEq D] in
private theorem CarveSpec.dom_entries {s : D} {p : C} {l : List (Arc C D)} {r : Carved C D}
    (hr : CarveSpec T denH CanonH CanonT s p l r) :
    dom denH r.entries = dom denH l \ denH p := by
  ext x
  simp only [Set.mem_sdiff, mem_dom_pts, hr.entries_pts, exists_and_right]

omit [DecidableEq C] [DecidableEq D] in
private theorem CarveSpec.dom_merged {s : D} {p : C} {l : List (Arc C D)} {r : Carved C D}
    (hr : CarveSpec T denH CanonH CanonT s p l r) :
    dom denH r.merged = dom denH l ∩ denH p := by
  ext x
  simp only [Set.mem_inter_iff, mem_dom_pts, hr.merged_pts]
  constructor
  · rintro ⟨t, hx, u, hu, -⟩
    exact ⟨⟨u, hu⟩, hx⟩
  · rintro ⟨⟨u, hu⟩, hx⟩
    exact ⟨_, hx, u, hu, rfl⟩

variable (denT) in
omit [DecidableEq D] in
/-- The leftover arc of an incoming one, if anything is left. -/
private theorem leftover_spec (hH : SupportLaws H denH CanonH) {q : C} {s : D}
    (hq : CanonH q) (hs : CanonT s) :
    let l : List (Arc C D) := if q = H.none then [] else [⟨q, s⟩]
    CanonArcs CanonH CanonT l ∧ DisjointPrimes denH l ∧ dom denH l = denH q ∧
      nodeDen denH denT l = denH q ×ˢ denT s := by
  by_cases h : q = H.none
  · subst h
    simp [hH.den_none]
  · simp [h, hq, hs]

include hT in
omit [DecidableEq C] [DecidableEq D] in
/-- Nothing is lost and nothing is added: the three results of a walk cover the
entries and the incoming rectangle. -/
private theorem CarveSpec.nodeDen_eq {s : D} {p : C} {l : List (Arc C D)} {r : Carved C D}
    (hs : CanonT s) (hl : CanonArcs CanonH CanonT l)
    (hr : CarveSpec T denH CanonH CanonT s p l r) :
    nodeDen denH denT r.entries ∪ nodeDen denH denT r.merged ∪ denH r.rest ×ˢ denT s =
      nodeDen denH denT l ∪ denH p ×ˢ denT s := by
  have hjoin : ∀ x u, (x, u) ∈ pts denH l → denT (T.join u s) = denT u ∪ denT s := by
    rintro x u ⟨a, ha, -, rfl⟩
    exact hT.den_join (hl a ha).2 hs
  ext ⟨x, y⟩
  simp only [Set.mem_union, mem_nodeDen_pts, Set.mem_prod, hr.entries_pts, hr.merged_pts,
    hr.rest_den, Set.mem_sdiff, mem_dom_pts]
  constructor
  · rintro ((⟨t, ⟨ht, -⟩, hy⟩ | ⟨t, ⟨hx, u, hu, rfl⟩, hy⟩) | ⟨⟨hx, -⟩, hy⟩)
    · exact Or.inl ⟨t, ht, hy⟩
    · rw [hjoin x u hu] at hy
      rcases hy with hy | hy
      · exact Or.inl ⟨u, hu, hy⟩
      · exact Or.inr ⟨hx, hy⟩
    · exact Or.inr ⟨hx, hy⟩
  · rintro (⟨t, ht, hy⟩ | ⟨hx, hy⟩)
    · by_cases hx : x ∈ denH p
      · refine Or.inl (Or.inr ⟨_, ⟨hx, t, ht, rfl⟩, ?_⟩)
        rw [hjoin x t ht]
        exact Or.inl hy
      · exact Or.inl (Or.inl ⟨t, ⟨ht, hx⟩, hy⟩)
    · by_cases hd : ∃ u, (x, u) ∈ pts denH l
      · obtain ⟨u, hu⟩ := hd
        refine Or.inl (Or.inr ⟨_, ⟨hx, u, hu, rfl⟩, ?_⟩)
        rw [hjoin x u hu]
        exact Or.inr hy
      · exact Or.inr ⟨⟨hx, hd⟩, hy⟩

include hH hT in
/-- The outer loop. The merged arcs stay disjoint from the entries and from the
operand still to come, because they lie inside the primes already walked. -/
private theorem sieveLoop_spec {operand : List (Arc C D)} :
    ∀ {l m : List (Arc C D)}, CanonArcs CanonH CanonT l → CanonArcs CanonH CanonT m →
      CanonArcs CanonH CanonT operand → DisjointPrimes denH (l ++ m) →
      DisjointPrimes denH operand → Disjoint (dom denH m) (dom denH operand) →
      let r := sieveLoop H T l m operand
      r.1.map Arc.sub = l.map Arc.sub ∧ CanonArcs CanonH CanonT r.1 ∧
      CanonArcs CanonH CanonT r.2 ∧ DisjointPrimes denH (r.1 ++ r.2) ∧
      nodeDen denH denT r.1 ∪ nodeDen denH denT r.2 =
        nodeDen denH denT l ∪ nodeDen denH denT m ∪ nodeDen denH denT operand := by
  induction operand with
  | nil =>
    intro l m hl hm _ hd _ _
    exact ⟨rfl, hl, hm, hd, by simp [sieveLoop]⟩
  | cons inc operand ih =>
    intro l m hl hm ho hd hdo hdm
    obtain ⟨⟨hp, hs⟩, ho'⟩ := (canonArcs_cons inc operand).mp ho
    obtain ⟨hdi, hdo'⟩ := (disjointPrimes_cons denH inc operand).mp hdo
    rw [dom_cons, Set.disjoint_union_right] at hdm
    rw [sieveLoop]
    by_cases h : inc.prime = H.none ∨ inc.sub = T.none
    · rw [if_pos h]
      obtain ⟨h1, h2, h3, h4, h5⟩ := ih hl hm ho' hd hdo' hdm.2
      refine ⟨h1, h2, h3, h4, ?_⟩
      rw [h5, nodeDen_cons]
      rcases h with h | h
      · rw [h, hH.den_none, Set.empty_prod, Set.empty_union]
      · rw [h, hT.den_none, Set.prod_empty, Set.empty_union]
    · rw [if_neg h]
      obtain ⟨hdl, hdm', hlm⟩ := (disjointPrimes_append denH l m).mp hd
      have hc := carve_spec hH hT hs hp hl hdl
      obtain ⟨q1, q2, q3, q4⟩ := leftover_spec denT hH hc.rest_canon hs
      set r := carve H T inc.sub inc.prime l with hr
      set left : List (Arc C D) := if r.rest = H.none then [] else [⟨r.rest, inc.sub⟩] with hleft
      have hm' : CanonArcs CanonH CanonT (m ++ r.merged ++ left) := by
        simp only [canonArcs_append]
        exact ⟨⟨hm, hc.merged_canon⟩, q1⟩
      have hde := hc.dom_entries
      have hdmr := hc.dom_merged
      have hrest := hc.rest_den
      have hdis : DisjointPrimes denH (r.entries ++ (m ++ r.merged ++ left)) := by
        simp only [disjointPrimes_append, dom_append, Set.disjoint_union_left,
          Set.disjoint_union_right, hde, hdmr, q3, hrest]
        refine ⟨hc.entries_disjoint, ⟨⟨hdm', hc.merged_disjoint, ?_⟩, q2, ?_, ?_⟩, ⟨?_, ?_⟩, ?_⟩
        · exact Set.disjoint_of_subset_right Set.inter_subset_left hlm.symm
        · exact Set.disjoint_of_subset_right Set.sdiff_subset hdm.1
        · rw [Set.disjoint_left]
          exact fun x h1 h2 => h2.2 h1.1
        · exact Set.disjoint_of_subset_left Set.sdiff_subset hlm
        · rw [Set.disjoint_left]
          exact fun x h1 h2 => h1.2 h2.2
        · rw [Set.disjoint_left]
          exact fun x h1 h2 => h1.2 h2.1
      have hdm2 : Disjoint (dom denH (m ++ r.merged ++ left)) (dom denH operand) := by
        simp only [dom_append, Set.disjoint_union_left, hdmr, q3, hrest]
        refine ⟨⟨hdm.2, ?_⟩, ?_⟩
        · exact Set.disjoint_of_subset_left Set.inter_subset_right hdi
        · exact Set.disjoint_of_subset_left Set.sdiff_subset hdi
      obtain ⟨h1, h2, h3, h4, h5⟩ := ih hc.entries_canon hm' ho' hdis hdo' hdm2
      refine ⟨h1.trans hc.subs, h2, h3, h4, ?_⟩
      have hcov := CarveSpec.nodeDen_eq hT hs hl hc
      calc nodeDen denH denT (sieveLoop H T r.entries (m ++ r.merged ++ left) operand).1 ∪
            nodeDen denH denT (sieveLoop H T r.entries (m ++ r.merged ++ left) operand).2
          = (nodeDen denH denT r.entries ∪ nodeDen denH denT r.merged ∪
              denH r.rest ×ˢ denT inc.sub) ∪ nodeDen denH denT m ∪
              nodeDen denH denT operand := by
            rw [h5, nodeDen_append, nodeDen_append, q4]
            ac_rfl
        _ = nodeDen denH denT l ∪ nodeDen denH denT m ∪
              nodeDen denH denT (inc :: operand) := by
            rw [hcov, nodeDen_cons]
            ac_rfl

include hH hT in
/-- Sieving an operand with disjoint primes adds its words and keeps the
accumulator's invariant. -/
theorem sieve_spec {l operand : List (Arc C D)} (hl : Entries T denH CanonH CanonT l)
    (ho : CanonArcs CanonH CanonT operand) (hdo : DisjointPrimes denH operand) :
    Entries T denH CanonH CanonT (sieve H T l operand) ∧ nodeDen denH denT (sieve H T l operand) =
        nodeDen denH denT l ∪ nodeDen denH denT operand := by
  obtain ⟨h1, h2, h3, h4, h5⟩ := sieveLoop_spec (m := []) hH hT hl.canon canonArcs_nil ho
    (by simpa using hl.disjoint) hdo (by simp)
  obtain ⟨d1, d2, d3⟩ := (disjointPrimes_append denH _ _).mp h4
  have hE : Entries T denH CanonH CanonT (sieveLoop H T l [] operand).1 := by
    refine ⟨h2, ?_, d1, by rw [h1]; exact hl.distinct⟩
    intro a ha
    have hin : a.sub ∈ l.map Arc.sub := h1 ▸ List.mem_map_of_mem ha
    obtain ⟨b, hb, hab⟩ := List.mem_map.mp hin
    exact hab ▸ hl.sub_ne b hb
  obtain ⟨hE', hden⟩ := addAll_spec hH hT hE h3 d2 d3
  refine ⟨hE', ?_⟩
  rw [sieve, hden, h5, nodeDen_nil, Set.union_empty]

/-! ## The canonicalizer -/

include hH hT in
private theorem canonize_foldl {rects : List (Arc C D)} :
    ∀ {acc : List (Arc C D)}, Entries T denH CanonH CanonT acc → CanonArcs CanonH CanonT rects →
      Entries T denH CanonH CanonT (rects.foldl (fun acc r => sieve H T acc [r]) acc) ∧
        nodeDen denH denT (rects.foldl (fun acc r => sieve H T acc [r]) acc) =
          nodeDen denH denT acc ∪ nodeDen denH denT rects := by
  induction rects with
  | nil =>
    intro acc ha _
    exact ⟨ha, by simp⟩
  | cons r rects ih =>
    intro acc ha hr
    obtain ⟨hr1, hr2⟩ := (canonArcs_cons r rects).mp hr
    obtain ⟨hE, hden⟩ := sieve_spec hH hT ha ((canonArcs_cons r []).mpr ⟨hr1, canonArcs_nil⟩)
      (by simp)
    obtain ⟨hE', hden'⟩ := ih hE hr2
    refine ⟨hE', ?_⟩
    rw [List.foldl_cons, hden', hden, nodeDen_cons, nodeDen_cons, nodeDen_nil,
      Set.union_empty, Set.union_assoc]

include hH hT in
/-- Any bag of rectangles, overlapping and repeating freely, is brought to the
normal form of its union. -/
theorem canonize_correct {rects : List (Arc C D)} (hr : CanonArcs CanonH CanonT rects) :
    NodeCanon H T denH CanonH CanonT (canonize H T rects) ∧
      nodeDen denH denT (canonize H T rects) = nodeDen denH denT rects := by
  obtain ⟨hE, hden⟩ := canonize_foldl hH hT entries_nil hr
  obtain ⟨hN, hden'⟩ := finish_spec hH hT hE
  exact ⟨hN, by rw [canonize, hden', hden, nodeDen_nil, Set.empty_union]⟩

include hH hT in
/-- Arcs with disjoint primes need the regroup by sub only. -/
theorem regroup_correct {arcs : List (Arc C D)} (hc : CanonArcs CanonH CanonT arcs)
    (hd : DisjointPrimes denH arcs) :
    NodeCanon H T denH CanonH CanonT (finish H T (addAll H T [] arcs)) ∧
      nodeDen denH denT (finish H T (addAll H T [] arcs)) = nodeDen denH denT arcs := by
  obtain ⟨hE, hden⟩ := addAll_spec hH hT entries_nil hc hd (by simp)
  obtain ⟨hN, hden'⟩ := finish_spec hH hT hE
  exact ⟨hN, by rw [hden', hden, nodeDen_nil, Set.empty_union]⟩

include hH hT in
theorem rectangle_correct {p : C} {s : D} (hp : CanonH p) (hs : CanonT s) :
    NodeCanon H T denH CanonH CanonT (rectangle H T p s) ∧
      nodeDen denH denT (rectangle H T p s) = denH p ×ˢ denT s := by
  unfold rectangle
  split
  · next h =>
    refine ⟨⟨canonArcs_nil, by simp, by simp, by simp, by simp, by simp⟩, ?_⟩
    rcases h with h | h
    · rw [h, hH.den_none, Set.empty_prod, nodeDen_nil]
    · rw [h, hT.den_none, Set.prod_empty, nodeDen_nil]
  · next h =>
    refine ⟨⟨by simp [hp, hs], ?_, ?_, by simp, by simp, by simp⟩, by simp⟩
    · simpa using fun e => h (Or.inl e)
    · simpa using fun e => h (Or.inr e)

end Correctness

end LibHSC
