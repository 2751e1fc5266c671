import LibHSC.Canonize

/-!
The set algebra of diagrams: join, meet and difference of two nodes of one
sort, and the pair of a head and a tail algebra as a support algebra again.
Every result is brought to the normal form; `pairLaws` is the contract.
-/

namespace LibHSC

variable {C D : Type} [DecidableEq C] [DecidableEq D]

section Operations

variable (H : SupportAlgebra C) (T : SupportAlgebra D)

def doJoin (a b : List (Arc C D)) : List (Arc C D) :=
  finish H T (sieve H T (addAll H T [] a) b)

/-- The arcs one arc of the left operand adds to a meet, in order, up to the
early exit. -/
def meetRow (x : Arc C D) : List (Arc C D) → List (Arc C D)
  | [] => []
  | y :: ys =>
    let overlap := H.meet x.prime y.prime
    if overlap = H.none then meetRow x ys
    else ⟨overlap, T.meet x.sub y.sub⟩ ::
      (if overlap = x.prime then [] else meetRow x ys)  -- x is used up

def doMeet (a b : List (Arc C D)) : List (Arc C D) :=
  finish H T (addAll H T [] (a.flatMap fun x => meetRow H T x b))

/-- The arcs one arc of the left operand adds to a difference: its overlaps,
up to the early exit, then the part the right operand does not cover. -/
def minusRow (x : Arc C D) : C → List (Arc C D) → List (Arc C D)
  | rest, [] => if rest = H.none then [] else [⟨rest, x.sub⟩]
  | rest, y :: ys =>
    let overlap := H.meet x.prime y.prime
    if overlap = H.none then minusRow x rest ys
    else
      let rest' := H.minus rest overlap
      ⟨overlap, T.minus x.sub y.sub⟩ :: (if rest' = H.none then [] else minusRow x rest' ys)

def doMinus (a b : List (Arc C D)) : List (Arc C D) :=
  finish H T (addAll H T [] (a.flatMap fun x => minusRow H T x x.prime b))

/-- The diagrams over two sorts as a support algebra, `num` the ids of the node
table. A commutative operation puts its operands in code order first, so that
one cache entry serves both orders. -/
def pairAlgebra (num : List (Arc C D) → Nat) : SupportAlgebra (List (Arc C D)) where
  none := []
  num := num
  join a b :=
    if a = [] then b else if b = [] then a else if a = b then a
    else if num b < num a then doJoin H T b a else doJoin H T a b
  meet a b :=
    if a = [] ∨ b = [] then [] else if a = b then a
    else if num b < num a then doMeet H T b a else doMeet H T a b
  minus a b :=
    if a = [] ∨ b = [] then a else if a = b then [] else doMinus H T a b

end Operations

section Correctness

variable {V W : Type} {H : SupportAlgebra C} {T : SupportAlgebra D}
  {denH : C → Set V} {denT : D → Set W} {CanonH : C → Prop} {CanonT : D → Prop}
  (hH : SupportLaws H denH CanonH) (hT : SupportLaws T denT CanonT)

/-! ## Join -/

include hH hT in
theorem doJoin_correct {a b : List (Arc C D)} (ha : NodeCanon H T denH CanonH CanonT a)
    (hb : NodeCanon H T denH CanonH CanonT b) :
    NodeCanon H T denH CanonH CanonT (doJoin H T a b) ∧
      nodeDen denH denT (doJoin H T a b) = nodeDen denH denT a ∪ nodeDen denH denT b := by
  obtain ⟨hE, hden⟩ := addAll_spec hH hT entries_nil ha.canon ha.disjoint (by simp)
  obtain ⟨hE', hden'⟩ := sieve_spec hH hT hE hb.canon hb.disjoint
  obtain ⟨hN, hden''⟩ := finish_spec hH hT hE'
  exact ⟨hN, by rw [doJoin, hden'', hden', hden, nodeDen_nil, Set.empty_union]⟩

/-! ## Meet -/

include hH hT in
omit [DecidableEq D] in
/-- One row of a meet. When the overlap is the whole prime, the arcs not
visited are disjoint from it. -/
private theorem meetRow_spec {x : Arc C D} (hx : CanonH x.prime ∧ CanonT x.sub) :
    ∀ {l : List (Arc C D)}, CanonArcs CanonH CanonT l → DisjointPrimes denH l →
      CanonArcs CanonH CanonT (meetRow H T x l) ∧ DisjointPrimes denH (meetRow H T x l) ∧
      dom denH (meetRow H T x l) ⊆ denH x.prime ∩ dom denH l ∧
      nodeDen denH denT (meetRow H T x l) = denH x.prime ×ˢ denT x.sub ∩ nodeDen denH denT l := by
  intro l
  induction l with
  | nil =>
    intro _ _
    simp [meetRow]
  | cons y ys ih =>
    intro hc hd
    obtain ⟨⟨hpy, hsy⟩, hcys⟩ := (canonArcs_cons y ys).mp hc
    obtain ⟨hdy, hdys⟩ := (disjointPrimes_cons denH y ys).mp hd
    obtain ⟨h1, h2, h3, h4⟩ := ih hcys hdys
    have hoc := hH.canon_meet hx.1 hpy
    have hod := hH.den_meet hx.1 hpy
    rw [meetRow]
    by_cases ho : H.meet x.prime y.prime = H.none
    · have hempty : denH x.prime ∩ denH y.prime = ∅ := by rw [← hod, ho, hH.den_none]
      simp only [ho, ↓reduceIte]
      refine ⟨h1, h2, ?_, ?_⟩
      · refine h3.trans (Set.inter_subset_inter_right _ ?_)
        rw [dom_cons]
        exact Set.subset_union_right
      · rw [h4, nodeDen_cons, Set.inter_union_distrib_left, Set.prod_inter_prod, hempty,
          Set.empty_prod, Set.empty_union]
    · simp only [ho, ↓reduceIte]
      have htc := hT.canon_meet hx.2 hsy
      have htd := hT.den_meet hx.2 hsy
      have hhead : denH (H.meet x.prime y.prime) ×ˢ denT (T.meet x.sub y.sub) =
          denH x.prime ×ˢ denT x.sub ∩ denH y.prime ×ˢ denT y.sub := by
        rw [hod, htd, Set.prod_inter_prod]
      by_cases hfull : H.meet x.prime y.prime = x.prime
      · have hsub : denH x.prime ⊆ denH y.prime := by
          rw [← Set.inter_eq_left, ← hod, hfull]
        have hrest : denH x.prime ×ˢ denT x.sub ∩ nodeDen denH denT ys = ∅ := by
          rw [Set.eq_empty_iff_forall_notMem]
          rintro w ⟨⟨hw, -⟩, hw'⟩
          obtain ⟨z, hz, hwz, -⟩ := (mem_nodeDen denH denT).mp hw'
          exact Set.disjoint_left.mp hdy (hsub hw) ⟨z, hz, hwz⟩
        rw [if_pos hfull]
        refine ⟨by simp [hoc, htc], by simp, ?_, ?_⟩
        · rw [dom_cons, dom_nil, Set.union_empty, hod, dom_cons]
          exact Set.inter_subset_inter_right _ Set.subset_union_left
        · rw [nodeDen_cons, nodeDen_nil, nodeDen_cons, Set.union_empty, hhead,
            Set.inter_union_distrib_left, hrest, Set.union_empty]
      · rw [if_neg hfull]
        refine ⟨(canonArcs_cons _ _).mpr ⟨⟨hoc, htc⟩, h1⟩, ?_, ?_, ?_⟩
        · rw [disjointPrimes_cons, hod]
          refine ⟨?_, h2⟩
          exact Set.disjoint_of_subset Set.inter_subset_right (h3.trans Set.inter_subset_right) hdy
        · rw [dom_cons, hod, dom_cons, Set.inter_union_distrib_left]
          exact Set.union_subset_union_right _ h3
        · rw [nodeDen_cons, hhead, h4, nodeDen_cons, Set.inter_union_distrib_left]

variable (denH denT CanonH CanonT) in
omit [DecidableEq C] [DecidableEq D] in
/-- Rows that stay inside the primes they start from, laid end to end. -/
private theorem flatMap_rows (row : Arc C D → List (Arc C D)) {a : List (Arc C D)}
    {S : Arc C D → Set (V × W)} (hd : DisjointPrimes denH a)
    (hrow : ∀ x ∈ a, CanonArcs CanonH CanonT (row x) ∧ DisjointPrimes denH (row x) ∧
      dom denH (row x) ⊆ denH x.prime ∧ nodeDen denH denT (row x) = S x) :
    CanonArcs CanonH CanonT (a.flatMap row) ∧ DisjointPrimes denH (a.flatMap row) ∧
      dom denH (a.flatMap row) ⊆ dom denH a ∧
      nodeDen denH denT (a.flatMap row) = {w | ∃ x ∈ a, w ∈ S x} := by
  induction a with
  | nil => simp
  | cons x a ih =>
    obtain ⟨hdx, hda⟩ := (disjointPrimes_cons denH x a).mp hd
    obtain ⟨h1, h2, h3, h4⟩ := ih hda fun y hy => hrow y (List.mem_cons_of_mem _ hy)
    obtain ⟨r1, r2, r3, r4⟩ := hrow x List.mem_cons_self
    rw [List.flatMap_cons]
    refine ⟨(canonArcs_append _ _).mpr ⟨r1, h1⟩, ?_, ?_, ?_⟩
    · rw [disjointPrimes_append]
      exact ⟨r2, h2, Set.disjoint_of_subset r3 h3 hdx⟩
    · rw [dom_append, dom_cons]
      exact Set.union_subset_union r3 h3
    · rw [nodeDen_append, r4, h4]
      ext w
      simp

include hH hT in
theorem doMeet_correct {a b : List (Arc C D)} (ha : NodeCanon H T denH CanonH CanonT a)
    (hb : NodeCanon H T denH CanonH CanonT b) :
    NodeCanon H T denH CanonH CanonT (doMeet H T a b) ∧
      nodeDen denH denT (doMeet H T a b) = nodeDen denH denT a ∩ nodeDen denH denT b := by
  obtain ⟨h1, h2, -, h4⟩ := flatMap_rows denH denT CanonH CanonT
    (fun x => meetRow H T x b) ha.disjoint fun x hx => by
      obtain ⟨r1, r2, r3, r4⟩ := meetRow_spec hH hT (ha.canon x hx) hb.canon hb.disjoint
      exact ⟨r1, r2, r3.trans Set.inter_subset_left, r4⟩
  obtain ⟨hN, hden⟩ := regroup_correct hH hT h1 h2
  refine ⟨hN, ?_⟩
  rw [doMeet, hden, h4]
  ext w
  simp only [Set.mem_ofPred_eq, Set.mem_inter_iff, Set.mem_prod, mem_nodeDen]
  constructor
  · rintro ⟨x, hx, hw, hw'⟩
    exact ⟨⟨x, hx, hw⟩, hw'⟩
  · rintro ⟨⟨x, hx, hw⟩, hw'⟩
    exact ⟨x, hx, hw, hw'⟩

/-! ## Difference -/

include hH hT in
omit [DecidableEq D] in
/-- One row of a difference. The arcs still to visit meet the row's prime
inside the rest, so cutting them out of the rest is cutting them out of the
prime. -/
private theorem minusRow_spec {x : Arc C D} (hx : CanonH x.prime ∧ CanonT x.sub) :
    ∀ {l : List (Arc C D)} {rest : C}, CanonH rest → denH rest ⊆ denH x.prime →
      CanonArcs CanonH CanonT l → DisjointPrimes denH l →
      denH x.prime ∩ dom denH l ⊆ denH rest →
      CanonArcs CanonH CanonT (minusRow H T x rest l) ∧
      DisjointPrimes denH (minusRow H T x rest l) ∧
      dom denH (minusRow H T x rest l) ⊆ denH rest ∧
      nodeDen denH denT (minusRow H T x rest l) =
        denH rest ×ˢ denT x.sub \ nodeDen denH denT l := by
  intro l
  induction l with
  | nil =>
    intro rest hr _ _ _ _
    rw [minusRow]
    by_cases h : rest = H.none
    · simp [h, hH.den_none]
    · simp [h, hr, hx.2]
  | cons y ys ih =>
    intro rest hr hsub hc hd hin
    obtain ⟨⟨hpy, hsy⟩, hcys⟩ := (canonArcs_cons y ys).mp hc
    obtain ⟨hdy, hdys⟩ := (disjointPrimes_cons denH y ys).mp hd
    rw [dom_cons, Set.inter_union_distrib_left, Set.union_subset_iff] at hin
    have hoc := hH.canon_meet hx.1 hpy
    have hod := hH.den_meet hx.1 hpy
    rw [minusRow]
    by_cases ho : H.meet x.prime y.prime = H.none
    · have hempty : denH x.prime ∩ denH y.prime = ∅ := by rw [← hod, ho, hH.den_none]
      simp only [ho, ↓reduceIte]
      obtain ⟨h1, h2, h3, h4⟩ := ih hr hsub hcys hdys hin.2
      refine ⟨h1, h2, h3, ?_⟩
      rw [h4, nodeDen_cons]
      ext w
      have hw : w.1 ∈ denH rest → w.1 ∉ denH y.prime := fun hr' hy =>
        Set.eq_empty_iff_forall_notMem.mp hempty w.1 ⟨hsub hr', hy⟩
      simp only [Set.mem_sdiff, Set.mem_prod, Set.mem_union]
      tauto
    · simp only [ho, ↓reduceIte]
      have htc := hT.canon_minus hx.2 hsy
      have htd := hT.den_minus hx.2 hsy
      have hrc := hH.canon_minus hr hoc
      have hrd : denH (H.minus rest (H.meet x.prime y.prime)) = denH rest \ denH y.prime := by
        rw [hH.den_minus hr hoc, hod]
        ext z
        have := @hsub z
        simp only [Set.mem_sdiff, Set.mem_inter_iff]
        tauto
      have hin' : denH x.prime ∩ dom denH ys ⊆ denH (H.minus rest (H.meet x.prime y.prime)) := by
        rw [hrd]
        exact fun z hz => ⟨hin.2 hz, fun hy => Set.disjoint_left.mp hdy hy hz.2⟩
      obtain ⟨h1, h2, h3, h4⟩ := ih hrc (by rw [hrd]; exact Set.sdiff_subset.trans hsub)
        hcys hdys hin'
      -- the early exit drops a row that is empty
      have hcut : ∀ l', l' = (if H.minus rest (H.meet x.prime y.prime) = H.none then []
            else minusRow H T x (H.minus rest (H.meet x.prime y.prime)) ys) →
          CanonArcs CanonH CanonT l' ∧ DisjointPrimes denH l' ∧
          dom denH l' ⊆ denH rest \ denH y.prime ∧
          nodeDen denH denT l' =
            (denH rest \ denH y.prime) ×ˢ denT x.sub \ nodeDen denH denT ys := by
        rintro l' rfl
        split
        · next h =>
          rw [← hrd, h, hH.den_none]
          simp
        · rw [← hrd]
          exact ⟨h1, h2, h3, h4⟩
      obtain ⟨c1, c2, c3, c4⟩ := hcut _ rfl
      refine ⟨(canonArcs_cons _ _).mpr ⟨⟨hoc, htc⟩, c1⟩, ?_, ?_, ?_⟩
      · rw [disjointPrimes_cons, hod]
        refine ⟨Set.disjoint_left.mpr ?_, c2⟩
        exact fun z hz hz' => (c3 hz').2 hz.2
      · rw [dom_cons, hod]
        exact Set.union_subset hin.1 (c3.trans Set.sdiff_subset)
      · rw [nodeDen_cons, c4, hod, htd, nodeDen_cons]
        ext w
        have hwin : w.1 ∈ denH x.prime → w.1 ∈ denH y.prime → w.1 ∈ denH rest :=
          fun h h' => hin.1 ⟨h, h'⟩
        have hwout : w.1 ∈ denH y.prime → w ∉ nodeDen denH denT ys := by
          intro hy hw
          obtain ⟨z, hz, hwz, -⟩ := (mem_nodeDen denH denT).mp hw
          exact Set.disjoint_left.mp hdy hy ⟨z, hz, hwz⟩
        have hws := @hsub w.1
        simp only [Set.mem_union, Set.mem_prod, Set.mem_inter_iff, Set.mem_sdiff]
        tauto

include hH hT in
theorem doMinus_correct {a b : List (Arc C D)} (ha : NodeCanon H T denH CanonH CanonT a)
    (hb : NodeCanon H T denH CanonH CanonT b) :
    NodeCanon H T denH CanonH CanonT (doMinus H T a b) ∧
      nodeDen denH denT (doMinus H T a b) = nodeDen denH denT a \ nodeDen denH denT b := by
  obtain ⟨h1, h2, -, h4⟩ := flatMap_rows denH denT CanonH CanonT
    (fun x => minusRow H T x x.prime b) ha.disjoint fun x hx => minusRow_spec hH hT (ha.canon x hx)
      (ha.canon x hx).1 subset_rfl hb.canon
      hb.disjoint Set.inter_subset_left
  obtain ⟨hN, hden⟩ := regroup_correct hH hT h1 h2
  refine ⟨hN, ?_⟩
  rw [doMinus, hden, h4]
  ext w
  simp only [Set.mem_ofPred_eq, Set.mem_sdiff, Set.mem_prod, mem_nodeDen denH denT (l := a)]
  constructor
  · rintro ⟨x, hx, hw, hw'⟩
    exact ⟨⟨x, hx, hw⟩, hw'⟩
  · rintro ⟨⟨x, hx, hw⟩, hw'⟩
    exact ⟨x, hx, hw, hw'⟩

/-! ## The contract -/

omit [DecidableEq C] [DecidableEq D] in
theorem nodeCanon_nil : NodeCanon H T denH CanonH CanonT ([] : List (Arc C D)) :=
  ⟨canonArcs_nil, by simp, by simp, by simp, by simp, List.Pairwise.nil⟩

include hH hT in
private theorem pairJoin_spec {num : List (Arc C D) → Nat} {a b : List (Arc C D)}
    (ha : NodeCanon H T denH CanonH CanonT a) (hb : NodeCanon H T denH CanonH CanonT b) :
    NodeCanon H T denH CanonH CanonT ((pairAlgebra H T num).join a b) ∧
      nodeDen denH denT ((pairAlgebra H T num).join a b) =
        nodeDen denH denT a ∪ nodeDen denH denT b := by
  simp only [pairAlgebra]
  split
  · next h => exact ⟨hb, by simp [h]⟩
  split
  · next h => exact ⟨ha, by simp [h]⟩
  split
  · next h => exact ⟨ha, by rw [h, Set.union_self]⟩
  split
  · obtain ⟨h1, h2⟩ := doJoin_correct hH hT hb ha
    exact ⟨h1, by rw [h2, Set.union_comm]⟩
  · exact doJoin_correct hH hT ha hb

include hH hT in
private theorem pairMeet_spec {num : List (Arc C D) → Nat} {a b : List (Arc C D)}
    (ha : NodeCanon H T denH CanonH CanonT a) (hb : NodeCanon H T denH CanonH CanonT b) :
    NodeCanon H T denH CanonH CanonT ((pairAlgebra H T num).meet a b) ∧
      nodeDen denH denT ((pairAlgebra H T num).meet a b) =
        nodeDen denH denT a ∩ nodeDen denH denT b := by
  simp only [pairAlgebra]
  split
  · next h =>
    refine ⟨nodeCanon_nil, ?_⟩
    rcases h with h | h <;> simp [h]
  split
  · next h => exact ⟨ha, by rw [h, Set.inter_self]⟩
  split
  · obtain ⟨h1, h2⟩ := doMeet_correct hH hT hb ha
    exact ⟨h1, by rw [h2, Set.inter_comm]⟩
  · exact doMeet_correct hH hT ha hb

include hH hT in
private theorem pairMinus_spec {num : List (Arc C D) → Nat} {a b : List (Arc C D)}
    (ha : NodeCanon H T denH CanonH CanonT a) (hb : NodeCanon H T denH CanonH CanonT b) :
    NodeCanon H T denH CanonH CanonT ((pairAlgebra H T num).minus a b) ∧
      nodeDen denH denT ((pairAlgebra H T num).minus a b) =
        nodeDen denH denT a \ nodeDen denH denT b := by
  simp only [pairAlgebra]
  split
  · next h =>
    refine ⟨ha, ?_⟩
    rcases h with h | h <;> simp [h]
  split
  · next h => exact ⟨nodeCanon_nil, by rw [h, Set.sdiff_self, nodeDen_nil]⟩
  · exact doMinus_correct hH hT ha hb

include hH hT in
/-- The diagrams over two lawful sorts are lawful: a composite sort imports
exactly like a leaf. -/
theorem pairLaws {num : List (Arc C D) → Nat} (hn : Function.Injective num) :
    SupportLaws (pairAlgebra H T num) (nodeDen denH denT) (NodeCanon H T denH CanonH CanonT) where
  num_inj := hn
  canon_none := nodeCanon_nil
  den_none := nodeDen_nil denH denT
  ext := fun ha hb => nodeCanon_ext hH hT ha hb
  canon_join := fun ha hb => (pairJoin_spec hH hT ha hb).1
  den_join := fun ha hb => (pairJoin_spec hH hT ha hb).2
  canon_meet := fun ha hb => (pairMeet_spec hH hT ha hb).1
  den_meet := fun ha hb => (pairMeet_spec hH hT ha hb).2
  canon_minus := fun ha hb => (pairMinus_spec hH hT ha hb).1
  den_minus := fun ha hb => (pairMinus_spec hH hT ha hb).2

end Correctness

end LibHSC
