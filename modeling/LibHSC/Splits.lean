import LibHSC.Query
import LibHSC.Lia.Subst

/-!
When `split_equiv` returns, and what its classes are. Its markers are the markers of the
words (`Marks`), so it returns exactly when every word of the diagram has one: the bound
on the rounds of currying is never met by an expression that names no cell, since each
round grounds a position. The classes have pairwise distinct markers and no class is
empty.
-/

namespace LibHSC

open Lia Grouping

/-! ## Distinct classes -/

/-- Every marker has one class, and no class is empty. -/
structure Distinct {C : Type} (none : C) (cs : List (IExpr × C)) : Prop where
  keys : (cs.map Prod.fst).Nodup
  ne_none : ∀ c ∈ cs, c.2 ≠ none

theorem Distinct.nil {C : Type} {none : C} : Distinct none [] :=
  ⟨List.nodup_nil, fun _ hc => nomatch hc⟩

theorem splitGround_distinct {C : Type} [DecidableEq C] {none d : C} {e : IExpr}
    {rest : Except Err (List (IExpr × C))} {cs : List (IExpr × C)}
    (hrest : rest = .ok cs → Distinct none cs) (h : splitGround none d e rest = .ok cs) :
    Distinct none cs := by
  unfold splitGround at h
  split at h
  · cases h
    exact Distinct.nil
  · next hne =>
    split at h
    · cases h
      exact ⟨List.nodup_singleton e, by simpa using hne⟩
    · exact hrest h

theorem splitLeaf_distinct {set : IntSet} {e : IExpr} {cs : List (IExpr × IntSet)}
    (h : splitLeaf set e = .ok cs) : Distinct ([] : IntSet) cs := by
  unfold splitLeaf at h
  split at h
  · cases h
    exact Distinct.nil
  · obtain ⟨ms, -, h⟩ := bind_eq_ok.mp h
    cases h
    exact ⟨nodup_groupAll ms, ne_nil_of_mem_groupAll⟩

theorem classesOf_distinct {C D : Type} [DecidableEq C] [DecidableEq D] (H : SupportAlgebra C)
    (T : SupportAlgebra D) (rs : List (IExpr × Arc C D)) :
    Distinct ([] : List (Arc C D)) (classesOf H T rs) := by
  refine ⟨?_, fun c hc => by simpa using List.of_mem_filter hc⟩
  have hkeys : ((groupAll rs).map fun c => (c.1, canonize H T c.2)).map Prod.fst =
      (groupAll rs).map Prod.fst := by
    rw [List.map_map]
    rfl
  exact ((List.filter_sublist).map Prod.fst).nodup (hkeys ▸ nodup_groupAll rs)

section Refine

variable {C D W : Type} {A : SupportAlgebra (List (Arc C D))} {dn : List (Arc C D) → Set W}
  {Cn : List (Arc C D) → Prop} (hA : SupportLaws A dn Cn)

include hA in
/-- Merging keeps the classes distinct. -/
theorem merge_distinct {fine acc : List (IExpr × List (Arc C D))}
    (hfine : ∀ c ∈ fine, Cn c.2 ∧ c.2 ≠ A.none) (hacc : ∀ c ∈ acc, Cn c.2)
    (h : Distinct A.none acc) :
    (∀ c ∈ fine.foldl (fun acc c => joinInsert A.join c.1 c.2 acc) acc, Cn c.2) ∧
      Distinct A.none (fine.foldl (fun acc c => joinInsert A.join c.1 c.2 acc) acc) := by
  induction fine generalizing acc with
  | nil => exact ⟨hacc, h⟩
  | cons c fine ih =>
    obtain ⟨hc, hfs⟩ := List.forall_mem_cons.mp hfine
    have hkeep : ∀ g ∈ joinInsert A.join c.1 c.2 acc, Cn g.2 ∧ g.2 ≠ A.none :=
      forall_joinInsert (fun _ x y hx hy =>
        ⟨hA.canon_join hx.1 hy.1, hA.join_ne_none hx.1 hy.1 hx.2⟩) hc
        fun g hg => ⟨hacc g hg, h.ne_none g hg⟩
    exact ih hfs (fun g hg => (hkeep g hg).1) ⟨nodup_joinInsert h.keys, fun g hg => (hkeep g hg).2⟩

include hA in
theorem refineAll_distinct
    {refine : IExpr → List (Arc C D) → Except Err (List (IExpr × List (Arc C D)))} :
    ∀ {cs acc r : List (IExpr × List (Arc C D))},
    (∀ c ∈ cs, ∀ fine, refine c.1 c.2 = .ok fine → ∀ x ∈ fine, Cn x.2 ∧ x.2 ≠ A.none) →
    (∀ c ∈ acc, Cn c.2) → Distinct A.none acc → refineAll A.join refine cs acc = .ok r →
    Distinct A.none r := by
  intro cs
  induction cs with
  | nil =>
    intro acc r _ _ hd h
    cases h
    exact hd
  | cons c cs ih =>
    intro acc r href hacc hd h
    obtain ⟨hc, hcs⟩ := List.forall_mem_cons.mp href
    obtain ⟨fine, hfine, h⟩ := bind_eq_ok.mp h
    obtain ⟨h1, h2⟩ := merge_distinct hA (hc fine hfine) hacc hd
    exact ih hcs h1 h2 h

theorem refineAll_returns
    (refine : IExpr → List (Arc C D) → Except Err (List (IExpr × List (Arc C D)))) :
    ∀ {cs acc : List (IExpr × List (Arc C D))}, (∀ c ∈ cs, ∃ fine, refine c.1 c.2 = .ok fine) →
    ∃ r, refineAll A.join refine cs acc = .ok r := by
  intro cs
  induction cs with
  | nil => exact fun _ => ⟨_, rfl⟩
  | cons c cs ih =>
    intro acc h
    obtain ⟨⟨fine, hfine⟩, hcs⟩ := List.forall_mem_cons.mp h
    obtain ⟨r, hr⟩ := ih hcs
    exact ⟨r, bind_of_ok hfine hr⟩

end Refine

section Rects

variable {C D : Type} {e : IExpr}

theorem headRects_returns {splitH : C → IExpr → Except Err (List (IExpr × C))} :
    ∀ {d : List (Arc C D)}, (∃ rs, headRects splitH e d = .ok rs) ↔
      ∀ a ∈ d, ∃ cs, splitH a.prime e = .ok cs := by
  intro d
  induction d with
  | nil => exact ⟨fun _ a ha => (nomatch ha), fun _ => ⟨[], rfl⟩⟩
  | cons a as ih =>
    rw [List.forall_mem_cons, ← ih]
    constructor
    · rintro ⟨rs, h⟩
      obtain ⟨cs, hcs, h⟩ := bind_eq_ok.mp h
      obtain ⟨rest, hrest, -⟩ := bind_eq_ok.mp h
      exact ⟨⟨cs, hcs⟩, rest, hrest⟩
    · rintro ⟨⟨cs, hcs⟩, rest, hrest⟩
      exact ⟨_, bind_of_ok hcs (bind_of_ok hrest rfl)⟩

theorem tailRects_returns {splitT : D → IExpr → Except Err (List (IExpr × D))} :
    ∀ {d : List (Arc C D)}, (∃ rs, tailRects splitT e d = .ok rs) ↔
      ∀ a ∈ d, ∃ cs, splitT a.sub e = .ok cs := by
  intro d
  induction d with
  | nil => exact ⟨fun _ a ha => (nomatch ha), fun _ => ⟨[], rfl⟩⟩
  | cons a as ih =>
    rw [List.forall_mem_cons, ← ih]
    constructor
    · rintro ⟨rs, h⟩
      obtain ⟨cs, hcs, h⟩ := bind_eq_ok.mp h
      obtain ⟨rest, hrest, -⟩ := bind_eq_ok.mp h
      exact ⟨⟨cs, hcs⟩, rest, hrest⟩
    · rintro ⟨⟨cs, hcs⟩, rest, hrest⟩
      exact ⟨_, bind_of_ok hcs (bind_of_ok hrest rfl)⟩

/-- No rectangle of the split primes is empty. -/
theorem headRects_ne {H : SupportAlgebra C} {T : SupportAlgebra D}
    {splitH : C → IExpr → Except Err (List (IExpr × C))} :
    ∀ {d : List (Arc C D)} {rs : List (IExpr × Arc C D)},
      (∀ a ∈ d, ∀ cs, splitH a.prime e = .ok cs → Distinct H.none cs) →
      (∀ a ∈ d, a.sub ≠ T.none) →
      headRects splitH e d = .ok rs → ∀ c ∈ rs, c.2.prime ≠ H.none ∧ c.2.sub ≠ T.none := by
  intro d
  induction d with
  | nil =>
    intro rs _ _ h
    cases h
    exact fun c hc => nomatch hc
  | cons a as ih =>
    intro rs hsplit hne h
    obtain ⟨hsplit, hsplits⟩ := List.forall_mem_cons.mp hsplit
    obtain ⟨ha, has⟩ := List.forall_mem_cons.mp hne
    obtain ⟨cs, hcs, h⟩ := bind_eq_ok.mp h
    obtain ⟨rest, hrest, h⟩ := bind_eq_ok.mp h
    cases h
    exact List.forall_mem_append.mpr ⟨List.forall_mem_map.mpr fun c hc =>
      ⟨(hsplit cs hcs).ne_none c hc, ha⟩, ih hsplits has hrest⟩

theorem tailRects_ne {H : SupportAlgebra C} {T : SupportAlgebra D}
    {splitT : D → IExpr → Except Err (List (IExpr × D))} :
    ∀ {d : List (Arc C D)} {rs : List (IExpr × Arc C D)},
      (∀ a ∈ d, ∀ cs, splitT a.sub e = .ok cs → Distinct T.none cs) →
      (∀ a ∈ d, a.prime ≠ H.none) →
      tailRects splitT e d = .ok rs → ∀ c ∈ rs, c.2.prime ≠ H.none ∧ c.2.sub ≠ T.none := by
  intro d
  induction d with
  | nil =>
    intro rs _ _ h
    cases h
    exact fun c hc => nomatch hc
  | cons a as ih =>
    intro rs hsplit hne h
    obtain ⟨hsplit, hsplits⟩ := List.forall_mem_cons.mp hsplit
    obtain ⟨ha, has⟩ := List.forall_mem_cons.mp hne
    obtain ⟨cs, hcs, h⟩ := bind_eq_ok.mp h
    obtain ⟨rest, hrest, h⟩ := bind_eq_ok.mp h
    cases h
    exact List.forall_mem_append.mpr ⟨List.forall_mem_map.mpr fun c hc =>
      ⟨ha, (hsplit cs hcs).ne_none c hc⟩, ih hsplits has hrest⟩

end Rects

/-! ## The markers of a position -/

theorem support_var (r : Nat) : support (.var r) = [r] := by
  simp [support, sortPositions, collect]

theorem support_nodup (e : IExpr) : (support e).Nodup :=
  (List.perm_insertionSort _ _).nodup_iff.mpr (List.nodup_dedup _)

theorem not_ground_var {r : Nat} : ¬(isConst (.var r) = true ∨ IExpr.var r = .undef) := by
  rintro (h | h) <;> cases h

/-- The marker of a bare position is a value. -/
theorem CutMarks.var {V W : Type} {R : ExprIds} {wh : Nat} {marksH : IExpr → V → IExpr → Prop}
    {marksT : IExpr → W → IExpr → Prop}
    (hH : ∀ r w m, marksH (.var r) w m → ∃ v, m = .const v)
    (hT : ∀ r w m, marksT (.var r) w m → ∃ v, m = .const v) {r : Nat} {w : V × W} {m : IExpr}
    (h : CutMarks R wh marksH marksT (.var r) w m) : ∃ v, m = .const v := by
  cases h with
  | ground hg => exact absurd hg not_ground_var
  | head _ _ _ hm => exact hH r w.1 m hm
  | tail _ _ _ hs hm =>
    unfold shiftPositions at hs
    split at hs
    · cases hs
      exact hT r w.2 m hm
    · cases hs
      exact hT _ w.2 m hm
  | span _ hr _ hlt hx =>
    obtain ⟨q, hq, hle⟩ := hx
    rw [support_var, List.mem_singleton] at hr hq
    omega

theorem Marks.var {R : ExprIds} : (s : Shape) → ∀ r w m, Marks R s (.var r) w m → ∃ v, m = .const v
  | .unit => fun _ _ _ h => absurd h.1 not_ground_var
  | .leaf => by
    rintro r w m (⟨hg, -⟩ | ⟨-, hm⟩)
    · exact absurd hg not_ground_var
    · obtain ⟨v, hv, hm⟩ := bind_eq_ok.mp hm
      cases v with
      | none =>
        unfold evalInt at hv
        split at hv <;> cases hv
      | some v =>
        obtain ⟨c, -, hm⟩ := bind_eq_ok.mp hm
        cases hm
        exact ⟨c, rfl⟩
  | .pair h t => fun _ _ _ hm => CutMarks.var (Marks.var h) (Marks.var t) hm

/-! ## Each round grounds a position -/

/-- The expression names no cell. -/
def ArrayFree (e : IExpr) : Prop := collectArrays e = []

theorem arrayFree_iff {e : IExpr} : ArrayFree e ↔ ∀ p ∈ collectArrays e, False :=
  List.eq_nil_iff_forall_not_mem

theorem subst_reads {R : ExprIds} {e e' : IExpr} {r : Nat} {v : Int} (he : ArrayFree e)
    (h : subst R e r (.const v) = .ok e') :
    ArrayFree e' ∧ ∀ p ∈ support e', p ∈ support e ∧ p ≠ r := by
  have hw : e.Within (fun q => q = r ∨ (q ∈ support e ∧ q ≠ r)) (fun _ => False) := by
    refine ⟨fun q hq => ?_, arrayFree_iff.mp he⟩
    by_cases hqr : q = r
    · exact Or.inl hqr
    · exact Or.inr ⟨mem_support.mpr hq, hqr⟩
  have hw' := subst_within (fun _ hq => hq.elim) e hw e' h
  exact ⟨arrayFree_iff.mpr hw'.cells, fun p hp => hw'.scalars p (mem_support.mp hp)⟩

theorem subst_support_lt {R : ExprIds} {e e' : IExpr} {r : Nat} {v : Int} (he : ArrayFree e)
    (hr : r ∈ support e) (h : subst R e r (.const v) = .ok e') :
    (support e').length < (support e).length := by
  have hsub : support e' ⊆ (support e).erase r := fun p hp => by
    obtain ⟨hp', hne⟩ := (subst_reads he h).2 p hp
    exact (List.mem_erase_of_ne hne).mpr hp'
  have hle := (List.subperm_of_subset (support_nodup e') hsub).length_le
  rw [List.length_erase_of_mem hr] at hle
  have := List.length_pos_of_mem hr
  omega

theorem two_le_support {e : IExpr} {r wh : Nat} (hr : r ∈ support e) (hlt : r < wh)
    (hx : ∃ p ∈ support e, wh ≤ p) : 1 < (support e).length := by
  obtain ⟨q, hq, hle⟩ := hx
  have hnd : [r, q].Nodup := List.nodup_cons.mpr
    ⟨fun h => absurd (List.mem_singleton.mp h) (by omega), List.nodup_singleton q⟩
  exact (List.subperm_of_subset hnd (by simp [hr, hq])).length_le

theorem shiftPositions_arrayFree {R : ExprIds} {e e' : IExpr} {delta : Int} (he : ArrayFree e)
    (h : shiftPositions R e delta = .ok e') : ArrayFree e' := by
  have hw : e.Within (fun _ => True) (fun _ => False) := ⟨fun _ _ => trivial, arrayFree_iff.mp he⟩
  exact arrayFree_iff.mpr (shiftPositions_within (P := fun _ => True) hw (fun _ hq => hq) h).cells

/-! ## The branch of a split -/

theorem splitGround_rest {C : Type} [DecidableEq C] {none d : C} {e : IExpr}
    {rest : Except Err (List (IExpr × C))} (hd : d ≠ none)
    (hng : ¬(isConst e = true ∨ e = .undef)) : splitGround none d e rest = rest := by
  unfold splitGround
  rw [if_neg hd, if_neg hng]

section Branches

variable {V W : Type} {R : ExprIds} {wh : Nat} {marksH : IExpr → V → IExpr → Prop}
  {marksT : IExpr → W → IExpr → Prop} {e m : IExpr} {w : V × W}

theorem CutMarks.head_inv (hng : ¬(isConst e = true ∨ e = .undef)) (hne : support e ≠ [])
    (hlt : ∀ p ∈ support e, p < wh) (h : CutMarks R wh marksH marksT e w m) :
    marksH e w.1 m := by
  obtain ⟨p, hp⟩ := List.exists_mem_of_ne_nil _ hne
  cases h with
  | ground hg => exact absurd hg hng
  | head _ _ _ hm => exact hm
  | tail _ _ hle => exact absurd (hlt p hp) (not_lt.mpr (hle p hp))
  | span _ _ _ _ hx =>
    obtain ⟨q, hq, hle⟩ := hx
    exact absurd (hlt q hq) (not_lt.mpr hle)

theorem CutMarks.tail_inv (hng : ¬(isConst e = true ∨ e = .undef)) (hne : support e ≠ [])
    (hle : ∀ p ∈ support e, wh ≤ p) (h : CutMarks R wh marksH marksT e w m) :
    ∃ e', shiftPositions R e (-wh) = .ok e' ∧ marksT e' w.2 m := by
  obtain ⟨p, hp⟩ := List.exists_mem_of_ne_nil _ hne
  cases h with
  | ground hg => exact absurd hg hng
  | head _ _ hlt => exact absurd (hlt p hp) (not_lt.mpr (hle p hp))
  | tail _ _ _ hs hm => exact ⟨_, hs, hm⟩
  | span _ hr _ hlt => exact absurd hlt (not_lt.mpr (hle _ hr))

theorem CutMarks.span_inv {r : Nat} (hng : ¬(isConst e = true ∨ e = .undef))
    (hr : r ∈ support e) (hmin : ∀ p ∈ support e, r ≤ p) (hlt : r < wh)
    (hx : ∃ p ∈ support e, wh ≤ p) (h : CutMarks R wh marksH marksT e w m) :
    ∃ x e', CutMarks R wh marksH marksT (.var r) w x ∧ subst R e r x = .ok e' ∧
      CutMarks R wh marksH marksT e' w m := by
  obtain ⟨q, hq, hq'⟩ := hx
  cases h with
  | ground hg => exact absurd hg hng
  | head _ _ hlt' => exact absurd (hlt' q hq) (not_lt.mpr hq')
  | tail _ _ hle => exact absurd hlt (not_lt.mpr (hle r hr))
  | span _ hr' hmin' _ _ h0 hsub h1 =>
    obtain rfl := le_antisymm (hmin _ hr') (hmin' _ hr)
    exact ⟨_, _, h0, hsub, h1⟩

variable {C D : Type} [DecidableEq C] [DecidableEq D] {H : SupportAlgebra C}
  {T : SupportAlgebra D} {splitH : C → IExpr → Except Err (List (IExpr × C))}
  {splitT : D → IExpr → Except Err (List (IExpr × D))}
  {join : List (Arc C D) → List (Arc C D) → List (Arc C D)} {d : List (Arc C D)}

theorem splitPair_head {fuel : Nat} (hd : d ≠ []) (hng : ¬(isConst e = true ∨ e = .undef))
    (hne : support e ≠ []) (hlt : ∀ p ∈ support e, p < wh) :
    splitPair R H T splitH splitT wh join fuel d e =
      (do return classesOf H T (← headRects splitH e d)) := by
  rw [splitPair.eq_def]
  dsimp only
  rw [splitGround_rest hd hng]
  split
  · next hsup => exact absurd hsup hne
  · next r ps hsup =>
    rw [hsup] at hlt
    exact if_pos (hlt _ (List.getLast_mem _))

theorem splitPair_tail {fuel : Nat} (hd : d ≠ []) (hng : ¬(isConst e = true ∨ e = .undef))
    (hne : support e ≠ []) (hle : ∀ p ∈ support e, wh ≤ p) :
    splitPair R H T splitH splitT wh join fuel d e =
      (do return classesOf H T (← tailRects splitT (← shiftPositions R e (-wh)) d)) := by
  rw [splitPair.eq_def]
  dsimp only
  rw [splitGround_rest hd hng]
  split
  · next hsup => exact absurd hsup hne
  · next r ps hsup =>
    rw [hsup] at hle
    rw [if_neg (not_lt.mpr (hle _ (List.getLast_mem _))), if_pos (hle r List.mem_cons_self)]

theorem splitPair_span {n r : Nat} (hd : d ≠ []) (hng : ¬(isConst e = true ∨ e = .undef))
    (hr : r ∈ support e) (hmin : ∀ p ∈ support e, r ≤ p) (hlt : r < wh)
    (hx : ∃ p ∈ support e, wh ≤ p) :
    splitPair R H T splitH splitT wh join (n + 1) d e = (do
      let cs ← splitPair R H T splitH splitT wh join n d (.var r)
      refineAll join (fun m piece => do
        splitPair R H T splitH splitT wh join n piece (← subst R e r m)) cs []) := by
  rw [splitPair.eq_def]
  dsimp only
  rw [splitGround_rest hd hng]
  split
  · next hsup =>
    rw [hsup] at hr
    exact absurd hr List.not_mem_nil
  · next r' ps hsup =>
    have hsorted := support_pairwise e
    have hlast := le_getLast_of_mem (support_pairwise e) (by rw [hsup]; simp)
    obtain rfl : r' = r := by
      refine le_antisymm ?_ (hmin r' (hsup ▸ List.mem_cons_self))
      rw [hsup] at hr hsorted
      rcases List.mem_cons.mp hr with rfl | hr
      · exact le_rfl
      · exact List.rel_of_pairwise_cons hsorted hr
    obtain ⟨q, hq, hq'⟩ := hx
    have hlast' := hlast q hq
    simp only [hsup] at hlast'
    rw [if_neg (not_lt.mpr (hq'.trans hlast')), if_neg (not_le.mpr hlt)]

end Branches

/-! ## The split at every sort -/

section PairSplit

variable {C D V W : Type} [DecidableEq C] [DecidableEq D] {R : ExprIds} {wh : Nat}
  {H : SupportAlgebra C} {T : SupportAlgebra D} {A : SupportAlgebra (List (Arc C D))}
  {denH : C → Set V} {denT : D → Set W} {CanonH : C → Prop} {CanonT : D → Prop}
  {marksH : IExpr → V → IExpr → Prop} {marksT : IExpr → W → IExpr → Prop}
  {splitH : C → IExpr → Except Err (List (IExpr × C))}
  {splitT : D → IExpr → Except Err (List (IExpr × D))}
  (hH : SupportLaws H denH CanonH) (hT : SupportLaws T denT CanonT)
  (hA : SupportLaws A (nodeDen denH denT) (NodeCanon H T denH CanonH CanonT))
  (hA0 : A.none = [])
  (ihH : ∀ d e cs, e.Normal → CanonH d → splitH d e = .ok cs → Classes denH CanonH (marksH e) d cs)
  (ihT : ∀ d e cs, e.Normal → CanonT d → splitT d e = .ok cs → Classes denT CanonT (marksT e) d cs)

include hH hT hA hA0 ihH ihT

theorem splitPair_distinct (fuel : Nat) : ∀ d e cs, e.Normal → NodeCanon H T denH CanonH CanonT d →
    splitPair R H T splitH splitT wh A.join fuel d e = .ok cs → Distinct [] cs := by
  induction fuel using Nat.strongRecOn with
  | ind fuel ih =>
    intro d e cs he hd h
    rw [splitPair.eq_def] at h
    refine splitGround_distinct (fun h => ?_) h
    split at h
    · cases h
    next r ps _ =>
    split at h
    · obtain ⟨rs, -, h⟩ := bind_eq_ok.mp h
      cases h
      exact classesOf_distinct H T rs
    split at h
    · obtain ⟨e', -, h⟩ := bind_eq_ok.mp h
      obtain ⟨rs, -, h⟩ := bind_eq_ok.mp h
      cases h
      exact classesOf_distinct H T rs
    split at h
    · cases h
    · next n _ =>
      obtain ⟨cs0, hcs0, h⟩ := bind_eq_ok.mp h
      have h0 := splitPair_classes hH hT hA hA0 ihH ihT n d (.var r) cs0 trivial hd hcs0
      rw [← hA0]
      refine refineAll_distinct hA (fun c hc fine hfine => ?_) (by simp) Distinct.nil h
      obtain ⟨e', he', hfine⟩ := bind_eq_ok.mp hfine
      have hn := subst_normal he (h0.marker c hc).1 he'
      have hcl := splitPair_classes hH hT hA hA0 ihH ihT n c.2 e' fine hn (h0.canon c hc) hfine
      have hdi := ih n (Nat.lt_succ_self n) c.2 e' fine hn (h0.canon c hc) hfine
      rw [hA0]
      exact fun x hx => ⟨hcl.canon x hx, hdi.ne_none x hx⟩

variable (uH : ∀ e w m m', marksH e w m → marksH e w m' → m = m')
  (uT : ∀ e w m m', marksT e w m → marksT e w m' → m = m')
  (vH : ∀ r w m, marksH (.var r) w m → ∃ v, m = .const v)
  (vT : ∀ r w m, marksT (.var r) w m → ∃ v, m = .const v)
  (rH : ∀ d e, e.Normal → ArrayFree e → CanonH d → (∀ w ∈ denH d, ∃ m, marksH e w m) →
    ∃ cs, splitH d e = .ok cs)
  (rT : ∀ d e, e.Normal → ArrayFree e → CanonT d → (∀ w ∈ denT d, ∃ m, marksT e w m) →
    ∃ cs, splitT d e = .ok cs)

include uH uT vH vT rH rT

omit rH rT in
/-- The curried split: the words of a class share its marker, hence the residual. -/
theorem splitPair_span_returns {n r : Nat} {d : List (Arc C D)} {e : IExpr}
    (ih : ∀ d e, e.Normal → ArrayFree e → NodeCanon H T denH CanonH CanonT d →
      (support e).length ≤ n →
      (∀ w ∈ nodeDen denH denT d, ∃ m, CutMarks R wh marksH marksT e w m) →
      ∃ cs, splitPair R H T splitH splitT wh A.join n d e = .ok cs)
    (he : e.Normal) (hfree : ArrayFree e) (hd : NodeCanon H T denH CanonH CanonT d)
    (hlen : (support e).length ≤ n + 1)
    (hmarks : ∀ w ∈ nodeDen denH denT d, ∃ m, CutMarks R wh marksH marksT e w m)
    (hg : ¬(isConst e = true ∨ e = .undef)) (hr : r ∈ support e)
    (hmin : ∀ p ∈ support e, r ≤ p) (hlt : r < wh) (hx : ∃ p ∈ support e, wh ≤ p) :
    ∃ cs, splitPair R H T splitH splitT wh A.join (n + 1) d e = .ok cs := by
  by_cases hd0 : d = []
  · rw [splitPair.eq_def]
    exact ⟨[], if_pos hd0⟩
  have htwo := two_le_support hr hlt hx
  have hspan : ∀ w ∈ nodeDen denH denT d, ∃ m x e', CutMarks R wh marksH marksT (.var r) w x ∧
      subst R e r x = .ok e' ∧ CutMarks R wh marksH marksT e' w m := by
    intro w hw
    obtain ⟨m, hm⟩ := hmarks w hw
    exact ⟨m, hm.span_inv hg hr hmin hlt hx⟩
  have hlen1 : (support (.var r)).length ≤ n := by
    rw [support_var, List.length_singleton]
    omega
  obtain ⟨cs, hcs⟩ := ih d (.var r) trivial rfl hd hlen1 fun w hw => by
    obtain ⟨-, x, -, hx', -⟩ := hspan w hw
    exact ⟨x, hx'⟩
  have hcl := splitPair_classes hH hT hA hA0 ihH ihT n d (.var r) cs trivial hd hcs
  have hdi := splitPair_distinct hH hT hA hA0 ihH ihT n d (.var r) cs trivial hd hcs
  have hword : ∀ c ∈ cs, ∀ w ∈ nodeDen denH denT c.2, ∃ e' m,
      subst R e r c.1 = .ok e' ∧ CutMarks R wh marksH marksT e' w m := by
    intro c hc w hw
    obtain ⟨m, x, e', hx', hsub, hm⟩ := hspan w ((hcl.cover w).mpr ⟨c, hc, hw⟩)
    obtain rfl := CutMarks.unique uH uT hx' (hcl.has c hc w hw)
    exact ⟨e', m, hsub, hm⟩
  have hpieces : ∀ c ∈ cs, ∃ fine, (do
      splitPair R H T splitH splitT wh A.join n c.2 (← subst R e r c.1)) = Except.ok fine := by
    intro c hc
    obtain ⟨w, hw⟩ := hA.nonempty_of_ne_none (hcl.canon c hc) (hA0 ▸ hdi.ne_none c hc)
    obtain ⟨e', -, hsub, -⟩ := hword c hc w hw
    obtain ⟨v, hv⟩ := (hcl.has c hc w hw).var vH vT
    have hsub' := hv ▸ hsub
    have hlt' := subst_support_lt hfree hr hsub'
    obtain ⟨fine, hfine⟩ := ih c.2 e' (subst_normal he (hcl.marker c hc).1 hsub)
      (subst_reads hfree hsub').1 (hcl.canon c hc) (by omega) fun w' hw' => by
        obtain ⟨e₁, x, hsub₁, hx'⟩ := hword c hc w' hw'
        rw [hsub] at hsub₁
        cases hsub₁
        exact ⟨x, hx'⟩
    exact ⟨fine, bind_of_ok hsub hfine⟩
  obtain ⟨out, hout⟩ := refineAll_returns (A := A) (fun m piece => do
    splitPair R H T splitH splitT wh A.join n piece (← subst R e r m)) hpieces
  exact ⟨out, (splitPair_span hd0 hg hr hmin hlt hx).trans (bind_of_ok hcs hout)⟩

/-- A split returns on a diagram all of whose words have a marker, within as many rounds
as the expression reads positions. -/
theorem splitPair_returns (fuel : Nat) : ∀ d e, e.Normal → ArrayFree e →
    NodeCanon H T denH CanonH CanonT d → (support e).length ≤ fuel →
    (∀ w ∈ nodeDen denH denT d, ∃ m, CutMarks R wh marksH marksT e w m) →
    ∃ cs, splitPair R H T splitH splitT wh A.join fuel d e = .ok cs := by
  induction fuel using Nat.strongRecOn with
  | ind fuel ih =>
    intro d e he hfree hd hlen hmarks
    by_cases hd0 : d = []
    · rw [splitPair.eq_def]
      exact ⟨[], if_pos hd0⟩
    by_cases hg : isConst e = true ∨ e = .undef
    · rw [splitPair.eq_def]
      exact ⟨[(e, d)], (if_neg hd0).trans (if_pos hg)⟩
    obtain ⟨w, hw⟩ := hA.nonempty_of_ne_none hd (hA0 ▸ hd0)
    obtain ⟨m, hm⟩ := hmarks w hw
    -- the branch is the one the marker of any word went through
    cases hm with
    | ground hg' => exact absurd hg' hg
    | head _ hne hlt _ =>
      rw [splitPair_head hd0 hg hne hlt]
      obtain ⟨rs, hrs⟩ := headRects_returns.mpr fun a ha => by
        obtain ⟨u, hu⟩ := hT.nonempty_of_ne_none (hd.canon a ha).2 (hd.sub_ne a ha)
        refine rH a.prime e he hfree (hd.canon a ha).1 fun v hv => ?_
        obtain ⟨x, hx⟩ := hmarks (v, u) ((mem_nodeDen denH denT).mpr ⟨a, ha, hv, hu⟩)
        exact ⟨x, hx.head_inv hg hne hlt⟩
      exact ⟨_, bind_of_ok hrs rfl⟩
    | @tail e' _ _ _ _ hne hle hs _ =>
      rw [splitPair_tail hd0 hg hne hle]
      obtain ⟨rs, hrs⟩ := tailRects_returns.mpr fun a ha => by
        obtain ⟨v, hv⟩ := hH.nonempty_of_ne_none (hd.canon a ha).1 (hd.prime_ne a ha)
        refine rT a.sub _ (shiftPositions_normal he hs) (shiftPositions_arrayFree hfree hs)
          (hd.canon a ha).2 fun u hu => ?_
        obtain ⟨x, hx⟩ := hmarks (v, u) ((mem_nodeDen denH denT).mpr ⟨a, ha, hv, hu⟩)
        obtain ⟨e₁, hs₁, hx₁⟩ := hx.tail_inv hg hne hle
        rw [hs] at hs₁
        cases hs₁
        exact ⟨x, hx₁⟩
      exact ⟨_, bind_of_ok hs (bind_of_ok hrs rfl)⟩
    | span _ hr hmin hlt hx _ _ _ =>
      cases fuel with
      | zero => exact absurd (List.length_pos_of_mem hr) (not_lt.mpr hlen)
      | succ n =>
        exact splitPair_span_returns hH hT hA hA0 ihH ihT uH uT vH vT
          (ih n (Nat.lt_succ_self n)) he hfree hd hlen hmarks hg hr hmin hlt hx

end PairSplit

theorem markAll_returns {e : IExpr} : ∀ {set : List Int},
    (∀ v ∈ set, ∃ m, markerOf e v = .ok m) → ∃ ms, markAll e set = .ok ms := by
  intro set
  induction set with
  | nil => exact fun _ => ⟨[], rfl⟩
  | cons x xs ih =>
    intro h
    obtain ⟨⟨m, hm⟩, hxs⟩ := List.forall_mem_cons.mp h
    obtain ⟨ms, hms⟩ := ih hxs
    exact ⟨_, bind_of_ok hm (bind_of_ok hms rfl)⟩

section Sorts

variable {N : Numbering} {R : ExprIds}

/-- The classes of a split are distinct and none is empty, at every sort. -/
theorem splitEquiv_distinct : (s : Shape) → (d : Code s) → (e : IExpr) →
    (cs : List (IExpr × Code s)) → e.Normal → Canon N s d →
    splitEquiv N R s d e = .ok cs → Distinct (algebra N s).none cs
  | .unit, _, _, _, _, _, h => splitGround_distinct
      (fun h : Except.error Err.undefinedBehaviour = Except.ok _ => nomatch h) h
  | .leaf, _, _, _, _, _, h => splitGround_distinct (fun h => splitLeaf_distinct h) h
  | .pair h t, d, e, cs, he, hd, hcs =>
    splitPair_distinct (laws N h) (laws N t) (laws N (.pair h t)) rfl (splitEquiv_classes h)
      (splitEquiv_classes t) _ d e cs he hd hcs

/-- A split returns when every word of the diagram has a marker. By induction on the
sort. -/
theorem splitEquiv_returns_of_marks : (s : Shape) → (d : Code s) → (e : IExpr) → e.Normal →
    ArrayFree e → Canon N s d → (∀ w ∈ den s d, ∃ m, Marks R s e w m) →
    ∃ cs, splitEquiv N R s d e = .ok cs
  | .unit, d, e, _, _, hd, hm => by
    by_cases hn : d = (algebra N .unit).none
    · exact ⟨[], if_pos hn⟩
    · obtain ⟨w, hw⟩ := (laws N .unit).nonempty_of_ne_none hd hn
      obtain ⟨m, hg, -⟩ := hm w hw
      exact ⟨[(e, d)], (if_neg hn).trans (if_pos hg)⟩
  | .leaf, d, e, _, _, _, hm => by
    by_cases hn : d = (algebra N .leaf).none
    · exact ⟨[], if_pos hn⟩
    by_cases hg : isConst e = true ∨ e = .undef
    · exact ⟨[(e, d)], (if_neg hn).trans (if_pos hg)⟩
    have hall : ∀ v ∈ (show IntSet from d), ∃ m, markerOf e v = .ok m := by
      intro v hv
      obtain ⟨m, ⟨hg', -⟩ | ⟨-, hm⟩⟩ := hm v hv
      · exact absurd hg' hg
      · exact ⟨m, hm⟩
    obtain ⟨ms, hms⟩ := markAll_returns hall
    refine ⟨groupAll ms, (splitGround_rest hn hg).trans ((if_neg hn).trans ?_)⟩
    exact bind_of_ok hms rfl
  | .pair h t, d, e, he, hfree, hd, hm =>
    splitPair_returns (laws N h) (laws N t) (laws N (.pair h t)) rfl (splitEquiv_classes h)
      (splitEquiv_classes t) (Marks.unique h) (Marks.unique t) (Marks.var h) (Marks.var t)
      (splitEquiv_returns_of_marks h) (splitEquiv_returns_of_marks t) _ d e he hfree hd le_rfl
      hm

/-- A split returns exactly when every word of the diagram has a marker: whether it does
is a matter of single words. -/
theorem splitEquiv_returns {s : Shape} {d : Code s} {e : IExpr} (he : e.Normal)
    (hfree : ArrayFree e) (hd : Canon N s d) :
    (∃ cs, splitEquiv N R s d e = .ok cs) ↔ ∀ w ∈ den s d, ∃ m, Marks R s e w m := by
  refine ⟨fun ⟨cs, hcs⟩ w hw => ?_, splitEquiv_returns_of_marks s d e he hfree hd⟩
  have hcl := splitEquiv_classes s d e cs he hd hcs
  obtain ⟨c, hc, hwc⟩ := (hcl.cover w).mp hw
  exact ⟨c.1, hcl.has c hc w hwc⟩

end Sorts

end LibHSC
