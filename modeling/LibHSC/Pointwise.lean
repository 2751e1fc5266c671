import LibHSC.Fuel
import Mathlib.Data.Set.Card
import Mathlib.Data.Set.Finite.Lattice

/-!
Whether an additive term returns is a matter of single words: it returns on a diagram as
soon as every word of the diagram lies in some diagram on which it returns. With the
relation of the term this makes application pointwise, values and errors alike.

`Pointwise` bundles what is kept: more fuel changes no value, values are canonical, they
are the image under the relation, and returning is pointwise. There is one lemma for each
way the terms are built.
-/

namespace LibHSC

open Lia

/-- A bound for each element of a list is a bound for the list. -/
theorem exists_bound {α : Type} {P : Nat → α → Prop}
    (hmono : ∀ {n k : Nat} {a : α}, n ≤ k → P n a → P k a) {l : List α}
    (h : ∀ a ∈ l, ∃ n, P n a) : ∃ n, ∀ a ∈ l, P n a := by
  induction l with
  | nil => exact ⟨0, fun a ha => nomatch ha⟩
  | cons a l ih =>
    obtain ⟨⟨n, hn⟩, hl⟩ := List.forall_mem_cons.mp h
    obtain ⟨k, hk⟩ := ih hl
    refine ⟨max n k, List.forall_mem_cons.mpr ⟨hmono (Nat.le_max_left n k) hn, ?_⟩⟩
    exact fun b hb => hmono (Nat.le_max_right n k) (hk b hb)

/-- The function returns at this argument with some fuel. -/
def Ends {C X : Type} (f : Nat → C → Except Err X) (c : C) : Prop := ∃ n r, f n c = .ok r

/-- Every word of the diagram lies in one at which the function returns. -/
def EndsAround {C X W : Type} (den : C → Set W) (Canon : C → Prop)
    (f : Nat → C → Except Err X) (c : C) : Prop :=
  ∀ w ∈ den c, ∃ c', Canon c' ∧ w ∈ den c' ∧ Ends f c'

/-- A fallible function of diagrams that computes an image and returns pointwise. -/
structure Pointwise {C W : Type} (den : C → Set W) (Canon : C → Prop)
    (f : Nat → C → Except Err C) (rel : W → W → Prop) : Prop where
  mono : ∀ {n k c r}, n ≤ k → f n c = .ok r → f k c = .ok r
  canon : ∀ {n c r}, Canon c → f n c = .ok r → Canon r
  image : ∀ {n c r}, Canon c → f n c = .ok r → den r = post rel (den c)
  ends : ∀ {c}, Canon c → (den c).Nonempty → EndsAround den Canon f c → Ends f c

theorem Pointwise.congr {C W : Type} {den : C → Set W} {Canon : C → Prop}
    {f g : Nat → C → Except Err C} {rel : W → W → Prop} (hf : Pointwise den Canon f rel)
    (h : ∀ n d, f n d = g n d) : Pointwise den Canon g rel :=
  funext (fun n => funext (h n)) ▸ hf

section Rules

variable {C W : Type} [DecidableEq C] {A : SupportAlgebra C} {den : C → Set W} {Canon : C → Prop}
  (hA : SupportLaws A den Canon)

include hA

omit [DecidableEq C] in
/-- Nothing is owed on absence to a function that returns there. -/
theorem Pointwise.ends_all {f : Nat → C → Except Err C} {rel : W → W → Prop}
    (hf : Pointwise den Canon f rel) (hnone : ∀ n, f n A.none = .ok A.none) {c : C}
    (hc : Canon c) (h : EndsAround den Canon f c) : Ends f c := by
  by_cases hn : c = A.none
  · rw [hn]
    exact ⟨0, A.none, hnone 0⟩
  · exact hf.ends hc (hA.nonempty_of_ne_none hc hn) h

theorem Pointwise.guard {f : Nat → C → Except Err C} {rel : W → W → Prop}
    (hf : Pointwise den Canon f rel) :
    Pointwise den Canon (fun n d => if d = A.none then .ok A.none else f n d) rel where
  mono := fun hk h => ite_le (fun h => h) (hf.mono hk) h
  canon := by
    intro n c r hc h
    split at h
    · cases h
      exact hA.canon_none
    · exact hf.canon hc h
  image := by
    intro n c r hc h
    split at h
    · next hn =>
      cases h
      rw [hn, hA.den_none, post_empty]
    · exact hf.image hc h
  ends := by
    intro c hc hne h
    have hnone : ∀ {c' : C} {w : W}, w ∈ den c' → c' ≠ A.none := by
      rintro c' w hw rfl
      rw [hA.den_none] at hw
      exact hw
    obtain ⟨w, hw⟩ := hne
    have hcn := hnone hw
    obtain ⟨n, r, hr⟩ := hf.ends hc ⟨w, hw⟩ fun v hv => by
      obtain ⟨c', hc', hv', n, r, hr⟩ := h v hv
      exact ⟨c', hc', hv', n, r, (if_neg (hnone hv')).symm.trans hr⟩
    exact ⟨n, r, (if_neg hcn).trans hr⟩

omit [DecidableEq C] in
theorem Pointwise.compose {f g : Nat → C → Except Err C} {rel rel' : W → W → Prop}
    (hg : Pointwise den Canon g rel') (hf : Pointwise den Canon f rel)
    (hnone : ∀ n, g n A.none = .ok A.none) :
    Pointwise den Canon (fun n d => do g n (← f n d)) (Relation.Comp rel rel') where
  mono := fun hk h => bind_le (fun _ => hf.mono hk) (fun _ => hg.mono hk) h
  canon := by
    intro n c r hc h
    obtain ⟨x, hx, h⟩ := bind_eq_ok.mp h
    exact hg.canon (hf.canon hc hx) h
  image := by
    intro n c r hc h
    obtain ⟨x, hx, h⟩ := bind_eq_ok.mp h
    rw [hg.image (hf.canon hc hx) h, hf.image hc hx, ← post_comp]
  ends := by
    intro c hc hne h
    obtain ⟨n, x, hx⟩ := hf.ends hc hne fun w hw => by
      obtain ⟨c', hc', hw', n, r, hr⟩ := h w hw
      obtain ⟨x, hx, -⟩ := bind_eq_ok.mp hr
      exact ⟨c', hc', hw', n, x, hx⟩
    have hxc := hf.canon hc hx
    -- a word of the first image comes from a word whose own diagram goes all the way
    have haround : EndsAround den Canon g x := by
      intro u hu
      rw [hf.image hc hx] at hu
      obtain ⟨w, hw, hwu⟩ := hu
      obtain ⟨c', hc', hw', k, r, hr⟩ := h w hw
      obtain ⟨y, hy, hr⟩ := bind_eq_ok.mp hr
      refine ⟨y, hf.canon hc' hy, ?_, k, r, hr⟩
      rw [hf.image hc' hy]
      exact ⟨w, hw', hwu⟩
    obtain ⟨k, r, hr⟩ := hg.ends_all hA hnone hxc haround
    exact ⟨max n k, r, bind_of_ok (hf.mono (Nat.le_max_left n k) hx)
      (hg.mono (Nat.le_max_right n k) hr)⟩

omit [DecidableEq C] in
/-- What a function adds to its argument. -/
theorem Pointwise.accumulate {f : Nat → C → Except Err C} {rel : W → W → Prop}
    (hf : Pointwise den Canon f rel) :
    Pointwise den Canon (fun n d => do return A.join d (← f n d)) (fun v u => v = u ∨ rel v u) where
  mono := fun hk h => bind_le (fun _ => hf.mono hk) (fun _ h => h) h
  canon := by
    intro n c r hc h
    obtain ⟨x, hx, h⟩ := bind_eq_ok.mp h
    cases h
    exact hA.canon_join hc (hf.canon hc hx)
  image := by
    intro n c r hc h
    obtain ⟨x, hx, h⟩ := bind_eq_ok.mp h
    cases h
    rw [hA.den_join hc (hf.canon hc hx), hf.image hc hx]
    ext u
    simp only [Set.mem_union, mem_post, and_or_left, exists_or, exists_eq_right]
  ends := by
    intro c hc hne h
    obtain ⟨n, x, hx⟩ := hf.ends hc hne fun w hw => by
      obtain ⟨c', hc', hw', n, r, hr⟩ := h w hw
      obtain ⟨x, hx, -⟩ := bind_eq_ok.mp hr
      exact ⟨c', hc', hw', n, x, hx⟩
    exact ⟨n, A.join c x, bind_of_ok hx rfl⟩

/-- A step that returns and only adds, inside a finite set, is iterated to its end. -/
theorem ends_loop {step : Nat → C → Except Err C}
    (hmono : ∀ n k x y, n ≤ k → step n x = .ok y → step k x = .ok y)
    {Z : Set W} (hZ : Z.Finite)
    (hstep : ∀ x, Canon x → den x ⊆ Z → ∃ n y, step n x = .ok y ∧ Canon y ∧
      den x ⊆ den y ∧ den y ⊆ Z) {x : C} (hx : Canon x) (hxZ : den x ⊆ Z) :
    ∃ n r, untilStable .fuel (step n) n x = .ok r := by
  refine untilStable_total (P := fun x => Canon x ∧ den x ⊆ Z)
    (s := fun x => (Z \ den x).ncard) hmono (fun x hx => ?_) x ⟨hx, hxZ⟩
  obtain ⟨n, y, hy, hyc, hxy, hyZ⟩ := hstep x hx.1 hx.2
  refine ⟨n, y, hy, ⟨hyc, hyZ⟩, fun hne => ?_⟩
  apply Set.ncard_lt_ncard _ (hZ.subset Set.sdiff_subset)
  refine ⟨Set.sdiff_subset_sdiff_right hxy, fun hsub => hne (hA.ext hyc hx.1 ?_)⟩
  refine Set.Subset.antisymm (fun w hw => ?_) hxy
  by_contra hwx
  exact (hsub ⟨hyZ hw, hwx⟩).2 hw

/-- The closure of a reflexive step. Every word reaches only words at which the step
returns, and these are finitely many. -/
theorem Pointwise.closure (hfin : ∀ {c}, Canon c → (den c).Finite)
    {g : Nat → C → Except Err C} {rel : W → W → Prop} (hg : Pointwise den Canon g rel)
    (hnone : ∀ n, g n A.none = .ok A.none) (hrefl : ∀ w, rel w w) :
    Pointwise den Canon (fun n d => untilStable .fuel (g n) n d) (Relation.ReflTransGen rel) where
  mono := fun hk h => untilStable_mono (fun _ _ => hg.mono hk) hk h
  canon := fun hc h => (untilStable_inv (fun _ _ hx hy => hg.canon hx hy) hc h).1
  image := by
    intro n c r hc h
    refine (untilStable_closure (fun x y hx hy => ?_) (fun x hx hfix => ?_) hc h).2
    · have hy' := hg.image hx hy
      refine ⟨hg.canon hx hy, ?_, ?_⟩
      · rw [hy']
        exact fun w hw => ⟨w, hw, hrefl w⟩
      · rw [hy']
        exact post_mono_rel (fun _ _ h => .single h) _
    · exact (hg.image hx hfix).symm.subset
  ends := by
    intro c hc hne h
    have hround : ∀ {x : C}, Canon x → ∀ {n y}, g n x = .ok y → den x ⊆ den y := by
      intro x hx n y hy
      rw [hg.image hx hy]
      exact fun w hw => ⟨w, hw, hrefl w⟩
    -- the closed set each word ends in
    have hclosed : ∀ w, w ∈ den c → ∃ r, Canon r ∧ w ∈ den r ∧ ∃ n, g n r = .ok r := by
      intro w hw
      obtain ⟨c', hc', hw', n, r, hr⟩ := h w hw
      obtain ⟨⟨hrc, hle⟩, hfix⟩ := untilStable_inv (P := fun y => Canon y ∧ den c' ⊆ den y)
        (fun x y hx hy => ⟨hg.canon hx.1 hy, hx.2.trans (hround hx.1 hy)⟩)
        ⟨hc', subset_rfl⟩ hr
      exact ⟨r, hrc, hle hw', n, hfix⟩
    have : Inhabited C := ⟨A.none⟩
    choose! r hrc hwr hfix using hclosed
    let Z : Set W := ⋃ w ∈ den c, den (r w)
    have hZ : Z.Finite := Set.Finite.biUnion (hfin hc) fun w hw => hfin (hrc w hw)
    have hcZ : den c ⊆ Z := fun w hw => Set.mem_biUnion hw (hwr w hw)
    have hmono : ∀ n k x y, n ≤ k → g n x = .ok y → g k x = .ok y := fun _ _ _ _ => hg.mono
    refine ends_loop hA hmono hZ (fun x hx hxZ => ?_) hc hcZ
    obtain ⟨n, y, hy⟩ := hg.ends_all hA hnone hx fun z hz => by
      obtain ⟨w, hw, hzw⟩ := Set.mem_iUnion₂.mp (hxZ hz)
      obtain ⟨n, hn⟩ := hfix w hw
      exact ⟨r w, hrc w hw, hzw, n, r w, hn⟩
    refine ⟨n, y, hy, hg.canon hx hy, hround hx hy, ?_⟩
    rw [hg.image hx hy]
    rintro u ⟨v, hv, hvu⟩
    obtain ⟨w, hw, hvw⟩ := Set.mem_iUnion₂.mp (hxZ hv)
    obtain ⟨k, hk⟩ := hfix w hw
    refine Set.mem_biUnion hw ?_
    rw [hg.image (hrc w hw) hk]
    exact ⟨v, hvw, hvu⟩

end Rules

/-! ## Operation terms -/

namespace OpTerm

section Ends

variable {H T D W : Type} [DecidableEq D] {A : SupportAlgebra D}
  {node : Nat → H → T → D → Except Err D} {cases : Nat → BExpr → List Assign → D → Except Err D}
  {den : D → Set W} {Canon : D → Prop} {nodeWF nodeAdd : H → T → Prop}
  {nodeRel : H → T → W → W → Prop} {exprWF : BExpr → List Assign → Prop}
  {exprRel : BExpr → List Assign → W → W → Prop}
  (L : ∀ n, SortLaws A (node n) (cases n) den Canon nodeWF nodeAdd nodeRel exprWF exprRel)
  (hfin : ∀ {c}, Canon c → (den c).Finite)
  (hnode : ∀ {h t}, nodeWF h t → nodeAdd h t →
    Pointwise den Canon (fun n => node n h t) (nodeRel h t))
  (hmono : ∀ {n k h t d r}, n ≤ k → node n h t d = .ok r → node k h t d = .ok r)
  (hexpr : ∀ {g as}, exprWF g as → Pointwise den Canon (fun n => cases n g as) (exprRel g as))
  (hcases : ∀ {n k g as d r}, n ≤ k → cases n g as d = .ok r → cases k g as d = .ok r)

include L hmono hcases

/-- Of an additive term only the ends are left to show. -/
theorem pointwise_of_ends {t : OpTerm H T D} (hw : WF nodeWF exprWF Canon t)
    (ha : Additive nodeRel exprRel den nodeAdd t)
    (hends : ∀ {c}, Canon c → (den c).Nonempty →
      EndsAround den Canon (fun n => apply A (node n) (cases n) n t) c →
      Ends (fun n => apply A (node n) (cases n) n t) c) :
    Pointwise den Canon (fun n => apply A (node n) (cases n) n t) (rel nodeRel exprRel den t) where
  mono := fun hk h => apply_le (hmono hk) (hcases hk) hk t _ _ h
  canon := fun hc h => apply_canon (L _) t _ _ hw hc h
  image := fun hc h => apply_den (L _) t _ _ hw ha hc h
  ends := hends

include hfin hnode hexpr

mutual

theorem pointwise : (t : OpTerm H T D) → WF nodeWF exprWF Canon t →
    Additive nodeRel exprRel den nodeAdd t →
    Pointwise den Canon (fun n => apply A (node n) (cases n) n t) (rel nodeRel exprRel den t)
  | .id => fun hw ha => pointwise_of_ends L hmono hcases hw ha fun _ _ _ => ⟨0, _, rfl⟩
  | .node _ _ => fun hw ha => pointwise_of_ends L hmono hcases hw ha
      ((hnode hw ha).guard (L 0).support).ends
  | .sum ts => fun hw ha => by
    refine pointwise_of_ends L hmono hcases hw ha fun {c} hc hne h => ?_
    have hall := pointwiseAll ts hw ha
    have hend : ∀ t ∈ ts, ∃ n, ∃ r, apply A (node n) (cases n) n t c = .ok r := by
      intro t ht
      refine (hall t ht).ends hc hne fun w hw => ?_
      obtain ⟨c', hc', hw', n, hr⟩ := h w hw
      exact ⟨c', hc', hw', n, sum_returns.mp hr t ht⟩
    obtain ⟨n, hn⟩ := exists_bound (fun hk ⟨r, hr⟩ =>
      ⟨r, apply_le (hmono hk) (hcases hk) hk _ _ _ hr⟩) hend
    exact ⟨n, sum_returns.mpr hn⟩
  | .compose after before => fun hw ha => pointwise_of_ends L hmono hcases hw ha
      (((pointwise after hw.1 ha.1).compose (L 0).support (pointwise before hw.2 ha.2)
        fun _ => apply_none _).guard (L 0).support).ends
  | .lfp t => fun hw ha => by
    have hacc := (pointwise t hw ha).accumulate (L 0).support
    refine pointwise_of_ends L hmono hcases hw ha
      ((hacc.closure (L 0).support hfin (fun n => ?_) fun _ => Or.inl rfl).guard (L 0).support).ends
    exact bind_of_ok (apply_none t) (congrArg Except.ok (L 0).support.join_none)
  | .gfp _ => fun _ ha => ha.elim
  | .within _ => fun hw ha => pointwise_of_ends L hmono hcases hw ha fun {c} _ hne _ =>
    ⟨0, A.meet c _, if_neg fun hn => by
      rw [hn, (L 0).support.den_none] at hne
      exact hne.ne_empty rfl⟩
  | .saturate f l g => fun hw ha => by
    obtain ⟨hwf, hwl, hwg⟩ := hw
    obtain ⟨haf, hal, hag, hrf, hrl⟩ := ha
    obtain ⟨q, hq, hchain, hnone⟩ := pointwiseChain g hwg hag
    have hS := (L 0).support
    have hround := (hchain.compose hS (pointwise l hwl hal) hnone).compose hS
      (pointwise f hwf haf) fun n => bind_of_ok (apply_none l) (hnone n)
    refine pointwise_of_ends L hmono hcases ⟨hwf, hwl, hwg⟩ ⟨haf, hal, hag, hrf, hrl⟩
      ((hround.closure hS hfin (fun n => ?_) fun w => ?_).guard hS).ends
    · exact bind_of_ok (apply_none f) (bind_eq_ok.mpr
        ⟨A.none, apply_none l, hnone n⟩)
    · exact ⟨w, hrf w, w, hrl w, hq w⟩
  | .expr _ _ => fun hw ha => pointwise_of_ends L hmono hcases hw ha
      ((hexpr hw).guard (L 0).support).ends

theorem pointwiseAll : (ts : List (OpTerm H T D)) → WFAll nodeWF exprWF Canon ts →
    AdditiveAll nodeRel exprRel den nodeAdd ts → ∀ t ∈ ts,
    Pointwise den Canon (fun n => apply A (node n) (cases n) n t) (rel nodeRel exprRel den t)
  | [], _, _, _, ht => nomatch ht
  | t :: ts, hw, ha, t', ht => by
    rcases List.mem_cons.mp ht with heq | ht
    · rw [heq]
      exact pointwise t hw.1 ha.1
    · exact pointwiseAll ts hw.2 ha.2 t' ht

/-- The chain of a schedule: each term adds to what the ones before it left. -/
theorem pointwiseChain : (ts : List (OpTerm H T D)) → WFAll nodeWF exprWF Canon ts →
    AdditiveAll nodeRel exprRel den nodeAdd ts → ∃ q : W → W → Prop, (∀ w, q w w) ∧
    Pointwise den Canon (fun n => applyChain A (node n) (cases n) n ts) q ∧
    ∀ n, applyChain A (node n) (cases n) n ts A.none = .ok A.none
  | [], _, _ => ⟨fun v u => v = u, fun _ => rfl,
      { mono := fun _ h => h
        canon := fun hc h => by
          cases h
          exact hc
        image := fun _ h => by
          cases h
          exact (post_eq _).symm
        ends := fun _ _ _ => ⟨0, _, rfl⟩ }, fun _ => rfl⟩
  | t :: ts, hw, ha => by
    obtain ⟨q, hq, hchain, hnone⟩ := pointwiseChain ts hw.2 ha.2
    have hS := (L 0).support
    have hacc := (pointwise t hw.1 ha.1).accumulate hS
    have hnil : A.join A.none A.none = A.none := hS.join_none
    refine ⟨_, fun w => ⟨w, Or.inl rfl, hq w⟩, (hchain.compose hS hacc hnone).congr ?_,
      fun n => bind_of_ok (apply_none t) (hnil.symm ▸ hnone n)⟩
    intro n d
    simp only [applyChain, bind_assoc, pure_bind]

end

end Ends

end OpTerm

/-! ## Node terms -/

section Node

variable {C D σ τ V W : Type} [DecidableEq C] [DecidableEq D] {H : SupportAlgebra C}
  {T : SupportAlgebra D} {MH : Nat → TermAlgebra C σ} {MT : Nat → TermAlgebra D τ}
  {denH : C → Set V} {denT : D → Set W} {CanonH : C → Prop} {CanonT : D → Prop}
  {WFH AddH : σ → Prop} {WFT AddT : τ → Prop} {relH : σ → V → V → Prop}
  {relT : τ → W → W → Prop} (hH : SupportLaws H denH CanonH) (hT : SupportLaws T denT CanonT)
  (LH : ∀ n, TermLaws (MH n) denH CanonH WFH AddH relH)
  (LT : ∀ n, TermLaws (MT n) denT CanonT WFT AddT relT)
  (leH : ∀ {n k}, n ≤ k → (MH n).Le (MH k)) (leT : ∀ {n k}, n ≤ k → (MT n).Le (MT k))
  (hid : ∀ n h c, (MH n).isId h = true → (MH n).apply h c = .ok c)

include hH hT LH LT leH leT hid

/-- A node term returns pointwise when its two sides do. On an arc whose prime is not
refused some value of the prime is not refused either, so every value of the sub is met by
the tail at a word where the whole term returns. -/
theorem applyNode_pointwise {h : σ} {t : τ} (hh : WFH h) (ht : WFT t) (ha : AddH h)
    (hb : AddT t) (hpH : Pointwise denH CanonH (fun n => (MH n).apply h) (relH h))
    (hpT : Pointwise denT CanonT (fun n => (MT n).apply t) (relT t)) :
    Pointwise (nodeDen denH denT) (NodeCanon H T denH CanonH CanonT)
      (fun n => applyNode H T (MH n) (MT n) h t) (nodeRel relH relT h t) where
  mono := fun hk hr => applyNode_le (leH hk) (leT hk) hr
  canon := fun hc hr => (applyNode_spec hH hT (LH _) (LT _) hh ht hc hr).1
  image := fun hc hr => (applyNode_spec hH hT (LH _) (LT _) hh ht hc hr).2 ha hb
  ends := by
    intro d hd _ hall
    -- the arc of a diagram around a word, and what the term does on it
    have harc : ∀ a ∈ d, ∀ p ∈ denH a.prime, ∀ s ∈ denT a.sub, ∃ n, ∃ b : Arc C D,
        (CanonH b.prime ∧ CanonT b.sub) ∧ p ∈ denH b.prime ∧ s ∈ denT b.sub ∧
        (MH n).Returns h b.prime ∧
        (((MH n).out denH h b.prime).Nonempty → (MT n).Returns t b.sub) := by
      intro a hmem p hp s hs
      have hw : (p, s) ∈ nodeDen denH denT d := (mem_nodeDen denH denT).mpr ⟨a, hmem, hp, hs⟩
      obtain ⟨c, hc, hwc, n, hr⟩ := hall (p, s) hw
      obtain ⟨b, hbc, hpb, hsb⟩ := (mem_nodeDen denH denT).mp hwc
      have hnr := (applyNode_returns hH hT (LH n) (LT n) (hid n) hh ht hc).mp hr
      exact ⟨n, b, hc.canon b hbc, hpb, hsb, hnr b hbc⟩
    have hside : ∀ a ∈ d, ∃ n, ∃ p, (MH n).apply h a.prime = .ok p ∧
        (p ≠ H.none → ∃ s, (MT n).apply t a.sub = .ok s) := by
      intro a hmem
      obtain ⟨hpc, hsc⟩ := hd.canon a hmem
      have hpne := hH.nonempty_of_ne_none hpc (hd.prime_ne a hmem)
      have hsne := hT.nonempty_of_ne_none hsc (hd.sub_ne a hmem)
      obtain ⟨n, p, hp⟩ := hpH.ends hpc hpne fun v hv => by
        obtain ⟨s, hs⟩ := hsne
        obtain ⟨n, b, hbc, hvb, -, ⟨r, hr⟩, -⟩ := harc a hmem v hv s hs
        exact ⟨b.prime, hbc.1, hvb, n, r, hr⟩
      by_cases hn : p = H.none
      · exact ⟨n, p, hp, fun hne => absurd hn hne⟩
      · obtain ⟨u, hu⟩ := hH.nonempty_of_ne_none ((LH n).canon_apply hh hpc hp) hn
        rw [(LH n).den_apply hh ha hpc hp] at hu
        obtain ⟨v, hv, hvu⟩ := hu
        obtain ⟨k, s, hs⟩ := hpT.ends hsc hsne fun w hw => by
          obtain ⟨k, b, hbc, hvb, hwb, ⟨r, hr⟩, htail⟩ := harc a hmem v hv w hw
          have hout : ((MH k).out denH h b.prime).Nonempty := by
            rw [TermAlgebra.out_eq denH hr, (LH k).den_apply hh ha hbc.1 hr]
            exact ⟨u, v, hvb, hvu⟩
          obtain ⟨r', hr'⟩ := htail hout
          exact ⟨b.sub, hbc.2, hwb, k, r', hr'⟩
        exact ⟨max n k, p, (leH (Nat.le_max_left n k)).apply hp, fun _ =>
          ⟨s, (leT (Nat.le_max_right n k)).apply hs⟩⟩
    obtain ⟨n, hn⟩ := exists_bound (P := fun n (a : Arc C D) =>
      ∃ p, (MH n).apply h a.prime = .ok p ∧ (p ≠ H.none → ∃ s, (MT n).apply t a.sub = .ok s))
      (fun hk ⟨p, hp, hs⟩ => ⟨p, (leH hk).apply hp, fun hne => by
        obtain ⟨s, hs⟩ := hs hne
        exact ⟨s, (leT hk).apply hs⟩⟩) hside
    refine ⟨n, (applyNode_returns hH hT (LH n) (LT n) (hid n) hh ht hd).mpr fun a hmem => ?_⟩
    obtain ⟨p, hp, hs⟩ := hn a hmem
    refine ⟨⟨p, hp⟩, fun hne => hs ?_⟩
    rintro rfl
    rw [TermAlgebra.out_eq denH hp, hH.den_none] at hne
    exact hne.ne_empty rfl

end Node

/-! ## Local terms -/

namespace IntTerm

theorem filterLoop_returns {g : BExpr} {s : List Int} :
    (∃ r, IntSet.filterLoop g s = .ok r) ↔ ∀ v ∈ s, ∃ b, evalBool [v] g = .ok b := by
  induction s with
  | nil => exact ⟨fun _ v hv => (nomatch hv), fun _ => ⟨[], rfl⟩⟩
  | cons v vs ih =>
    rw [List.forall_mem_cons, ← ih]
    constructor
    · rintro ⟨r, hr⟩
      obtain ⟨b, hb, hr⟩ := bind_eq_ok.mp hr
      refine ⟨⟨b, hb⟩, ?_⟩
      split at hr
      · obtain ⟨r', hr', -⟩ := bind_eq_ok.mp hr
        exact ⟨r', hr'⟩
      · exact ⟨r, hr⟩
    · rintro ⟨⟨b, hb⟩, r, hr⟩
      by_cases hy : b = .yes
      · exact ⟨v :: r, bind_of_ok hb ((if_pos hy).trans (bind_of_ok hr rfl))⟩
      · exact ⟨r, bind_of_ok hb ((if_neg hy).trans hr)⟩

theorem shiftAll_returns {delta : Int} {vs : List Int} :
    (∃ r, shiftAll delta vs = .ok r) ↔ ∀ v ∈ vs, InInt32 (v + delta) := by
  induction vs with
  | nil => exact ⟨fun _ v hv => (nomatch hv), fun _ => ⟨[], rfl⟩⟩
  | cons v vs ih =>
    rw [List.forall_mem_cons, ← ih, shiftAll]
    constructor
    · rintro ⟨r, hr⟩
      split at hr
      · next hin =>
        obtain ⟨r', hr', -⟩ := bind_eq_ok.mp hr
        exact ⟨hin, r', hr'⟩
      · cases hr
    · rintro ⟨hin, r, hr⟩
      rw [if_pos hin]
      exact ⟨_, bind_of_ok hr rfl⟩

theorem xformAll_returns {rhs : IExpr} {modulo : Int} {vs : List Int} :
    (∃ r, xformAll rhs modulo vs = .ok r) ↔ ∀ v ∈ vs, ∃ o, xformValue rhs modulo v = .ok o := by
  induction vs with
  | nil => exact ⟨fun _ v hv => (nomatch hv), fun _ => ⟨[], rfl⟩⟩
  | cons v vs ih =>
    rw [List.forall_mem_cons, ← ih]
    constructor
    · rintro ⟨r, hr⟩
      obtain ⟨o, ho, hr⟩ := bind_eq_ok.mp hr
      refine ⟨⟨o, ho⟩, ?_⟩
      cases o with
      | none => exact ⟨r, hr⟩
      | some x =>
        obtain ⟨r', hr', -⟩ := bind_eq_ok.mp hr
        exact ⟨r', hr'⟩
    · rintro ⟨⟨o, ho⟩, r, hr⟩
      cases o with
      | none => exact ⟨r, bind_of_ok ho hr⟩
      | some x => exact ⟨x :: r, bind_of_ok ho (bind_of_ok hr rfl)⟩

/-- A guard is tested value by value. -/
theorem passing_ends {g : IntGuard} {s : IntSet}
    (h : ∀ v ∈ s, ∃ s', v ∈ s' ∧ ∃ r, passing g s' = .ok r) : ∃ r, passing g s = .ok r := by
  cases g with
  | none => exact ⟨_, rfl⟩
  | set x => exact ⟨_, rfl⟩
  | symbolic g =>
    show ∃ r, IntSet.filter s g = .ok r
    unfold IntSet.filter
    split
    · exact ⟨_, rfl⟩
    · next hs =>
      split
      · exact ⟨_, rfl⟩
      · next hg =>
        refine filterLoop_returns.mpr fun v hv => ?_
        obtain ⟨s', hv', r, hr⟩ := h v hv
        have hs' : ¬(s' = [] ∨ g = .bfalse) := by
          rintro (rfl | hf)
          · exact absurd hv' List.not_mem_nil
          · exact hs (Or.inr hf)
        have hr' : IntSet.filter s' g = .ok r := hr
        rw [IntSet.filter, if_neg hs', if_neg hg] at hr'
        exact filterLoop_returns.mp ⟨r, hr'⟩ v hv'

/-- So is an action. -/
theorem act_ends {a : IntAction} {s : IntSet}
    (h : ∀ v ∈ s, ∃ s', v ∈ s' ∧ ∃ r, act a s' = .ok r) : ∃ r, act a s = .ok r := by
  cases a with
  | keep => exact ⟨_, rfl⟩
  | assign value => exact ⟨_, rfl⟩
  | havoc lo hi => exact ⟨_, rfl⟩
  | choose x => exact ⟨_, rfl⟩
  | shift delta =>
    refine shiftAll_returns.mpr fun v hv => ?_
    obtain ⟨s', hv', hr⟩ := h v hv
    exact shiftAll_returns.mp hr v hv'
  | xform rhs modulo =>
    obtain ⟨r, hr⟩ := xformAll_returns.mpr fun v hv => by
      obtain ⟨s', hv', r, hr⟩ := h v hv
      obtain ⟨x, hx, -⟩ := bind_eq_ok.mp hr
      exact xformAll_returns.mp ⟨x, hx⟩ v hv'
    exact ⟨_, bind_of_ok hr rfl⟩

theorem prim_ends {n : Nat} {g : IntGuard} {a : IntAction} (hw : (prim g a).WF) {c : IntSet}
    (hc : IntSet.Canon c)
    (h : ∀ v ∈ c, ∃ c', IntSet.Canon c' ∧ v ∈ c' ∧ ∃ k r, apply k (.prim g a) c' = .ok r) :
    ∃ r, apply n (.prim g a) c = .ok r := by
  have hpass : ∀ v ∈ c, ∃ c', IntSet.Canon c' ∧ v ∈ c' ∧ ∃ kept, passing g c' = .ok kept ∧
      (kept ≠ [] → ∃ r, act a kept = .ok r) := by
    intro v hv
    obtain ⟨c', hc', hv', k, r, hr⟩ := h v hv
    rw [apply, if_neg (List.ne_nil_of_mem hv')] at hr
    obtain ⟨kept, hk, hr⟩ := bind_eq_ok.mp hr
    exact ⟨c', hc', hv', kept, hk, fun hne => ⟨r, (if_neg hne).symm.trans hr⟩⟩
  rw [apply]
  split
  · exact ⟨_, rfl⟩
  · obtain ⟨kept, hk⟩ := passing_ends (g := g) (s := c) fun v hv => by
      obtain ⟨c', -, hv', kept, hk, -⟩ := hpass v hv
      exact ⟨c', hv', kept, hk⟩
    rw [hk]
    show ∃ r, (if kept = [] then _ else _) = Except.ok r
    split
    · exact ⟨_, rfl⟩
    · refine act_ends fun v hv => ?_
      have hv' := ((passing_spec hw.1 hc hk).2 v).mp hv
      obtain ⟨c', hc', hvc, kept', hk', hact⟩ := hpass v hv'.1
      have hmem := ((passing_spec hw.1 hc' hk').2 v).mpr ⟨hvc, hv'.2⟩
      exact ⟨kept', hmem, hact (List.ne_nil_of_mem hmem)⟩

theorem finite_den (s : IntSet) : (IntSet.den s).Finite := List.finite_toSet s

theorem pointwise_of_ends {t : IntTerm} (hw : t.WF)
    (hends : ∀ {c}, IntSet.Canon c → (IntSet.den c).Nonempty →
      EndsAround IntSet.den IntSet.Canon (fun n => apply n t) c → Ends (fun n => apply n t) c) :
    Pointwise IntSet.den IntSet.Canon (fun n => apply n t) t.rel where
  mono := fun hk h => apply_le hk t h
  canon := fun hc h => (apply_spec hw hc h).1
  image := fun hc h => (apply_spec hw hc h).2
  ends := hends

/-- A local term returns pointwise. -/
theorem pointwise (N : Numbering) : (t : IntTerm) → t.WF →
    Pointwise IntSet.den IntSet.Canon (fun n => apply n t) t.rel
  | .id, hw => pointwise_of_ends hw fun _ _ _ => ⟨0, _, rfl⟩
  | .prim g a, hw => pointwise_of_ends hw fun hc _ h => ⟨0, prim_ends hw hc h⟩
  | .sum a b, hw => by
    refine pointwise_of_ends hw fun {c} hc hne h => ?_
    have hparts : ∀ w ∈ IntSet.den c, ∃ c', IntSet.Canon c' ∧ w ∈ IntSet.den c' ∧ ∃ n,
        (∃ x, apply n a c' = .ok x) ∧ ∃ y, apply n b c' = .ok y := by
      intro w hw
      obtain ⟨c', hc', hw', n, r, hr⟩ := h w hw
      dsimp only at hr
      rw [apply, if_neg (List.ne_nil_of_mem hw')] at hr
      obtain ⟨x, hx, hr⟩ := bind_eq_ok.mp hr
      obtain ⟨y, hy, -⟩ := bind_eq_ok.mp hr
      exact ⟨c', hc', hw', n, ⟨x, hx⟩, y, hy⟩
    obtain ⟨n, x, hx⟩ := (pointwise N a hw.1).ends hc hne fun w hw => by
      obtain ⟨c', hc', hw', n, hx, -⟩ := hparts w hw
      exact ⟨c', hc', hw', n, hx⟩
    obtain ⟨k, y, hy⟩ := (pointwise N b hw.2).ends hc hne fun w hw => by
      obtain ⟨c', hc', hw', n, -, hy⟩ := hparts w hw
      exact ⟨c', hc', hw', n, hy⟩
    obtain ⟨w, hw⟩ := hne
    refine ⟨max n k, IntSet.join x y, (if_neg (List.ne_nil_of_mem hw)).trans ?_⟩
    exact bind_of_ok (apply_le (Nat.le_max_left n k) a hx) (bind_eq_ok.mpr
      ⟨y, apply_le (Nat.le_max_right n k) b hy, rfl⟩)
  | .lfp a, hw => by
    have hA := IntSet.laws (N.inj .leaf)
    have hacc := (pointwise N a hw).accumulate hA
    exact pointwise_of_ends hw ((hacc.closure hA (fun {c} _ => finite_den c)
      (fun n => bind_of_ok (apply_nil a) (congrArg Except.ok hA.join_none))
      fun _ => Or.inl rfl).guard hA).ends

end IntTerm

/-! ## Every sort -/

theorem finite_den : (s : Shape) → (c : Code s) → (den s c).Finite
  | .unit, _ => Set.toFinite (α := Unit) _
  | .leaf, c => IntTerm.finite_den c
  | .pair h t, c => by
    have heq : den (.pair h t) c =
        ⋃ a ∈ {a : Arc (Code h) (Code t) | a ∈ arcs c}, den h a.prime ×ˢ den t a.sub := by
      refine Set.ext fun w => (mem_nodeDen (den h) (den t)).trans ⟨?_, fun hw => ?_⟩
      · rintro ⟨a, ha, hw⟩
        exact Set.mem_biUnion ha hw
      · obtain ⟨a, ha, hw⟩ := Set.mem_iUnion₂.mp hw
        exact ⟨a, ha, hw⟩
    rw [heq]
    exact Set.Finite.biUnion (List.finite_toSet (arcs c)) fun a _ =>
      (finite_den h a.prime).prod (finite_den t a.sub)

/-- The algebras of a run, at each fuel. -/
abbrev fueled (N : Numbering) (cases : Nat → CaseEvaluator) (n : Nat) (s : Shape) :
    TermAlgebra (Code s) (Term s) :=
  termAlgebra N (cases n) n s

/-- Application at every sort returns pointwise, when the brackets do. By induction on the
sort. -/
theorem termAlgebra_pointwise {N : Numbering} (cases : Nat → CaseEvaluator) {K : CaseRel}
    (hK : ∀ n, CaseLaws N (cases n) K)
    (hle : ∀ {n k s g as d r}, n ≤ k → cases n s g as d = .ok r → cases k s g as d = .ok r)
    (hcase : ∀ {s g as}, CaseNormal g as →
      Pointwise (den s) (Canon N s) (fun n => cases n s g as) (K s g as)) :
    (s : Shape) → (t : Term s) → Term.WF N s t → Term.Additive K s t →
    Pointwise (den s) (Canon N s) (fun n => (fueled N cases n s).apply t) (Term.rel K s t)
  | .unit, t, hw, ha => OpTerm.pointwise (fun n => sortLaws_unit (hK n))
      (fun {c} _ => finite_den .unit c) (fun {h} => h.elim) (fun {_ _ h} => h.elim)
      (fun hn => hcase hn) (fun hk => hle hk) t hw ha
  | .leaf, t, hw, _ => IntTerm.pointwise N t hw
  | .pair h t, x, hw, ha =>
    have hle' : ∀ {n k}, n ≤ k → ∀ s, (fueled N cases n s).Le (fueled N cases k s) :=
      fun hk s => termAlgebra_le (fun hr => hle hk hr) hk s
    OpTerm.pointwise (fun n => sortLaws_pair (hK n) (termLaws (hK n) n h) (termLaws (hK n) n t))
      (fun {c} _ => finite_den (.pair h t) c)
      (fun hwn han => applyNode_pointwise (laws N h) (laws N t) (fun n => termLaws (hK n) n h)
        (fun n => termLaws (hK n) n t) (fun hk => hle' hk h) (fun hk => hle' hk t)
        (fun n => termAlgebra_isId N (cases n) n h) hwn.1 hwn.2 han.1 han.2
        (termAlgebra_pointwise cases hK hle hcase h _ hwn.1 han.1)
        (termAlgebra_pointwise cases hK hle hcase t _ hwn.2 han.2))
      (fun hk hr => applyNode_le (hle' hk h) (hle' hk t) hr)
      (fun hn => hcase hn) (fun hk => hle hk) x hw ha

end LibHSC
