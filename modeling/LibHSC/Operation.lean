import LibHSC.OpTerm
import LibHSC.IntTerm
import LibHSC.Lia.Normal
import LibHSC.Shape

/-!
The terms of every sort and their application. At a leaf a term is a theory
term, at a pair an operation term whose `node` operands are terms of the two
sides; which algebra reads it is settled by the shape.

`applyNode` maps the arcs of a node through the head and the tail and takes the
cheapest of three paths: an identity head, an injective head, or the full
canonicalization. `termLaws` is the contract: application keeps the
representation invariant and is the image under the term's relation.
-/

namespace LibHSC

open Lia

/-! ## Applying a `node` term -/

section Node

variable {C D σ τ : Type} [DecidableEq C] [DecidableEq D]

/-- The arcs with the tail term applied to their subs. -/
def tailArcs (MT : TermAlgebra D τ) (t : τ) : List (Arc C D) → Except Err (List (Arc C D))
  | [] => .ok []
  | x :: xs => do
      let s ← MT.apply t x.sub
      return ⟨x.prime, s⟩ :: (← tailArcs MT t xs)

/-- The arcs with both terms applied; an arc whose prime is refused is skipped
before its sub is touched. -/
def imageArcs (H : SupportAlgebra C) (MH : TermAlgebra C σ) (MT : TermAlgebra D τ) (h : σ)
    (t : τ) : List (Arc C D) → Except Err (List (Arc C D))
  | [] => .ok []
  | x :: xs => do
      let p ← MH.apply h x.prime
      if p = H.none then imageArcs H MH MT h t xs
      else do
        let s ← MT.apply t x.sub
        return ⟨p, s⟩ :: (← imageArcs H MH MT h t xs)

def applyNode (H : SupportAlgebra C) (T : SupportAlgebra D) (MH : TermAlgebra C σ)
    (MT : TermAlgebra D τ) (h : σ) (t : τ) (d : List (Arc C D)) :
    Except Err (List (Arc C D)) :=
  if MH.isId h then do
    -- the primes are untouched: only the regroup by sub is owed
    return finish H T (addAll H T [] (← tailArcs MT t d))
  else if MH.injective h then do
    return finish H T (addAll H T [] (← imageArcs H MH MT h t d))
  else do
    let bag ← imageArcs H MH MT h t d
    return canonize H T (bag.filter fun a => a.sub ≠ T.none)

variable {V W : Type} {H : SupportAlgebra C} {T : SupportAlgebra D}
  {denH : C → Set V} {denT : D → Set W} {CanonH : C → Prop} {CanonT : D → Prop}
  {MH : TermAlgebra C σ} {MT : TermAlgebra D τ} {WFH AddH : σ → Prop} {WFT AddT : τ → Prop}
  {relH : σ → V → V → Prop} {relT : τ → W → W → Prop}

/-- The relation of a `node` term: each side moves by its own term. -/
def nodeRel (relH : σ → V → V → Prop) (relT : τ → W → W → Prop) (h : σ) (t : τ)
    (v u : V × W) : Prop :=
  relH h v.1 u.1 ∧ relT t v.2 u.2

omit [DecidableEq C] [DecidableEq D] in
theorem post_nodeRel_prod (relH : σ → V → V → Prop) (relT : τ → W → W → Prop) (h : σ) (t : τ)
    (X : Set V) (Y : Set W) :
    post (nodeRel relH relT h t) (X ×ˢ Y) = post (relH h) X ×ˢ post (relT t) Y := by
  ext u
  simp only [mem_post, nodeRel, Set.mem_prod]
  constructor
  · rintro ⟨v, ⟨h1, h2⟩, h3, h4⟩
    exact ⟨⟨v.1, h1, h3⟩, v.2, h2, h4⟩
  · rintro ⟨⟨a, h1, h3⟩, b, h2, h4⟩
    exact ⟨(a, b), ⟨h1, h2⟩, h3, h4⟩

variable (hH : SupportLaws H denH CanonH) (hT : SupportLaws T denT CanonT)
  (LH : TermLaws MH denH CanonH WFH AddH relH) (LT : TermLaws MT denT CanonT WFT AddT relT)

variable (denH) in
omit [DecidableEq C] [DecidableEq D] in
include LT in
theorem tailArcs_spec {t : τ} (ht : WFT t) : ∀ {l r : List (Arc C D)},
    CanonArcs CanonH CanonT l → tailArcs MT t l = .ok r →
    CanonArcs CanonH CanonT r ∧ r.map Arc.prime = l.map Arc.prime ∧ (AddT t → nodeDen denH denT r =
        post (fun v u => v.1 = u.1 ∧ relT t v.2 u.2) (nodeDen denH denT l)) := by
  intro l
  induction l with
  | nil =>
    intro r _ h
    cases h
    simp
  | cons x xs ih =>
    intro r hc h
    obtain ⟨⟨hp, hs⟩, hcs⟩ := (canonArcs_cons x xs).mp hc
    obtain ⟨s, hs', h⟩ := bind_eq_ok.mp h
    obtain ⟨r', hr', h⟩ := bind_eq_ok.mp h
    cases h
    obtain ⟨h1, h2, h3⟩ := ih hcs hr'
    refine ⟨(canonArcs_cons _ _).mpr ⟨⟨hp, LT.canon_apply ht hs hs'⟩, h1⟩, by simp [h2], ?_⟩
    intro hadd
    have hden := LT.den_apply ht hadd hs hs'
    ext ⟨a, b⟩
    simp only [nodeDen_cons, Set.mem_union, Set.mem_prod, hden, h3 hadd, mem_post]
    constructor
    · rintro (⟨ha, v, hv, hvb⟩ | ⟨v, hv, hva, hvb⟩)
      · exact ⟨(a, v), Or.inl ⟨ha, hv⟩, rfl, hvb⟩
      · exact ⟨v, Or.inr hv, hva, hvb⟩
    · rintro ⟨v, hv | hv, rfl, hvb⟩
      · exact Or.inl ⟨hv.1, v.2, hv.2, hvb⟩
      · exact Or.inr ⟨v, hv, rfl, hvb⟩

omit [DecidableEq D] in
include hH LH LT in
theorem imageArcs_spec {h : σ} {t : τ} (hh : WFH h) (ht : WFT t) :
    ∀ {l r : List (Arc C D)}, CanonArcs CanonH CanonT l → imageArcs H MH MT h t l = .ok r →
    CanonArcs CanonH CanonT r ∧ (AddH h → dom denH r ⊆ post (relH h) (dom denH l)) ∧
      (AddH h → AddT t →
        nodeDen denH denT r = post (nodeRel relH relT h t) (nodeDen denH denT l)) := by
  intro l
  induction l with
  | nil =>
    intro r _ h
    cases h
    simp
  | cons x xs ih =>
    intro r hc hr
    obtain ⟨⟨hp, hs⟩, hcs⟩ := (canonArcs_cons x xs).mp hc
    obtain ⟨p, hp', hr⟩ := bind_eq_ok.mp hr
    by_cases hn : p = H.none
    · rw [if_pos hn] at hr
      obtain ⟨h1, h2, h3⟩ := ih hcs hr
      refine ⟨h1, fun ha => (h2 ha).trans (post_mono ?_), fun ha hb => ?_⟩
      · rw [dom_cons]
        exact Set.subset_union_right
      · have hden := LH.den_apply hh ha hp hp'
        rw [hn, hH.den_none] at hden
        rw [h3 ha hb, nodeDen_cons, post_union, post_nodeRel_prod, ← hden, Set.empty_prod,
          Set.empty_union]
    · rw [if_neg hn] at hr
      obtain ⟨s, hs', hr⟩ := bind_eq_ok.mp hr
      obtain ⟨r', hr', hr⟩ := bind_eq_ok.mp hr
      cases hr
      obtain ⟨h1, h2, h3⟩ := ih hcs hr'
      refine ⟨(canonArcs_cons _ _).mpr
        ⟨⟨LH.canon_apply hh hp hp', LT.canon_apply ht hs hs'⟩, h1⟩, ?_, ?_⟩
      · intro ha
        rw [dom_cons, LH.den_apply hh ha hp hp', dom_cons]
        rintro u (⟨v, hv, hvu⟩ | hu)
        · exact ⟨v, Or.inl hv, hvu⟩
        · obtain ⟨v, hv, hvu⟩ := h2 ha hu
          exact ⟨v, Or.inr hv, hvu⟩
      · intro ha hb
        rw [nodeDen_cons, nodeDen_cons, post_union, post_nodeRel_prod,
          ← LH.den_apply hh ha hp hp', ← LT.den_apply ht hb hs hs', h3 ha hb]

omit [DecidableEq D] in
include LH in
/-- An injective head keeps disjoint primes disjoint. -/
theorem imageArcs_disjoint {h : σ} {t : τ} (hh : WFH h) (hinj : MH.injective h = true) :
    ∀ {l r : List (Arc C D)}, CanonArcs CanonH CanonT l → DisjointPrimes denH l →
      imageArcs H MH MT h t l = .ok r →
      DisjointPrimes denH r ∧ dom denH r ⊆ post (relH h) (dom denH l) := by
  obtain ⟨hadd, hrel⟩ := LH.injective_rel hinj
  intro l
  induction l with
  | nil =>
    intro r _ _ h
    cases h
    simp
  | cons x xs ih =>
    intro r hc hd hr
    obtain ⟨⟨hp, hs⟩, hcs⟩ := (canonArcs_cons x xs).mp hc
    obtain ⟨hdx, hdxs⟩ := (disjointPrimes_cons denH x xs).mp hd
    obtain ⟨p, hp', hr⟩ := bind_eq_ok.mp hr
    by_cases hn : p = H.none
    · rw [if_pos hn] at hr
      obtain ⟨h1, h2⟩ := ih hcs hdxs hr
      refine ⟨h1, h2.trans (post_mono ?_)⟩
      rw [dom_cons]
      exact Set.subset_union_right
    · rw [if_neg hn] at hr
      obtain ⟨s, -, hr⟩ := bind_eq_ok.mp hr
      obtain ⟨r', hr', hr⟩ := bind_eq_ok.mp hr
      cases hr
      obtain ⟨h1, h2⟩ := ih hcs hdxs hr'
      have hdp := LH.den_apply hh hadd hp hp'
      refine ⟨(disjointPrimes_cons denH _ _).mpr ⟨Set.disjoint_left.mpr ?_, h1⟩, ?_⟩
      · intro u hu hu'
        rw [hdp] at hu
        obtain ⟨v, hv, hvu⟩ := hu
        obtain ⟨v', hv', hvu'⟩ := h2 hu'
        exact Set.disjoint_left.mp hdx hv (hrel v v' u hvu hvu' ▸ hv')
      · rw [dom_cons, hdp, dom_cons]
        rintro u (⟨v, hv, hvu⟩ | hu)
        · exact ⟨v, Or.inl hv, hvu⟩
        · obtain ⟨v, hv, hvu⟩ := h2 hu
          exact ⟨v, Or.inr hv, hvu⟩

variable (denH) in
omit [DecidableEq C] in
include hT in
theorem filter_sub_ne {l : List (Arc C D)} (hl : CanonArcs CanonH CanonT l) :
    CanonArcs CanonH CanonT (l.filter fun a => a.sub ≠ T.none) ∧
      nodeDen denH denT (l.filter fun a => a.sub ≠ T.none) = nodeDen denH denT l := by
  refine ⟨fun a ha => hl a (List.mem_of_mem_filter ha), ?_⟩
  ext w
  simp only [mem_nodeDen, List.mem_filter, decide_eq_true_eq]
  constructor
  · rintro ⟨a, ⟨ha, -⟩, hw⟩
    exact ⟨a, ha, hw⟩
  · rintro ⟨a, ha, h1, h2⟩
    refine ⟨a, ⟨ha, fun hn => ?_⟩, h1, h2⟩
    rw [hn, hT.den_none] at h2
    exact h2

omit [DecidableEq C] [DecidableEq D] in
/-- Disjointness is a matter of the primes alone. -/
theorem disjointPrimes_of_primes {l l' : List (Arc C D)}
    (h : l'.map Arc.prime = l.map Arc.prime) (hl : DisjointPrimes denH l) :
    DisjointPrimes denH l' := by
  have hmap (k : List (Arc C D)) : (k.map Arc.prime).Pairwise
      (fun a b => Disjoint (denH a) (denH b)) ↔ DisjointPrimes denH k :=
    List.pairwise_map
  exact (hmap l').mp (h ▸ (hmap l).mpr hl)

include hH hT LH LT in
/-- The three paths of a `node` term: each result is canonical, and the image of
the node when both terms are additive. -/
theorem applyNode_spec {h : σ} {t : τ} (hh : WFH h) (ht : WFT t) {d r : List (Arc C D)}
    (hd : NodeCanon H T denH CanonH CanonT d) (hr : applyNode H T MH MT h t d = .ok r) :
    NodeCanon H T denH CanonH CanonT r ∧ (AddH h → AddT t →
      nodeDen denH denT r = post (nodeRel relH relT h t) (nodeDen denH denT d)) := by
  unfold applyNode at hr
  split at hr
  · next hid =>
    obtain ⟨l, hl, hr⟩ := bind_eq_ok.mp hr
    cases hr
    obtain ⟨h1, h2, h3⟩ := tailArcs_spec denH LT ht hd.canon hl
    have hdis : DisjointPrimes denH l := disjointPrimes_of_primes h2 hd.disjoint
    obtain ⟨hN, hden⟩ := regroup_correct hH hT h1 hdis
    refine ⟨hN, fun _ hb => ?_⟩
    rw [hden, h3 hb]
    unfold nodeRel
    rw [(LH.isId_rel hid).2]
  · split at hr
    · next hinj =>
      obtain ⟨l, hl, hr⟩ := bind_eq_ok.mp hr
      cases hr
      obtain ⟨h1, -, h3⟩ := imageArcs_spec hH LH LT hh ht hd.canon hl
      obtain ⟨hdis, -⟩ := imageArcs_disjoint LH hh hinj hd.canon hd.disjoint hl
      obtain ⟨hN, hden⟩ := regroup_correct hH hT h1 hdis
      exact ⟨hN, fun ha hb => by rw [hden, h3 ha hb]⟩
    · obtain ⟨l, hl, hr⟩ := bind_eq_ok.mp hr
      cases hr
      obtain ⟨h1, -, h3⟩ := imageArcs_spec hH LH LT hh ht hd.canon hl
      obtain ⟨f1, f2⟩ := filter_sub_ne denH hT h1
      obtain ⟨hN, hden⟩ := canonize_correct hH hT f1
      exact ⟨hN, fun ha hb => by rw [hden, f2, h3 ha hb]⟩

end Node

/-! ## Terms by sort -/

def Term : Shape → Type
  | .unit => OpTerm Empty Empty (Code .unit)
  | .leaf => IntTerm
  | .pair h t => OpTerm (Term h) (Term t) (Code (.pair h t))

instance decEqTerm : (s : Shape) → DecidableEq (Term s)
  | .unit => inferInstanceAs (DecidableEq (OpTerm Empty Empty (Code .unit)))
  | .leaf => inferInstanceAs (DecidableEq IntTerm)
  | .pair h t =>
    have := decEqTerm h
    have := decEqTerm t
    inferInstanceAs (DecidableEq (OpTerm (Term h) (Term t) (Code (.pair h t))))

/-- The registered evaluator of case brackets, at every sort. -/
abbrev CaseEvaluator := (s : Shape) → BExpr → List Assign → Code s → Except Err (Code s)

/-- The algebras reading their terms; `fuel` bounds the rounds of each closure. -/
def termAlgebra (N : Numbering) (cases : CaseEvaluator) (fuel : Nat) :
    (s : Shape) → TermAlgebra (Code s) (Term s)
  | .unit =>
    { isId := OpTerm.isId
      injective := fun _ => false
      apply := OpTerm.apply (algebra N .unit) (fun h => h.elim) (cases .unit) fuel }
  | .leaf => IntTerm.algebra fuel
  | .pair h t =>
    { isId := OpTerm.isId
      injective := fun _ => false
      apply := OpTerm.apply (algebra N (.pair h t))
        (applyNode (algebra N h) (algebra N t) (termAlgebra N cases fuel h)
          (termAlgebra N cases fuel t))
        (cases (.pair h t)) fuel }

/-- The expressions of a case bracket are the factory's. -/
def CaseNormal (guard : BExpr) (assigns : List Assign) : Prop :=
  guard.Normal ∧ ∀ a ∈ assigns, a.lhs.Normal ∧ a.rhs.Normal

def Term.WF (N : Numbering) : (s : Shape) → Term s → Prop
  | .unit => OpTerm.WF (fun _ _ => True) CaseNormal (Canon N .unit)
  | .leaf => IntTerm.WF
  | .pair h t =>
    OpTerm.WF (fun a b => Term.WF N h a ∧ Term.WF N t b) CaseNormal (Canon N (.pair h t))

/-- The relations of case brackets, at every sort. -/
abbrev CaseRel := (s : Shape) → BExpr → List Assign → Word s → Word s → Prop

variable (K : CaseRel)

def Term.rel : (s : Shape) → Term s → Word s → Word s → Prop
  | .unit => OpTerm.rel (fun h _ _ _ => h.elim) (K .unit) (den .unit)
  | .leaf => IntTerm.rel
  | .pair h t => OpTerm.rel (nodeRel (Term.rel h) (Term.rel t)) (K (.pair h t))
      (den (.pair h t))

def Term.Additive : (s : Shape) → Term s → Prop
  | .unit => OpTerm.Additive (fun h _ _ _ => h.elim) (K .unit) (den .unit)
      (fun _ _ => True)
  | .leaf => fun _ => True
  | .pair h t => OpTerm.Additive (nodeRel (Term.rel K h) (Term.rel K t)) (K (.pair h t))
      (den (.pair h t)) (fun a b => Term.Additive h a ∧ Term.Additive t b)

/-- A well-formed term that acts as the image of its relation. -/
structure Term.Lawful (N : Numbering) (s : Shape) (t : Term s) : Prop where
  wf : Term.WF N s t
  additive : Term.Additive K s t

/-- The contract of a case evaluator. -/
structure CaseLaws (N : Numbering) (cases : CaseEvaluator) (K : CaseRel) : Prop where
  canon : ∀ {s g as d r}, CaseNormal g as → Canon N s d → cases s g as d = .ok r → Canon N s r
  den : ∀ {s g as d r}, CaseNormal g as → Canon N s d → cases s g as d = .ok r →
    den s r = post (K s g as) (den s d)

variable {K} {N : Numbering} {cases : CaseEvaluator}

private theorem opTerm_isId {H T D W : Type} {nr : H → T → W → W → Prop}
    {er : BExpr → List Assign → W → W → Prop} {dn : D → Set W} {na : H → T → Prop}
    {t : OpTerm H T D} (h : OpTerm.isId t = true) :
    OpTerm.Additive nr er dn na t ∧ OpTerm.rel nr er dn t = fun v u => v = u := by
  cases t with
  | id => exact ⟨trivial, rfl⟩
  | _ => cases h

theorem sortLaws_pair (hK : CaseLaws N cases K) {fuel : Nat} {h t : Shape}
    (Lh : TermLaws (termAlgebra N cases fuel h) (den h) (Canon N h) (Term.WF N h)
      (Term.Additive K h) (Term.rel K h))
    (Lt : TermLaws (termAlgebra N cases fuel t) (den t) (Canon N t) (Term.WF N t)
      (Term.Additive K t) (Term.rel K t)) :
    OpTerm.SortLaws (algebra N (.pair h t))
      (applyNode (algebra N h) (algebra N t) (termAlgebra N cases fuel h)
        (termAlgebra N cases fuel t))
      (cases (.pair h t)) (den (.pair h t)) (Canon N (.pair h t))
      (fun a b => Term.WF N h a ∧ Term.WF N t b)
      (fun a b => Term.Additive K h a ∧ Term.Additive K t b)
      (nodeRel (Term.rel K h) (Term.rel K t)) CaseNormal (K (.pair h t)) where
  support := laws N (.pair h t)
  node_canon := fun hw hd hr => (applyNode_spec (laws N h) (laws N t) Lh Lt hw.1 hw.2 hd hr).1
  node_den := fun hw ha hd hr =>
    (applyNode_spec (laws N h) (laws N t) Lh Lt hw.1 hw.2 hd hr).2 ha.1 ha.2
  expr_canon := hK.canon
  expr_den := hK.den

theorem sortLaws_unit (hK : CaseLaws N cases K) :
    OpTerm.SortLaws (algebra N .unit) (fun h : Empty => h.elim) (cases .unit) (den .unit)
      (Canon N .unit) (fun (_ _ : Empty) => True) (fun _ _ => True) (fun h _ _ _ => h.elim)
      CaseNormal (K .unit) where
  support := laws N .unit
  node_canon := fun {h} => h.elim
  node_den := fun {h} => h.elim
  expr_canon := hK.canon
  expr_den := hK.den

/-- Application at every sort keeps the representation invariant and, on
additive terms, is the image under the term's relation. By induction on the
sort. -/
theorem termLaws (hK : CaseLaws N cases K) (fuel : Nat) : (s : Shape) →
    TermLaws (termAlgebra N cases fuel s) (den s) (Canon N s) (Term.WF N s)
      (Term.Additive K s) (Term.rel K s)
  | .unit =>
    { canon_apply := fun {t c r} hw hc h => OpTerm.apply_canon (sortLaws_unit hK) t c r hw hc h
      den_apply := fun {t c r} hw ha hc h =>
        OpTerm.apply_den (sortLaws_unit hK) t c r hw ha hc h
      isId_rel := fun h => opTerm_isId h
      injective_rel := fun h => nomatch h }
  | .leaf => IntTerm.laws fuel
  | .pair h t =>
    let L := sortLaws_pair hK (termLaws hK fuel h) (termLaws hK fuel t)
    { canon_apply := fun {t c r} hw hc h => OpTerm.apply_canon L t c r hw hc h
      den_apply := fun {t c r} hw ha hc h => OpTerm.apply_den L t c r hw ha hc h
      isId_rel := fun h => opTerm_isId h
      injective_rel := fun h => nomatch h }

end LibHSC
