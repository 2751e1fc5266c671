import LibHSC.PointwiseCase

/-!
Application is additive: a term without a deflationary closure does to a diagram what it
does to each of its words, values and errors alike, and a `node` term does it in one way
whichever path it takes.
-/

namespace LibHSC

open Lia

/-! ## The diagram of one word -/

/-- The diagram holding one word. -/
def single : (s : Shape) → Word s → Code s
  | .unit, _ => true
  | .leaf, v => ([v] : IntSet)
  | .pair h t, w => [(⟨single h w.1, single t w.2⟩ : Arc (Code h) (Code t))]

theorem mem_single : (s : Shape) → ∀ w u, u ∈ den s (single s w) ↔ u = w
  | .unit => fun _ _ => ⟨fun _ => rfl, fun _ => rfl⟩
  | .leaf => fun _ _ => List.mem_singleton
  | .pair h t => by
    intro w u
    refine (mem_nodeDen (den h) (den t)).trans ⟨?_, ?_⟩
    · rintro ⟨a, ha, h1, h2⟩
      obtain rfl := List.mem_singleton.mp ha
      exact Prod.ext ((mem_single h w.1 u.1).mp h1) ((mem_single t w.2 u.2).mp h2)
    · rintro rfl
      exact ⟨_, List.mem_singleton.mpr rfl, (mem_single h _ _).mpr rfl, (mem_single t _ _).mpr rfl⟩

/-- The word of a canonical diagram has a canonical diagram of its own. -/
theorem single_canon {N : Numbering} : (s : Shape) → ∀ (d : Code s), Canon N s d →
    ∀ w ∈ den s d, Canon N s (single s w)
  | .unit => fun _ _ _ _ => trivial
  | .leaf => fun _ hd w hw =>
    ⟨List.pairwise_singleton _ _, List.forall_mem_singleton.mpr (hd.2 w hw)⟩
  | .pair h t => by
    intro d hd w hw
    obtain ⟨a, ha, hw1, hw2⟩ := (mem_nodeDen (den h) (den t)).mp hw
    obtain ⟨hp, hs⟩ := NodeCanon.canon hd a ha
    have hne : ∀ {s : Shape} {v : Word s}, single s v ≠ (algebra N s).none := by
      intro s v hn
      have hv := (mem_single s v v).mpr rfl
      rw [hn, (laws N s).den_none] at hv
      exact hv
    have hc := (rectangle_correct (laws N h) (laws N t) (single_canon h _ hp _ hw1)
      (single_canon t _ hs _ hw2)).1
    rw [rectangle, if_neg (not_or.mpr ⟨hne, hne⟩)] at hc
    exact hc

/-! ## Terms without a deflationary closure -/

section Free

variable {H T D : Type}

/-- The closures a schedule may settle first: the identity, a closure, or a `node` of
closures. -/
def OpTerm.IsClosure (nodeClosure : H → T → Prop) : OpTerm H T D → Prop
  | .id => True
  | .lfp _ => True
  | .saturate _ _ _ => True
  | .node h t => nodeClosure h t
  | _ => False

mutual

/-- No `gfp`, and schedules of the documented form: the two parts settled first are
closures. -/
def OpTerm.GfpFree (nodeFree nodeClosure : H → T → Prop) : OpTerm H T D → Prop
  | .id => True
  | .node h t => nodeFree h t
  | .sum ts => GfpFreeAll nodeFree nodeClosure ts
  | .compose after before =>
    GfpFree nodeFree nodeClosure after ∧ GfpFree nodeFree nodeClosure before
  | .lfp t => GfpFree nodeFree nodeClosure t
  | .gfp _ => False
  | .within _ => True
  | .saturate f l g => GfpFree nodeFree nodeClosure f ∧ GfpFree nodeFree nodeClosure l ∧
      GfpFreeAll nodeFree nodeClosure g ∧ f.IsClosure nodeClosure ∧ l.IsClosure nodeClosure
  | .expr _ _ => True

def OpTerm.GfpFreeAll (nodeFree nodeClosure : H → T → Prop) : List (OpTerm H T D) → Prop
  | [] => True
  | t :: ts => GfpFree nodeFree nodeClosure t ∧ GfpFreeAll nodeFree nodeClosure ts

end

variable {W : Type} {nodeRel : H → T → W → W → Prop}
  {exprRel : BExpr → List Assign → W → W → Prop} {den : D → Set W}
  {nodeFree nodeClosure nodeAdd : H → T → Prop}

theorem OpTerm.isClosure_refl (hn : ∀ h t, nodeClosure h t → ∀ w, nodeRel h t w w) :
    ∀ {t : OpTerm H T D}, t.IsClosure nodeClosure → ∀ w, OpTerm.rel nodeRel exprRel den t w w
  | .id, _, _ => rfl
  | .lfp _, _, _ => Relation.ReflTransGen.refl
  | .saturate _ _ _, _, _ => Relation.ReflTransGen.refl
  | .node h t, hc, w => hn h t hc w

mutual

theorem OpTerm.additive_of_gfpFree (hc : ∀ h t, nodeClosure h t → ∀ w, nodeRel h t w w)
    (hn : ∀ h t, nodeFree h t → nodeAdd h t) : (t : OpTerm H T D) →
    t.GfpFree nodeFree nodeClosure → t.Additive nodeRel exprRel den nodeAdd
  | .id, _ => trivial
  | .node h t, hf => hn h t hf
  | .sum ts, hf => additiveAll_of_gfpFreeAll hc hn ts hf
  | .compose a b, hf => ⟨additive_of_gfpFree hc hn a hf.1, additive_of_gfpFree hc hn b hf.2⟩
  | .lfp t, hf => additive_of_gfpFree hc hn t hf
  | .within _, _ => trivial
  | .saturate f l g, ⟨hf, hl, hg, hcf, hcl⟩ => ⟨additive_of_gfpFree hc hn f hf,
      additive_of_gfpFree hc hn l hl, additiveAll_of_gfpFreeAll hc hn g hg,
      isClosure_refl hc hcf, isClosure_refl hc hcl⟩
  | .expr _ _, _ => trivial

theorem OpTerm.additiveAll_of_gfpFreeAll (hc : ∀ h t, nodeClosure h t → ∀ w, nodeRel h t w w)
    (hn : ∀ h t, nodeFree h t → nodeAdd h t) : (ts : List (OpTerm H T D)) →
    OpTerm.GfpFreeAll nodeFree nodeClosure ts →
    OpTerm.AdditiveAll nodeRel exprRel den nodeAdd ts
  | [], _ => trivial
  | t :: ts, hf => ⟨additive_of_gfpFree hc hn t hf.1, additiveAll_of_gfpFreeAll hc hn ts hf.2⟩

end

end Free

/-- The closures at a sort. -/
def Term.IsClosure : (s : Shape) → Term s → Prop
  | .unit => OpTerm.IsClosure fun _ _ => False
  | .leaf => fun (t : IntTerm) => t = .id ∨ ∃ a, t = .lfp a
  | .pair h t => OpTerm.IsClosure fun a b => Term.IsClosure h a ∧ Term.IsClosure t b

def Term.GfpFree : (s : Shape) → Term s → Prop
  | .unit => OpTerm.GfpFree (fun _ _ => True) fun _ _ => False
  | .leaf => fun _ => True
  | .pair h t => OpTerm.GfpFree (fun a b => Term.GfpFree h a ∧ Term.GfpFree t b)
      fun a b => Term.IsClosure h a ∧ Term.IsClosure t b

theorem Term.isClosure_refl {K : CaseRel} : (s : Shape) → ∀ (t : Term s), Term.IsClosure s t →
    ∀ w, Term.rel K s t w w
  | .unit => fun _ hc => OpTerm.isClosure_refl (fun _ _ h => h.elim) hc
  | .leaf => by
    rintro t (rfl | ⟨a, rfl⟩) w
    · rfl
    · exact Relation.ReflTransGen.refl
  | .pair h t => fun _ hc => OpTerm.isClosure_refl (fun a b hab w =>
    ⟨Term.isClosure_refl h a hab.1 w.1, Term.isClosure_refl t b hab.2 w.2⟩) hc

/-- A term without a deflationary closure acts as the image of its relation. -/
theorem Term.additive_of_gfpFree {K : CaseRel} : (s : Shape) → ∀ {t : Term s},
    Term.GfpFree s t → Term.Additive K s t
  | .unit => fun hf =>
    OpTerm.additive_of_gfpFree (fun _ _ h => h.elim) (fun _ _ _ => trivial) _ hf
  | .leaf => fun _ => trivial
  | .pair h t => fun hf => OpTerm.additive_of_gfpFree
      (fun a b hab w =>
        ⟨Term.isClosure_refl h a hab.1 w.1, Term.isClosure_refl t b hab.2 w.2⟩)
      (fun _ _ hab => ⟨Term.additive_of_gfpFree h hab.1, Term.additive_of_gfpFree t hab.2⟩) _ hf

/-! ## Word by word -/

namespace Manager

variable (m : Manager)

theorem apply_absent : (s : Shape) → ∀ (t : Term s),
    m.apply s t (m.algebra s).none = .ok (m.algebra s).none
  | .unit => fun t => OpTerm.apply_none t
  | .leaf => fun t => IntTerm.apply_nil t
  | .pair _ _ => fun t => OpTerm.apply_none t

/-- The words of the values that the uninterrupted application gives. -/
def image (s : Shape) (t : Term s) (d : Code s) : Set (Word s) :=
  {u | ∃ r, m.Gives s t d r ∧ u ∈ den s r}

variable {m}

theorem image_eq {s : Shape} {t : Term s} {d r : Code s} (h : m.Gives s t d r) :
    m.image s t d = den s r := by
  ext u
  constructor
  · rintro ⟨r', hr', hu⟩
    rw [h.unique hr']
    exact hu
  · intro hu
    exact ⟨r, h, hu⟩

theorem Gives.canon {s : Shape} {t : Term s} (hw : m.WF s t) {d r : Code s} (hd : m.Canon s d)
    (h : m.Gives s t d r) : m.Canon s r := by
  obtain ⟨n, hn⟩ := h
  exact ((m.withFuel n).termLaws s).canon_apply hw hd hn

section Additive

variable {s : Shape} {t : Term s} (hw : m.WF s t) (ha : Term.Additive m.brackets s t)

include hw ha

theorem Gives.den_eq {d r : Code s} (hd : m.Canon s d) (h : m.Gives s t d r) :
    den s r = post (m.rel s t) (den s d) := by
  obtain ⟨n, hn⟩ := h
  exact (m.apply_pointwise hw ha).image hd hn

/-- An additive term returns on a diagram exactly when it returns on each of its words. -/
theorem gives_iff {d : Code s} (hd : m.Canon s d) :
    (∃ r, m.Gives s t d r) ↔ ∀ w ∈ den s d, ∃ r, m.Gives s t (single s w) r := by
  have hp := m.apply_pointwise hw ha
  constructor
  · rintro ⟨r, n, hr⟩ w hwd
    have hsingle := single_canon s d hd w hwd
    obtain ⟨k, x, hx⟩ := hp.ends hsingle ⟨w, (mem_single s w w).mpr rfl⟩ fun u hu => by
      rw [(mem_single s w u).mp hu]
      exact ⟨d, hd, hwd, n, r, hr⟩
    exact ⟨x, k, hx⟩
  · intro h
    obtain ⟨n, r, hr⟩ := hp.ends_all (m.laws s) (fun n => (m.withFuel n).apply_absent s t) hd
      fun w hwd => by
        obtain ⟨x, k, hx⟩ := h w hwd
        exact ⟨single s w, single_canon s d hd w hwd, (mem_single s w w).mpr rfl, k, x, hx⟩
    exact ⟨r, n, hr⟩

theorem image_eq_iUnion {d : Code s} (hd : m.Canon s d) {r : Code s} (h : m.Gives s t d r) :
    den s r = ⋃ w ∈ den s d, m.image s t (single s w) := by
  rw [h.den_eq hw ha hd]
  ext u
  simp only [mem_post, Set.mem_iUnion, exists_prop]
  refine exists_congr fun w => and_congr_right fun hwd => ?_
  obtain ⟨x, hx⟩ := (gives_iff hw ha hd).mp ⟨r, h⟩ w hwd
  rw [image_eq hx, hx.den_eq hw ha (single_canon s d hd w hwd)]
  simp only [mem_post, mem_single, exists_eq_left]

end Additive

end Manager

/-- Application is additive. A term without a deflationary closure returns on a diagram
exactly when it returns on the diagram of each of its words, and the value is the canonical
diagram of the union of theirs. At a `node` term the three evaluation paths come to the same
diagram, or the same error, wherever more than one may be taken. -/
theorem apply_additive (m : Manager) (s : Shape) (t : Term s) (hw : m.WF s t)
    (hf : Term.GfpFree s t) (d : Code s) (hd : m.Canon s d) :
    ((∃ r, m.Gives s t d r) ↔ ∀ w ∈ den s d, ∃ r, m.Gives s t (single s w) r) ∧
    (∀ r, m.Gives s t d r → m.Canon s r ∧ den s r = ⋃ w ∈ den s d, m.image s t (single s w)) ∧
    ∀ (sh st : Shape) (a : Term sh) (b : Term st), m.WF sh a → m.WF st b →
      ∀ c, m.Canon (.pair sh st) c → c ≠ (m.algebra (.pair sh st)).none →
      let identity := identityPath (m.algebra sh) (m.algebra st) (m.terms st) b c
      let injective := injectivePath (m.algebra sh) (m.algebra st) (m.terms sh) (m.terms st) a b c
      let general := generalPath (m.algebra sh) (m.algebra st) (m.terms sh) (m.terms st) a b c
      m.apply (.pair sh st) (OpTerm.node a b) c = general ∧
      ((m.terms sh).isId a = true → identity = injective ∧ identity = general) ∧
      ((m.terms sh).injective a = true → injective = general) := by
  have ha := Term.additive_of_gfpFree (K := m.brackets) s hf
  refine ⟨Manager.gives_iff hw ha hd, fun r hr => ⟨hr.canon hw hd,
    Manager.image_eq_iUnion hw ha hd hr⟩, fun sh st a b hwa hwb c hc hne => ?_⟩
  have hid : ∀ t c, (m.terms sh).isId t = true → (m.terms sh).apply t c = .ok c :=
    termAlgebra_isId m.numbering m.cases m.fuel sh
  obtain ⟨h1, h2⟩ := paths_agree (m.laws sh) (m.laws st) (m.termLaws sh) (m.termLaws st) hwa hwb hc
  refine ⟨?_, fun hi => h1 fun x => hid a x hi, h2⟩
  exact (if_neg hne).trans (applyNode_general (m.laws sh) (m.laws st) (m.termLaws sh)
    (m.termLaws st) hid hwa hwb hc)

/-- Raise the first leaf from 0 to 1 or not, then copy the second to it where it is less. -/
def raiseThenCopy : Term (.pair .leaf .leaf) :=
  OpTerm.compose (OpTerm.expr (.cmp .lt (.var 0) (.var 1)) [⟨.var 0, .var 1⟩])
    (OpTerm.lfp (OpTerm.node (IntTerm.assign [0] 1) IntTerm.id))

theorem apply_additive_raise_then_copy :
    (∀ w ∈ den (.pair .leaf .leaf) [⟨[0], [1, 2]⟩], ∃ r, (Manager.standard 5 3).Gives
      (.pair .leaf .leaf) raiseThenCopy (single (.pair .leaf .leaf) w) r) ∧
    den (.pair .leaf .leaf) [⟨[1], [1]⟩, ⟨[2], [2]⟩] =
      ⋃ w ∈ den (.pair .leaf .leaf) [⟨[0], [1, 2]⟩], (Manager.standard 5 3).image
        (.pair .leaf .leaf) raiseThenCopy (single (.pair .leaf .leaf) w) := by
  have hd : (Manager.standard 5 3).Canon (.pair .leaf .leaf) [⟨[0], [1, 2]⟩] :=
    Manager.canon_single _ (show IntSet.Canon [0] by decide) (show IntSet.Canon [1, 2] by decide)
      (show ([0] : List Int) ≠ [] by decide) (show ([1, 2] : List Int) ≠ [] by decide)
  have hassign : (IntTerm.assign [0] 1).WF :=
    ⟨show IntSet.Canon [0] by decide, show InInt32 1 by decide⟩
  have hcase : CaseNormal (.cmp .lt (.var 0) (.var 1)) [⟨.var 0, .var 1⟩] := by
    simp [CaseNormal, BExpr.Normal, IExpr.Normal, isValue]
  have hr : (Manager.standard 5 3).Gives (.pair .leaf .leaf) raiseThenCopy [⟨[0], [1, 2]⟩]
      [⟨[1], [1]⟩, ⟨[2], [2]⟩] := ⟨5, by decide +kernel⟩
  obtain ⟨hiff, hval, -⟩ := apply_additive (Manager.standard 5 3) (.pair .leaf .leaf)
    raiseThenCopy ⟨hcase, hassign, trivial⟩ ⟨trivial, trivial, trivial⟩ _ hd
  exact ⟨hiff.mp ⟨_, hr⟩, (hval _ hr).2⟩

end LibHSC
