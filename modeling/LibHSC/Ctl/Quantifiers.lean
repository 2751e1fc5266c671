import LibHSC.Ctl.Semantics

/-!
The shape of a normal form: `not` stands over atoms only, and the syntactic test of
the path quantifiers says which of them occur. A normal form with existential
operators only is convertible; one with universal operators only is not, and its
negation is existential.
-/

namespace LibHSC.Ctl

open Lia (ConnOp)

/-! ## Shapes -/

mutual

def Formula.Nnf : Formula → Prop
  | .not (.atom _) => True
  | .not _ => False
  | .nary _ kids => NnfList kids
  | .unary _ f => f.Nnf
  | .binary _ f g => f.Nnf ∧ g.Nnf
  | _ => True

def NnfList : List Formula → Prop
  | [] => True
  | f :: fs => f.Nnf ∧ NnfList fs

end

mutual

/-- Every path operator is existential, or every one universal. -/
def Formula.Only (existential : Bool) : Formula → Prop
  | .not f => f.Only existential
  | .nary _ kids => OnlyList existential kids
  | .unary o f => o.isExistential = existential ∧ f.Only existential
  | .binary o f g => o.isExistential = existential ∧ f.Only existential ∧ g.Only existential
  | _ => True

def OnlyList (existential : Bool) : List Formula → Prop
  | [] => True
  | f :: fs => f.Only existential ∧ OnlyList existential fs

end

theorem nnfList_iff {fs : List Formula} : NnfList fs ↔ ∀ f ∈ fs, f.Nnf := by
  induction fs with
  | nil => simp [NnfList]
  | cons f fs ih => simp [NnfList, ih]

theorem onlyList_iff {e : Bool} {fs : List Formula} : OnlyList e fs ↔ ∀ f ∈ fs, f.Only e := by
  induction fs with
  | nil => simp [OnlyList]
  | cons f fs ih => simp [OnlyList, ih]

theorem isStateList_iff {fs : List Formula} :
    isStateList fs = true ↔ ∀ f ∈ fs, isState f = true := by
  induction fs with
  | nil => simp [isStateList]
  | cons f fs ih => simp [isStateList, ih]

/-! ## The constructor of connectives -/

/-- A kept operand is no connective of the same kind and not neutral. -/
def Formula.Kept (k : ConnOp) (f : Formula) : Prop := (∀ gs, f ≠ .nary k gs) ∧ f ≠ neutral k

theorem mem_flattenKids {k : ConnOp} {fs : List Formula} {g : Formula}
    (hg : g ∈ flattenKids k fs) : (g ∈ fs ∧ g.Kept k) ∨ ∃ gs, .nary k gs ∈ fs ∧ g ∈ gs := by
  induction fs with
  | nil => cases hg
  | cons f fs ih =>
    have hup : ((g ∈ fs ∧ g.Kept k) ∨ ∃ gs, .nary k gs ∈ fs ∧ g ∈ gs) →
        (g ∈ f :: fs ∧ g.Kept k) ∨ ∃ gs, .nary k gs ∈ f :: fs ∧ g ∈ gs := by
      rintro (⟨h, hk⟩ | ⟨gs, h, hg⟩)
      · exact .inl ⟨List.mem_cons_of_mem _ h, hk⟩
      · exact .inr ⟨gs, List.mem_cons_of_mem _ h, hg⟩
    have hcons : f.Kept k → g ∈ f :: flattenKids k fs →
        (g ∈ f :: fs ∧ g.Kept k) ∨ ∃ gs, .nary k gs ∈ f :: fs ∧ g ∈ gs := by
      intro hf h
      rcases List.mem_cons.mp h with rfl | h
      · exact .inl ⟨List.mem_cons_self .., hf⟩
      · exact hup (ih h)
    have hother : (∀ gs, f ≠ .nary k gs) →
        g ∈ (if f = neutral k then flattenKids k fs else f :: flattenKids k fs) →
        (g ∈ f :: fs ∧ g.Kept k) ∨ ∃ gs, .nary k gs ∈ f :: fs ∧ g ∈ gs := by
      intro hf h
      split at h
      · exact hup (ih h)
      · next hn => exact hcons ⟨hf, hn⟩ h
    cases f with
    | nary k' gs =>
      rw [flattenKids] at hg
      split at hg
      · next hk =>
        subst hk
        rcases List.mem_append.mp hg with h | h
        · exact .inr ⟨gs, List.mem_cons_self .., h⟩
        · exact hup (ih h)
      · next hk =>
        refine hcons ⟨fun hs he => ?_, by cases k <;> simp [neutral]⟩ hg
        cases he
        exact hk rfl
    | _ => exact hother (fun gs he => by cases he) hg

/-- A property of formulas that a connective has when its operands do passes to what
the constructor makes. -/
theorem nary_all {X : Formula → Prop} (htru : X .tru) (hfls : X .fls)
    (hnary : ∀ k fs, X (.nary k fs) ↔ ∀ f ∈ fs, X f) {ids : Formula → Nat} {k : ConnOp}
    {fs : List Formula} (h : ∀ f ∈ fs, X f) : X (nary ids k fs) := by
  have hflat : ∀ f ∈ sortKids ids (flattenKids k fs).dedup, X f := by
    intro f hf
    rcases mem_flattenKids (List.mem_dedup.mp (mem_sortKids.mp hf)) with ⟨hf, -⟩ | ⟨gs, hgs, hf⟩
    · exact h f hf
    · exact (hnary k gs).mp (h _ hgs) f hf
  unfold nary
  split
  · cases k
    · exact hfls
    · exact htru
  · unfold packKids
    split
    · cases k
      · exact htru
      · exact hfls
    · next f heq => exact hflat f (heq ▸ List.mem_singleton.mpr rfl)
    · exact (hnary k _).mpr hflat

variable {ids : Formula → Nat}

theorem nary_nnf {k : ConnOp} {fs : List Formula} (h : ∀ f ∈ fs, f.Nnf) : (nary ids k fs).Nnf :=
  nary_all trivial trivial (fun _ _ => nnfList_iff) h

theorem nary_only {e : Bool} {k : ConnOp} {fs : List Formula} (h : ∀ f ∈ fs, f.Only e) :
    (nary ids k fs).Only e :=
  nary_all (X := Formula.Only e) trivial trivial (fun _ _ => onlyList_iff) h

/-! ## The normal forms -/

mutual

theorem nnf_nnf : (f : Formula) → (nnf ids f).Nnf
  | .atom _ => trivial
  | .tru => trivial
  | .fls => trivial
  | .not f => negate_nnf f
  | .nary _ kids => nary_nnf (nnfList_nnf kids)
  | .unary _ f => nnf_nnf f
  | .binary _ f g => ⟨nnf_nnf f, nnf_nnf g⟩

theorem negate_nnf : (f : Formula) → (negate ids f).Nnf
  | .atom _ => trivial
  | .tru => trivial
  | .fls => trivial
  | .not f => nnf_nnf f
  | .nary _ kids => nary_nnf (negateList_nnf kids)
  | .unary _ f => negate_nnf f
  | .binary _ f g => by
    refine ⟨negate_nnf g, nary_nnf ?_⟩
    have hf := negate_nnf f
    have hg := negate_nnf g
    simp [hf, hg]

theorem nnfList_nnf : (fs : List Formula) → ∀ f ∈ nnfList ids fs, f.Nnf
  | [] => by simp [nnfList]
  | f :: fs => List.forall_mem_cons.mpr ⟨nnf_nnf f, nnfList_nnf fs⟩

theorem negateList_nnf : (fs : List Formula) → ∀ f ∈ negateList ids fs, f.Nnf
  | [] => by simp [negateList]
  | f :: fs => List.forall_mem_cons.mpr ⟨negate_nnf f, negateList_nnf fs⟩

end

theorem UnaryOp.dual_isExistential (o : UnaryOp) : o.dual.isExistential = !o.isExistential := by
  cases o <;> rfl

theorem BinaryOp.dual_isExistential (o : BinaryOp) : o.dual.isExistential = !o.isExistential := by
  cases o <;> rfl

mutual

/-- The negation of a normal form turns its quantifiers. -/
theorem negate_only {e : Bool} : (f : Formula) → f.Nnf → f.Only e → (negate ids f).Only (!e)
  | .atom _, _, _ => trivial
  | .tru, _, _ => trivial
  | .fls, _, _ => trivial
  | .not (.atom _), _, _ => trivial
  | .nary _ kids, hn, ho => nary_only (negateList_only kids hn ho)
  | .unary o f, hn, ho => ⟨by rw [o.dual_isExistential, ho.1], negate_only f hn ho.2⟩
  | .binary o f g, hn, ho => by
    have hf := negate_only f hn.1 ho.2.1
    have hg := negate_only g hn.2 ho.2.2
    refine ⟨by rw [o.dual_isExistential, ho.1], hg, nary_only ?_⟩
    simp [hf, hg]

theorem negateList_only {e : Bool} : (fs : List Formula) → NnfList fs → OnlyList e fs →
    ∀ f ∈ negateList ids fs, f.Only (!e)
  | [], _, _ => by simp [negateList]
  | f :: fs, hn, ho =>
    List.forall_mem_cons.mpr ⟨negate_only f hn.1 ho.1, negateList_only fs hn.2 ho.2⟩

end

/-! ## The test of the quantifiers -/

theorem combine_eq {q q' : Quantifiers} {e : Bool}
    (h : q.combine q' = .none ∨ q.combine q' = quantifierOf e) :
    (q = .none ∨ q = quantifierOf e) ∧ (q' = .none ∨ q' = quantifierOf e) := by
  cases q <;> cases q' <;> cases e <;> simp_all [Quantifiers.combine, quantifierOf]

theorem quantifierOf_eq {e e' : Bool}
    (h : quantifierOf e = .none ∨ quantifierOf e = quantifierOf e') : e = e' := by
  cases e <;> cases e' <;> simp_all [quantifierOf]

mutual

/-- A formula the test calls existential has existential operators only, and so for
universal. -/
theorem only_of_pathQuantifiers {e : Bool} : (f : Formula) →
    pathQuantifiers f = .none ∨ pathQuantifiers f = quantifierOf e → f.Only e
  | .atom _, _ => trivial
  | .tru, _ => trivial
  | .fls, _ => trivial
  | .not f, h => only_of_pathQuantifiers f h
  | .nary _ kids, h => (onlyList_of_pathQuantifiers kids .none h).2
  | .unary o f, h => by
    obtain ⟨ho, hf⟩ := combine_eq h
    exact ⟨quantifierOf_eq ho, only_of_pathQuantifiers f hf⟩
  | .binary o f g, h => by
    obtain ⟨h, hg⟩ := combine_eq h
    obtain ⟨ho, hf⟩ := combine_eq h
    exact ⟨quantifierOf_eq ho, only_of_pathQuantifiers f hf, only_of_pathQuantifiers g hg⟩

theorem onlyList_of_pathQuantifiers {e : Bool} : (fs : List Formula) → ∀ q : Quantifiers,
    pathQuantifiersList q fs = .none ∨ pathQuantifiersList q fs = quantifierOf e →
    (q = .none ∨ q = quantifierOf e) ∧ OnlyList e fs
  | [], _, h => ⟨h, trivial⟩
  | f :: fs, q, h => by
    obtain ⟨hq, hfs⟩ := onlyList_of_pathQuantifiers fs _ h
    obtain ⟨hq, hf⟩ := combine_eq hq
    exact ⟨hq, only_of_pathQuantifiers f hf, hfs⟩

end

mutual

theorem isState_quantifiers : (f : Formula) → isState f = true → pathQuantifiers f = .none
  | .atom _, _ => rfl
  | .tru, _ => rfl
  | .fls, _ => rfl
  | .not f, h => isState_quantifiers f h
  | .nary _ kids, h => isStateList_quantifiers kids h

theorem isStateList_quantifiers : (fs : List Formula) → isStateList fs = true →
    pathQuantifiersList .none fs = .none
  | [], _ => rfl
  | f :: fs, h => by
    obtain ⟨hf, hfs⟩ := Bool.and_eq_true_iff.mp h
    rw [pathQuantifiersList, isState_quantifiers f hf]
    exact isStateList_quantifiers fs hfs

end

/-! ## Convertible normal forms -/

mutual

theorem convertible_of_only : (f : Formula) → f.Nnf → f.Only true → convertible f = true
  | .atom _, _, _ => rfl
  | .tru, _, _ => rfl
  | .fls, _, _ => rfl
  | .not (.atom _), _, _ => rfl
  | .nary _ kids, hn, ho => by
    rw [convertible, convertibleList_of_only kids hn ho, Bool.or_true]
  | .unary _ _, _, ho => ho.1
  | .binary _ _ _, _, ho => ho.1

theorem convertibleList_of_only : (fs : List Formula) → NnfList fs → OnlyList true fs →
    convertibleList fs = true
  | [], _, _ => rfl
  | f :: fs, hn, ho => by
    rw [convertibleList, convertible_of_only f hn.1 ho.1, convertibleList_of_only fs hn.2 ho.2]
    rfl

end

mutual

/-- A universal normal form is convertible only when it is a state formula. -/
theorem isState_of_convertible : (f : Formula) → f.Nnf → f.Only false →
    convertible f = true → isState f = true
  | .atom _, _, _, _ => rfl
  | .tru, _, _, _ => rfl
  | .fls, _, _, _ => rfl
  | .not (.atom _), _, _, _ => rfl
  | .nary _ kids, hn, ho, hc => by
    rcases Bool.or_eq_true_iff.mp hc with h | h
    · exact h
    · exact isStateList_of_convertible kids hn ho h
  | .unary _ _, _, ho, hc => absurd (ho.1.symm.trans hc) Bool.false_ne_true
  | .binary _ _ _, _, ho, hc => absurd (ho.1.symm.trans hc) Bool.false_ne_true

theorem isStateList_of_convertible : (fs : List Formula) → NnfList fs → OnlyList false fs →
    convertibleList fs = true → isStateList fs = true
  | [], _, _, _ => rfl
  | f :: fs, hn, ho, hc => by
    obtain ⟨hf, hfs⟩ := Bool.and_eq_true_iff.mp hc
    rw [isStateList, isState_of_convertible f hn.1 ho.1 hf,
      isStateList_of_convertible fs hn.2 ho.2 hfs]
    rfl

end

end LibHSC.Ctl
