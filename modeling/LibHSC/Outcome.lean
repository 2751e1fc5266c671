import LibHSC.Saturate

/-!
What an application comes to, for every term: whether it returns, and the words of what
it returns. An additive term has a relation to say this with; a deflationary closure, or a
node over one, has not, and is described here.

`applyNode_returns` and `applyNode_out` are the two facts of a `node` term, whichever of
its three paths is taken; `paths_agree` says that the paths give one code.
-/

namespace LibHSC

namespace TermAlgebra

variable {C τ W : Type} (M : TermAlgebra C τ) (den : C → Set W)

/-- The application returns a value. -/
def Returns (t : τ) (c : C) : Prop := ∃ r, M.apply t c = .ok r

/-- The words of the value returned; there are none when none is returned. -/
def out (t : τ) (c : C) : Set W := {w | ∃ r, M.apply t c = .ok r ∧ w ∈ den r}

variable {M}

theorem out_eq {t : τ} {c r : C} (h : M.apply t c = .ok r) : M.out den t c = den r := by
  ext w
  constructor
  · rintro ⟨r', hr', hw⟩
    rw [h] at hr'
    cases hr'
    exact hw
  · intro hw
    exact ⟨r, h, hw⟩

end TermAlgebra

/-! ## The three paths of a `node` term -/

section Paths

variable {C D σ τ : Type} [DecidableEq C] [DecidableEq D] (H : SupportAlgebra C)
  (T : SupportAlgebra D) (MH : TermAlgebra C σ) (MT : TermAlgebra D τ)

/-- Skip on the head: the primes are untouched, only the regroup by sub is owed. -/
def identityPath (t : τ) (d : List (Arc C D)) : Except Err (List (Arc C D)) := do
  return finish H T (addAll H T [] (← tailArcs MT t d))

/-- The head acts injectively: the image primes stay disjoint. -/
def injectivePath (h : σ) (t : τ) (d : List (Arc C D)) : Except Err (List (Arc C D)) := do
  return finish H T (addAll H T [] (← imageArcs H MH MT h t d))

/-- The head acts, so primes may overlap or collide: full construction. -/
def generalPath (h : σ) (t : τ) (d : List (Arc C D)) : Except Err (List (Arc C D)) := do
  return canonize H T ((← imageArcs H MH MT h t d).filter fun a => a.sub ≠ T.none)

theorem applyNode_eq (h : σ) (t : τ) (d : List (Arc C D)) :
    applyNode H T MH MT h t d =
      if MH.isId h then identityPath H T MT t d
      else if MH.injective h then injectivePath H T MH MT h t d
      else generalPath H T MH MT h t d :=
  rfl

theorem applyNode_nil (h : σ) (t : τ) : applyNode H T MH MT h t [] = .ok [] := by
  unfold applyNode
  split
  · rfl
  · split <;> rfl

variable {V W : Type} {H T MH MT} {denH : C → Set V} {denT : D → Set W} {CanonH : C → Prop}
  {CanonT : D → Prop} {WFH AddH : σ → Prop} {WFT AddT : τ → Prop}
  {relH : σ → V → V → Prop} {relT : τ → W → W → Prop}

section Identity

omit [DecidableEq D] in
/-- An identity head is applied to no effect, and no prime of a node is absent. -/
theorem imageArcs_of_isId {h : σ} {t : τ} (happly : ∀ c, MH.apply h c = .ok c) :
    ∀ {d : List (Arc C D)}, (∀ a ∈ d, a.prime ≠ H.none) →
      imageArcs H MH MT h t d = tailArcs MT t d := by
  intro d
  induction d with
  | nil => exact fun _ => rfl
  | cons a as ih =>
    intro hne
    obtain ⟨ha, has⟩ := List.forall_mem_cons.mp hne
    rw [imageArcs, happly, tailArcs, ih has]
    show (if a.prime = H.none then _ else _) = _
    rw [if_neg ha]

end Identity

variable (hH : SupportLaws H denH CanonH) (hT : SupportLaws T denT CanonT)
  (LH : TermLaws MH denH CanonH WFH AddH relH) (LT : TermLaws MT denT CanonT WFT AddT relT)

include hH hT

/-- A bag of disjoint primes: the regroup and the full construction give one node. -/
theorem regroup_eq_canonize {bag : List (Arc C D)} (hc : CanonArcs CanonH CanonT bag)
    (hdis : DisjointPrimes denH bag) :
    finish H T (addAll H T [] bag) = canonize H T (bag.filter fun a => a.sub ≠ T.none) := by
  obtain ⟨hf, hfd⟩ := filter_sub_ne denH hT hc
  obtain ⟨h1, h2⟩ := regroup_correct hH hT hc hdis
  obtain ⟨h3, h4⟩ := canonize_correct hH hT hf
  exact nodeCanon_ext hH hT h1 h3 (h2.trans (h4.trans hfd).symm)

include LH LT

/-- The three paths of a `node` term give one result, value or error, wherever more than
one of them may be taken: an identity head may take any of them, an injective one the last
two. -/
theorem paths_agree {h : σ} {t : τ} (hh : WFH h) (ht : WFT t) {d : List (Arc C D)}
    (hd : NodeCanon H T denH CanonH CanonT d) :
    ((∀ c, MH.apply h c = .ok c) → identityPath H T MT t d = injectivePath H T MH MT h t d ∧
        identityPath H T MT t d = generalPath H T MH MT h t d) ∧
    (MH.injective h = true → injectivePath H T MH MT h t d = generalPath H T MH MT h t d) := by
  unfold identityPath injectivePath generalPath
  refine ⟨fun happly => ?_, fun hinj => ?_⟩
  · rw [imageArcs_of_isId happly hd.prime_ne]
    refine ⟨rfl, ?_⟩
    cases hbag : tailArcs MT t d with
    | error e => rfl
    | ok bag =>
      obtain ⟨hc, hprimes, -⟩ := tailArcs_spec denH LT ht hd.canon hbag
      exact congrArg Except.ok (regroup_eq_canonize hH hT hc
        (disjointPrimes_of_primes hprimes hd.disjoint))
  · cases hbag : imageArcs H MH MT h t d with
    | error e => rfl
    | ok bag =>
      obtain ⟨hc, -, -⟩ := imageArcs_spec hH LH LT hh ht hd.canon hbag
      obtain ⟨hdis, -⟩ := imageArcs_disjoint LH hh hinj hd.canon hd.disjoint hbag
      exact congrArg Except.ok (regroup_eq_canonize hH hT hc hdis)

end Paths

/-! ## The outcome of a `node` term -/

section NodeOutcome

variable {C D σ τ V W : Type} (MH : TermAlgebra C σ) (MT : TermAlgebra D τ)
  (denH : C → Set V) (denT : D → Set W)

/-- A `node` term returns: the head on every prime, and the tail on the subs of the arcs
whose prime is not refused. -/
def NodeReturns (h : σ) (t : τ) (d : List (Arc C D)) : Prop :=
  ∀ a ∈ d, MH.Returns h a.prime ∧ ((MH.out denH h a.prime).Nonempty → MT.Returns t a.sub)

/-- Each arc moved by its two terms. -/
def nodeOut (h : σ) (t : τ) (d : List (Arc C D)) : Set (V × W) :=
  {w | ∃ a ∈ d, w.1 ∈ MH.out denH h a.prime ∧ w.2 ∈ MT.out denT t a.sub}

variable [DecidableEq C] [DecidableEq D] {H : SupportAlgebra C} {T : SupportAlgebra D}
  {CanonH : C → Prop} {CanonT : D → Prop} {WFH AddH : σ → Prop} {WFT AddT : τ → Prop}
  {relH : σ → V → V → Prop} {relT : τ → W → W → Prop} {MH MT denH denT}

omit [DecidableEq D] in
theorem imageArcs_returns (hH : SupportLaws H denH CanonH)
    (LH : TermLaws MH denH CanonH WFH AddH relH) {h : σ} {t : τ} (hh : WFH h) :
    ∀ {d : List (Arc C D)}, CanonArcs CanonH CanonT d →
      ((∃ r, imageArcs H MH MT h t d = .ok r) ↔ NodeReturns MH MT denH h t d) := by
  intro d
  induction d with
  | nil => exact fun _ => ⟨fun _ a ha => (nomatch ha), fun _ => ⟨[], rfl⟩⟩
  | cons a as ih =>
    intro hc
    obtain ⟨⟨hp, -⟩, hcs⟩ := (canonArcs_cons a as).mp hc
    unfold NodeReturns at ih ⊢
    rw [List.forall_mem_cons, ← ih hcs, imageArcs]
    cases hap : MH.apply h a.prime with
    | error e =>
      refine ⟨fun ⟨r, hr⟩ => (nomatch hr), ?_⟩
      rintro ⟨⟨⟨p, hp'⟩, -⟩, -⟩
      rw [hap] at hp'
      cases hp'
    | ok p =>
      have hpc := LH.canon_apply hh hp hap
      have hret : MH.Returns h a.prime := ⟨p, hap⟩
      rw [TermAlgebra.out_eq denH hap]
      show (∃ r, (if p = H.none then _ else _) = Except.ok r) ↔ _
      by_cases hn : p = H.none
      · rw [if_pos hn]
        refine ⟨fun hr => ⟨⟨hret, ?_⟩, hr⟩, fun hr => hr.2⟩
        rw [hn, hH.den_none]
        exact fun hne => hne.ne_empty.elim rfl
      · rw [if_neg hn]
        have hne := hH.nonempty_of_ne_none hpc hn
        constructor
        · rintro ⟨r, hr⟩
          obtain ⟨s, hs, hr⟩ := bind_eq_ok.mp hr
          obtain ⟨r', hr', -⟩ := bind_eq_ok.mp hr
          exact ⟨⟨hret, fun _ => ⟨s, hs⟩⟩, r', hr'⟩
        · rintro ⟨⟨-, ht⟩, r', hr'⟩
          obtain ⟨s, hs⟩ := ht hne
          rw [hs, hr']
          exact ⟨_, rfl⟩

omit [DecidableEq D] in
theorem imageArcs_out (hH : SupportLaws H denH CanonH) {h : σ} {t : τ} :
    ∀ {d r : List (Arc C D)}, imageArcs H MH MT h t d = .ok r →
      nodeDen denH denT r = nodeOut MH MT denH denT h t d := by
  intro d
  induction d with
  | nil =>
    intro r hr
    cases hr
    ext w
    simp [nodeOut]
  | cons a as ih =>
    intro r hr
    have hsplit : nodeOut MH MT denH denT h t (a :: as) =
        MH.out denH h a.prime ×ˢ MT.out denT t a.sub ∪ nodeOut MH MT denH denT h t as := by
      ext w
      simp [nodeOut]
    rw [hsplit]
    obtain ⟨p, hp, hr⟩ := bind_eq_ok.mp hr
    rw [TermAlgebra.out_eq denH hp]
    by_cases hn : p = H.none
    · rw [if_pos hn] at hr
      rw [ih hr, hn, hH.den_none, Set.empty_prod, Set.empty_union]
    · rw [if_neg hn] at hr
      obtain ⟨s, hs, hr⟩ := bind_eq_ok.mp hr
      obtain ⟨r', hr', hr⟩ := bind_eq_ok.mp hr
      cases hr
      rw [TermAlgebra.out_eq denT hs, nodeDen_cons, ih hr']

variable (hH : SupportLaws H denH CanonH) (hT : SupportLaws T denT CanonT)
  (LH : TermLaws MH denH CanonH WFH AddH relH) (LT : TermLaws MT denT CanonT WFT AddT relT)
  (hid : ∀ h c, MH.isId h = true → MH.apply h c = .ok c)

include hH hT LH LT hid

/-- Whichever path it takes, a `node` term does what the general one would. -/
theorem applyNode_general {h : σ} {t : τ} (hh : WFH h) (ht : WFT t) {d : List (Arc C D)}
    (hd : NodeCanon H T denH CanonH CanonT d) :
    applyNode H T MH MT h t d = generalPath H T MH MT h t d := by
  obtain ⟨h1, h2⟩ := paths_agree hH hT LH LT hh ht hd
  rw [applyNode_eq]
  split
  · next hi => exact (h1 fun c => hid h c hi).2
  · split
    · next hi => exact h2 hi
    · rfl

theorem applyNode_returns {h : σ} {t : τ} (hh : WFH h) (ht : WFT t) {d : List (Arc C D)}
    (hd : NodeCanon H T denH CanonH CanonT d) :
    (∃ r, applyNode H T MH MT h t d = .ok r) ↔ NodeReturns MH MT denH h t d := by
  rw [applyNode_general hH hT LH LT hid hh ht hd, ← imageArcs_returns hH LH hh hd.canon]
  unfold generalPath
  constructor
  · rintro ⟨r, hr⟩
    obtain ⟨bag, hbag, -⟩ := bind_eq_ok.mp hr
    exact ⟨bag, hbag⟩
  · rintro ⟨bag, hbag⟩
    rw [hbag]
    exact ⟨_, rfl⟩

theorem applyNode_out {h : σ} {t : τ} (hh : WFH h) (ht : WFT t) {d r : List (Arc C D)}
    (hd : NodeCanon H T denH CanonH CanonT d) (hr : applyNode H T MH MT h t d = .ok r) :
    nodeDen denH denT r = nodeOut MH MT denH denT h t d := by
  rw [applyNode_general hH hT LH LT hid hh ht hd] at hr
  obtain ⟨bag, hbag, hr⟩ := bind_eq_ok.mp hr
  cases hr
  obtain ⟨hc, -, -⟩ := imageArcs_spec hH LH LT hh ht hd.canon hbag
  obtain ⟨hf, hfd⟩ := filter_sub_ne denH hT hc
  rw [(canonize_correct hH hT hf).2, hfd, imageArcs_out hH hbag]

end NodeOutcome

/-- The identity of a sort changes nothing. -/
theorem termAlgebra_isId (N : Numbering) (cases : CaseEvaluator) (fuel : Nat) :
    (s : Shape) → (t : Term s) → (c : Code s) → (termAlgebra N cases fuel s).isId t = true →
    (termAlgebra N cases fuel s).apply t c = .ok c
  | .unit, t, c, h => by
    cases t with
    | id => rfl
    | _ => cases h
  | .leaf, t, c, h => by
    have ht : (show IntTerm from t) = IntTerm.id := of_decide_eq_true h
    exact ht ▸ rfl
  | .pair _ _, t, c, h => by
    cases t with
    | id => rfl
    | _ => cases h

end LibHSC
