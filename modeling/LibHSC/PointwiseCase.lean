import LibHSC.Pointwise
import LibHSC.Splits

/-!
A case bracket returns pointwise. Its split returns when every word has a marker, and a
marker decides the residual; the residual of a class is an event, hence an additive term
of lower depth. So the brackets of a run are pointwise at every depth, and with them every
additive term of the run.
-/

namespace LibHSC

open Lia

/-! ## The residual of a class -/

section Class

variable (N : Numbering) (R : ExprIds) (M : (s : Shape) → TermAlgebra (Code s) (Term s))

/-- One class of the split is gone through: its residual refuses, or it is an event that
returns on the class. -/
def ClassReturns (s : Shape) (guard : BExpr) (as : List Assign) (e m : IExpr) (d : Code s) :
    Prop :=
  ∃ g, substSubexprBool R guard e m = .ok g ∧ ((g = .bfalse ∨ g = .bundef) ∨
    ∃ c, curryAssigns R e m as = .ok c ∧ ∀ curried, c = some curried →
      ∃ t, makeEvent R s g curried = .ok t ∧ (M s).Returns t d)

variable {N R M}

theorem applyClass_returns {s : Shape} {guard : BExpr} {as : List Assign} {e m : IExpr}
    {d out : Code s} : (∃ r, applyClass N R M s guard as e m d out = .ok r) ↔
      ClassReturns R M s guard as e m d := by
  constructor
  · rintro ⟨r, h⟩
    obtain ⟨g, hg, h⟩ := bind_eq_ok.mp h
    refine ⟨g, hg, ?_⟩
    split at h
    · next hf => exact Or.inl hf
    · obtain ⟨c, hc, h⟩ := bind_eq_ok.mp h
      refine Or.inr ⟨c, hc, ?_⟩
      rintro curried rfl
      obtain ⟨t, ht, h⟩ := bind_eq_ok.mp h
      obtain ⟨x, hx, -⟩ := bind_eq_ok.mp h
      exact ⟨t, ht, x, hx⟩
  · rintro ⟨g, hg, h⟩
    unfold applyClass
    rw [hg]
    show ∃ r, (if g = .bfalse ∨ g = .bundef then _ else _) = Except.ok r
    by_cases hf : g = .bfalse ∨ g = .bundef
    · exact ⟨out, if_pos hf⟩
    · rw [if_neg hf]
      rcases h with h | ⟨c, hc, h⟩
      · exact absurd h hf
      · cases c with
        | none => exact ⟨out, bind_of_ok hc rfl⟩
        | some curried =>
          obtain ⟨t, ht, x, hx⟩ := h curried rfl
          exact ⟨_, bind_of_ok hc (bind_eq_ok.mpr ⟨t, ht, bind_of_ok hx rfl⟩)⟩

theorem applyClasses_returns {h t : Shape} {guard : BExpr} {as : List Assign} {e : IExpr} :
    ∀ {cs : List (IExpr × Arc (Code h) (Code t))} {out : Code (.pair h t)},
      (∃ r, applyClasses N R M h t guard as e cs out = .ok r) ↔
      ∀ c ∈ cs, ClassReturns R M (.pair h t) guard as e c.1
        (rectangle (algebra N h) (algebra N t) c.2.prime c.2.sub) := by
  intro cs
  induction cs with
  | nil => exact fun {out} => ⟨fun _ c hc => (nomatch hc), fun _ => ⟨out, rfl⟩⟩
  | cons c cs ih =>
    intro out
    refine Iff.trans ?_ List.forall_mem_cons.symm
    constructor
    · rintro ⟨r, hr⟩
      obtain ⟨x, hx, hr⟩ := bind_eq_ok.mp hr
      exact ⟨applyClass_returns.mp ⟨x, hx⟩, ih.mp ⟨r, hr⟩⟩
    · rintro ⟨hc, hcs⟩
      obtain ⟨x, hx⟩ := applyClass_returns.mpr hc
      obtain ⟨r, hr⟩ := ih.mpr hcs
      exact ⟨r, bind_of_ok hx hr⟩

end Class

section Ends

variable {N : Numbering} {R : ExprIds} {K : CaseRel}
  {M : Nat → (s : Shape) → TermAlgebra (Code s) (Term s)}
  (hM : ∀ n s, TermLaws (M n s) (den s) (Canon N s) (Term.WF N s) (Term.Additive K s)
    (Term.rel K s))
  (hle : ∀ {n k}, n ≤ k → ∀ s, (M n s).Le (M k s))
  (hid : ∀ n s t c, (M n s).isId t = true → (M n s).apply t c = .ok c)
  (hp : ∀ {s t}, Term.Lawful K N s t →
    Pointwise (den s) (Canon N s) (fun n => (M n s).apply t) (Term.rel K s t))

include hle in
theorem classReturns_mono {s : Shape} {guard : BExpr} {as : List Assign} {e m : IExpr}
    {d : Code s} {n k : Nat} (hk : n ≤ k) (h : ClassReturns R (M n) s guard as e m d) :
    ClassReturns R (M k) s guard as e m d := by
  obtain ⟨g, hg, h⟩ := h
  refine ⟨g, hg, h.imp id ?_⟩
  rintro ⟨c, hc, h⟩
  refine ⟨c, hc, fun curried hcur => ?_⟩
  obtain ⟨t, ht, x, hx⟩ := h curried hcur
  exact ⟨t, ht, x, (hle hk s).apply hx⟩

include hp in
/-- The words of a class share the residual, so it returns on the class when it does around
each of its words. -/
theorem classReturns_ends {s : Shape} {guard : BExpr} {as : List Assign} {e m : IExpr}
    {d : Code s} (hn : CaseNormal guard as) (hm : m.Normal) (hd : Canon N s d)
    (hne : (den s d).Nonempty)
    (h : ∀ w ∈ den s d, ∃ n d', Canon N s d' ∧ w ∈ den s d' ∧
      ClassReturns R (M n) s guard as e m d') :
    ∃ n, ClassReturns R (M n) s guard as e m d := by
  obtain ⟨w, hw⟩ := hne
  obtain ⟨_, _, -, -, g, hg, hres⟩ := h w hw
  rcases hres with hf | ⟨c, hc, hres⟩
  · exact ⟨0, g, hg, Or.inl hf⟩
  by_cases hf : g = .bfalse ∨ g = .bundef
  · exact ⟨0, g, hg, Or.inl hf⟩
  cases c with
  | none => exact ⟨0, g, hg, Or.inr ⟨none, hc, fun _ hcur => nomatch hcur⟩⟩
  | some curried =>
    obtain ⟨t, ht, -⟩ := hres curried rfl
    have hlaw := makeEvent_lawful (K := K) (N := N) s g curried t
      ⟨substSubexprBool_normal hn.1 hm hg, curryAssigns_normal hm hn.2 hc⟩ ht
    obtain ⟨n, x, hx⟩ := (hp hlaw).ends hd ⟨w, hw⟩ fun v hv => by
      obtain ⟨n, d', hd', hv', g', hg', hres'⟩ := h v hv
      rw [hg] at hg'
      cases hg'
      rcases hres' with hf' | ⟨c', hc', hres'⟩
      · exact absurd hf' hf
      · obtain ⟨t', ht', x, hx⟩ := hres' curried (Except.ok.inj (hc'.symm.trans hc))
        rw [ht] at ht'
        cases ht'
        exact ⟨d', hd', hv', n, x, hx⟩
    refine ⟨n, g, hg, Or.inr ⟨some curried, hc, ?_⟩⟩
    intro c' hc'
    cases hc'
    exact ⟨t, ht, x, hx⟩

include hle hp in
/-- All the classes of a split are gone through. -/
theorem applyClasses_ends {h t : Shape} {guard : BExpr} {as : List Assign} {e : IExpr}
    {d : Code (.pair h t)} {cs : List (IExpr × Arc (Code h) (Code t))}
    {Has : Word h × Word t → IExpr → Prop} (hn : CaseNormal guard as)
    (hunique : ∀ w m m', Has w m → Has w m' → m = m')
    (hcs : RectClasses (den h) (den t) (Canon N h) (Canon N t) Has d cs)
    (hne : ∀ c ∈ cs, c.2.prime ≠ (algebra N h).none ∧ c.2.sub ≠ (algebra N t).none)
    (haround : ∀ w : Word h × Word t, w ∈ nodeDen (den h) (den t) d →
      ∃ n, ∃ d' cs', RectClasses (den h) (den t) (Canon N h) (Canon N t) Has d' cs' ∧
        w ∈ nodeDen (den h) (den t) d' ∧ ∃ r, applyClasses N R (M n) h t guard as e cs'
          (algebra N (.pair h t)).none = .ok r) :
    ∃ n r, applyClasses N R (M n) h t guard as e cs (algebra N (.pair h t)).none = .ok r := by
  have hall : ∀ c ∈ cs, ∃ n, ClassReturns R (M n) (.pair h t) guard as e c.1
      (rectangle (algebra N h) (algebra N t) c.2.prime c.2.sub) := by
    intro c hc
    obtain ⟨hpc, hsc⟩ := hcs.canon c hc
    obtain ⟨hrc, hrd⟩ := rectangle_correct (laws N h) (laws N t) hpc hsc
    have hmem : ∀ w : Word h × Word t,
        w ∈ den (.pair h t) (rectangle (algebra N h) (algebra N t) c.2.prime c.2.sub) ↔
          w.1 ∈ den h c.2.prime ∧ w.2 ∈ den t c.2.sub := fun w => Set.ext_iff.mp hrd w
    refine classReturns_ends hp hn (hcs.marker c hc).1 hrc ?_ fun w hw => ?_
    · obtain ⟨v, hv⟩ := (laws N h).nonempty_of_ne_none hpc (hne c hc).1
      obtain ⟨u, hu⟩ := (laws N t).nonempty_of_ne_none hsc (hne c hc).2
      exact ⟨(v, u), (hmem (v, u)).mpr ⟨hv, hu⟩⟩
    · obtain ⟨hw1, hw2⟩ := (hmem w).mp hw
      obtain ⟨n, d', cs', hcs', hwd, hr⟩ := haround w ((hcs.cover w).mpr ⟨c, hc, hw1, hw2⟩)
      obtain ⟨c', hc', hw1', hw2'⟩ := (hcs'.cover w).mp hwd
      obtain heq := hunique w _ _ (hcs'.has c' hc' w hw1' hw2') (hcs.has c hc w hw1 hw2)
      obtain ⟨hpc', hsc'⟩ := hcs'.canon c' hc'
      obtain ⟨hrc', hrd'⟩ := rectangle_correct (laws N h) (laws N t) hpc' hsc'
      have hret := applyClasses_returns.mp hr c' hc'
      rw [heq] at hret
      exact ⟨n, _, hrc', (Set.ext_iff.mp hrd' w).mpr ⟨hw1', hw2'⟩, hret⟩
  obtain ⟨n, hall⟩ := exists_bound (P := fun n (c : IExpr × Arc (Code h) (Code t)) =>
    ClassReturns R (M n) (.pair h t) guard as e c.1
      (rectangle (algebra N h) (algebra N t) c.2.prime c.2.sub))
    (fun hk hc => classReturns_mono hle hk hc) hall
  exact ⟨n, applyClasses_returns.mpr hall⟩

omit hM hle hid hp in
/-- The chosen expression names no cell. -/
theorem chooseAssert_arrayFree (lo hi r : Nat) {guard : BExpr} {as : List Assign}
    (hn : CaseNormal guard as) : ArrayFree (chooseAssert lo hi r guard as) := by
  rcases (chooseAssert_spec lo hi r hn).2 with ha | hv
  · rw [assertable, Bool.and_eq_true, Bool.and_eq_true, List.isEmpty_iff] at ha
    refine arrayFree_iff.mpr fun p hp => ?_
    have hp' : p ∈ arrayPositions (chooseAssert lo hi r guard as) := by
      simpa [arrayPositions, sortPositions] using hp
    rw [ha.1.1] at hp'
    exact List.not_mem_nil hp'
  · rw [hv]
    rfl

omit hM hle hid hp in
/-- The ground writes meet the same applications as a node term. -/
theorem applyGround_returns (m : (s : Shape) → TermAlgebra (Code s) (Term s)) {h t : Shape}
    {th : Term h} {tt : Term t} : ∀ {d : List (Arc (Code h) (Code t))},
    (∃ r, applyGround N m h t th tt d = .ok r) ↔
      ∃ r, imageArcs (algebra N h) (m h) (m t) th tt d = .ok r := by
  intro d
  induction d with
  | nil => exact ⟨fun _ => ⟨[], rfl⟩, fun _ => ⟨[], rfl⟩⟩
  | cons a as ih =>
    constructor
    · rintro ⟨r, hr⟩
      obtain ⟨p, hp, hr⟩ := bind_eq_ok.mp hr
      split at hr
      · next hn =>
        obtain ⟨bag, hbag⟩ := ih.mp ⟨r, hr⟩
        exact ⟨bag, bind_of_ok hp ((if_pos hn).trans hbag)⟩
      · next hn =>
        obtain ⟨q, hq, hr⟩ := bind_eq_ok.mp hr
        have hrest : ∃ r, applyGround N m h t th tt as = .ok r := by
          split at hr
          · exact ⟨r, hr⟩
          · obtain ⟨r', hr', -⟩ := bind_eq_ok.mp hr
            exact ⟨r', hr'⟩
        obtain ⟨bag, hbag⟩ := ih.mp hrest
        exact ⟨_, bind_of_ok hp ((if_neg hn).trans (bind_eq_ok.mpr ⟨q, hq, bind_of_ok hbag rfl⟩))⟩
    · rintro ⟨r, hr⟩
      obtain ⟨p, hp, hr⟩ := bind_eq_ok.mp hr
      split at hr
      · next hn =>
        obtain ⟨bag, hbag⟩ := ih.mpr ⟨r, hr⟩
        exact ⟨bag, bind_of_ok hp ((if_pos hn).trans hbag)⟩
      · next hn =>
        obtain ⟨q, hq, hr⟩ := bind_eq_ok.mp hr
        obtain ⟨r', hr', -⟩ := bind_eq_ok.mp hr
        obtain ⟨bag, hbag⟩ := ih.mpr ⟨r', hr'⟩
        by_cases hz : q = (algebra N t).none
        · exact ⟨_, bind_of_ok hp ((if_neg hn).trans (bind_eq_ok.mpr
            ⟨q, hq, (if_pos hz).trans hbag⟩))⟩
        · exact ⟨_, bind_of_ok hp ((if_neg hn).trans (bind_eq_ok.mpr
            ⟨q, hq, (if_neg hz).trans (bind_of_ok hbag rfl)⟩))⟩

include hle hp

theorem curryHead_ends {h t : Shape} {guard : BExpr} {as : List Assign} {r : Nat}
    (hn : CaseNormal guard as) {d : Code (.pair h t)} (hd : Canon N (.pair h t) d)
    (hall : EndsAround (den (.pair h t)) (Canon N (.pair h t))
      (fun n => curryHead N R (M n) h t guard as r) d) :
    Ends (fun n => curryHead N R (M n) h t guard as r) d := by
  have he := (chooseAssert_spec 0 h.width r hn).1
  have hfree := chooseAssert_arrayFree 0 h.width r hn
  have hclasses : ∀ {c : Code (.pair h t)} {cs}, Canon N (.pair h t) c →
      headRects (splitEquiv N R h) (chooseAssert 0 h.width r guard as) c = .ok cs →
      RectClasses (den h) (den t) (Canon N h) (Canon N t)
        (fun w => Marks R h (chooseAssert 0 h.width r guard as) w.1) c cs := fun hc hcs =>
    headRects_classes (fun _ _ hm => hm) (fun q cs hq => splitEquiv_classes h q _ cs he hq)
      (NodeCanon.canon hc) hcs
  obtain ⟨cs, hcs⟩ : ∃ cs, headRects (splitEquiv N R h) (chooseAssert 0 h.width r guard as) d =
      .ok cs := by
    refine headRects_returns.mpr fun a ha => ?_
    obtain ⟨hpc, hsc⟩ := NodeCanon.canon hd a ha
    obtain ⟨u, hu⟩ := (laws N t).nonempty_of_ne_none hsc (NodeCanon.sub_ne hd a ha)
    refine (splitEquiv_returns he hfree hpc).mpr fun v hv => ?_
    obtain ⟨c', hc', hw', n, x, hx⟩ :=
      hall (v, u) ((mem_nodeDen (den h) (den t)).mpr ⟨a, ha, hv, hu⟩)
    obtain ⟨cs', hcs', -⟩ := bind_eq_ok.mp hx
    have hcl := hclasses hc' hcs'
    obtain ⟨k, hk, hk1, hk2⟩ := (hcl.cover (v, u)).mp hw'
    exact ⟨k.1, hcl.has k hk (v, u) hk1 hk2⟩
  obtain ⟨n, x, hx⟩ := applyClasses_ends hle hp hn (fun w m m' => Marks.unique h _ w.1 m m')
    (hclasses hd hcs) (headRects_ne (fun a ha cs hs => splitEquiv_distinct h a.prime _ cs he
      (NodeCanon.canon hd a ha).1 hs) (NodeCanon.sub_ne hd) hcs) fun w hw => by
      obtain ⟨c', hc', hw', n, x, hx⟩ := hall w hw
      obtain ⟨cs', hcs', hx⟩ := bind_eq_ok.mp hx
      exact ⟨n, c', cs', hclasses hc' hcs', hw', x, hx⟩
  exact ⟨n, x, bind_of_ok hcs hx⟩

theorem curryTail_ends {h t : Shape} {guard : BExpr} {as : List Assign} {r : Nat}
    (hn : CaseNormal guard as) {d : Code (.pair h t)} (hd : Canon N (.pair h t) d)
    (hne : (den (.pair h t) d).Nonempty)
    (hall : EndsAround (den (.pair h t)) (Canon N (.pair h t))
      (fun n => curryTail N R (M n) h t guard as r) d) :
    Ends (fun n => curryTail N R (M n) h t guard as r) d := by
  -- the expression is re-rooted once, for every diagram
  obtain ⟨e', hshift⟩ : ∃ e', shiftPositions R
      (chooseAssert h.width (h.width + t.width) r guard as) (-h.width) = .ok e' := by
    obtain ⟨w, hw⟩ := hne
    obtain ⟨c', -, -, n, x, hx⟩ := hall w hw
    obtain ⟨e', he', -⟩ := bind_eq_ok.mp hx
    exact ⟨e', he'⟩
  have he := shiftPositions_normal (chooseAssert_spec h.width (h.width + t.width) r hn).1 hshift
  have hfree := shiftPositions_arrayFree
    (chooseAssert_arrayFree h.width (h.width + t.width) r hn) hshift
  have hrun : ∀ {n : Nat} {c x : Code (.pair h t)}, curryTail N R (M n) h t guard as r c = .ok x →
      ∃ cs, tailRects (splitEquiv N R t) e' c = .ok cs ∧ applyClasses N R (M n) h t guard as
        (chooseAssert h.width (h.width + t.width) r guard as) cs
        (algebra N (.pair h t)).none = .ok x := by
    intro n c x hx
    obtain ⟨e₁, he₁, hx⟩ := bind_eq_ok.mp hx
    rw [hshift] at he₁
    cases he₁
    exact bind_eq_ok.mp hx
  have hclasses : ∀ {c : Code (.pair h t)} {cs}, Canon N (.pair h t) c →
      tailRects (splitEquiv N R t) e' c = .ok cs →
      RectClasses (den h) (den t) (Canon N h) (Canon N t) (fun w => Marks R t e' w.2) c cs :=
    fun hc hcs => tailRects_classes (fun _ _ hm => hm)
      (fun q cs hq => splitEquiv_classes t q _ cs he hq) (NodeCanon.canon hc) hcs
  obtain ⟨cs, hcs⟩ : ∃ cs, tailRects (splitEquiv N R t) e' d = .ok cs := by
    refine tailRects_returns.mpr fun a ha => ?_
    obtain ⟨hpc, hsc⟩ := NodeCanon.canon hd a ha
    obtain ⟨v, hv⟩ := (laws N h).nonempty_of_ne_none hpc (NodeCanon.prime_ne hd a ha)
    refine (splitEquiv_returns he hfree hsc).mpr fun u hu => ?_
    obtain ⟨c', hc', hw', n, x, hx⟩ :=
      hall (v, u) ((mem_nodeDen (den h) (den t)).mpr ⟨a, ha, hv, hu⟩)
    obtain ⟨cs', hcs', -⟩ := hrun hx
    have hcl := hclasses hc' hcs'
    obtain ⟨k, hk, hk1, hk2⟩ := (hcl.cover (v, u)).mp hw'
    exact ⟨k.1, hcl.has k hk (v, u) hk1 hk2⟩
  obtain ⟨n, x, hx⟩ := applyClasses_ends hle hp hn (fun w m m' => Marks.unique t _ w.2 m m')
    (hclasses hd hcs) (tailRects_ne (fun a ha cs hs => splitEquiv_distinct t a.sub _ cs he
      (NodeCanon.canon hd a ha).2 hs) (NodeCanon.prime_ne hd) hcs) fun w hw => by
      obtain ⟨c', hc', hw', n, x, hx⟩ := hall w hw
      obtain ⟨cs', hcs', hx⟩ := hrun hx
      exact ⟨n, c', cs', hclasses hc' hcs', hw', x, hx⟩
  exact ⟨n, x, bind_of_ok hshift (bind_of_ok hcs hx)⟩

include hM hid

theorem writeGround_ends {h t : Shape} {as : List Assign}
    (hn : ∀ a ∈ as, a.lhs.Normal ∧ a.rhs.Normal) {d : Code (.pair h t)}
    (hd : Canon N (.pair h t) d) (hne : (den (.pair h t) d).Nonempty)
    (hall : EndsAround (den (.pair h t)) (Canon N (.pair h t))
      (fun n => writeGround N R (M n) h t as) d) :
    Ends (fun n => writeGround N R (M n) h t as) d := by
  -- the two sides' events do not depend on the diagram
  obtain ⟨ws, th, tt, hws, hth, htt⟩ : ∃ ws th tt, splitWrites h.width as = .ok ws ∧
      makeEvent R h .btrue ws.1 = .ok th ∧ makeEvent R t .btrue ws.2 = .ok tt := by
    obtain ⟨w, hw⟩ := hne
    obtain ⟨c', -, -, n, x, hx⟩ := hall w hw
    obtain ⟨ws, hws, hx⟩ := bind_eq_ok.mp hx
    obtain ⟨th, hth, hx⟩ := bind_eq_ok.mp hx
    obtain ⟨tt, htt, -⟩ := bind_eq_ok.mp hx
    exact ⟨ws, th, tt, hws, hth, htt⟩
  obtain ⟨hw1, hw2⟩ := splitWrites_normal hn hws
  have hlh := makeEvent_lawful (K := K) (N := N) h .btrue _ th ⟨trivial, hw1⟩ hth
  have hlt := makeEvent_lawful (K := K) (N := N) t .btrue _ tt ⟨trivial, hw2⟩ htt
  have hnode := applyNode_pointwise (laws N h) (laws N t) (fun n => hM n h) (fun n => hM n t)
    (fun hk => hle hk h) (fun hk => hle hk t) (fun n => hid n h) hlh.wf hlt.wf hlh.additive
    hlt.additive (hp hlh) (hp hlt)
  -- a diagram on which the writes return is one on which the node term does
  have hiff : ∀ {n : Nat} {c : Code (.pair h t)}, Canon N (.pair h t) c →
      ((∃ x, writeGround N R (M n) h t as c = .ok x) ↔
        ∃ x, applyNode (algebra N h) (algebra N t) (M n h) (M n t) th tt c = .ok x) := by
    intro n c hc
    have hbags := (applyGround_returns (M n)).trans
      ((imageArcs_returns (laws N h) (hM n h) hlh.wf (NodeCanon.canon hc)).trans
        (applyNode_returns (laws N h) (laws N t) (hM n h) (hM n t) (hid n h) hlh.wf hlt.wf hc).symm)
    refine Iff.trans ?_ hbags
    constructor
    · rintro ⟨x, hx⟩
      obtain ⟨ws', hws', hx⟩ := bind_eq_ok.mp hx
      rw [hws] at hws'
      cases hws'
      obtain ⟨th', hth', hx⟩ := bind_eq_ok.mp hx
      rw [hth] at hth'
      cases hth'
      obtain ⟨tt', htt', hx⟩ := bind_eq_ok.mp hx
      rw [htt] at htt'
      cases htt'
      obtain ⟨bag, hbag, -⟩ := bind_eq_ok.mp hx
      exact ⟨bag, hbag⟩
    · rintro ⟨bag, hbag⟩
      exact ⟨_, bind_of_ok hws (bind_of_ok hth (bind_eq_ok.mpr ⟨tt, htt, bind_of_ok hbag rfl⟩))⟩
  obtain ⟨n, hx⟩ := hnode.ends hd hne fun w hw => by
    obtain ⟨c', hc', hw', n, hx⟩ := hall w hw
    exact ⟨c', hc', hw', n, (hiff hc').mp hx⟩
  exact ⟨n, (hiff hd).mpr hx⟩

/-- A bracket returns pointwise when the events of lower depth do. -/
theorem caseApply_pointwise (s : Shape) {guard : BExpr} {as : List Assign}
    (hn : CaseNormal guard as) :
    Pointwise (den s) (Canon N s) (fun n => caseApply N R (M n) s guard as)
      (bracketRel R K s guard as) where
  mono := fun hk h => caseApply_le (hle hk) h
  canon := fun hc h => (caseApply_spec (hM _) s guard as _ _ hn hc h).1
  image := fun hc h => (caseApply_spec (hM _) s guard as _ _ hn hc h).2
  ends := by
    intro d hd hne hall
    cases s with
    | unit =>
      obtain ⟨w, hw⟩ := hne
      obtain ⟨_, -, -, _, _, hx⟩ := hall w hw
      cases hx
    | leaf =>
      obtain ⟨w, hw⟩ := hne
      obtain ⟨_, -, -, _, _, hx⟩ := hall w hw
      cases hx
    | pair h t =>
      cases hmin : (reads guard as).min? with
      | none =>
        have heq : ∀ n, caseApply N R (M n) (.pair h t) guard as =
            writeGround N R (M n) h t as := by
          intro n
          funext c
          simp only [caseApply, hmin]
        simp only [heq] at hall ⊢
        exact writeGround_ends hM hle hid hp hn.2 hd hne hall
      | some r =>
        by_cases hlt : r < h.width
        · have heq : ∀ n, caseApply N R (M n) (.pair h t) guard as =
              curryHead N R (M n) h t guard as r := by
            intro n
            funext c
            simp only [caseApply, hmin, if_pos hlt]
          simp only [heq] at hall ⊢
          exact curryHead_ends hle hp hn hd hall
        · have heq : ∀ n, caseApply N R (M n) (.pair h t) guard as =
              curryTail N R (M n) h t guard as r := by
            intro n
            funext c
            simp only [caseApply, hmin, if_neg hlt]
          simp only [heq] at hall ⊢
          exact curryTail_ends hle hp hn hd hne hall

end Ends

/-! ## The brackets of a run -/

/-- The brackets of a run return pointwise, by induction on the depth of residuals. -/
theorem caseEngine_pointwise (N : Numbering) (R : ExprIds) (depth : Nat) :
    ∀ {s : Shape} {guard : BExpr} {as : List Assign}, CaseNormal guard as →
      Pointwise (den s) (Canon N s) (fun n => caseEngine N R n depth s guard as)
        (engineRel R depth s guard as) := by
  induction depth with
  | zero =>
    intro s guard as _
    refine ⟨fun _ h => (nomatch h), fun _ h => (nomatch h), fun _ h => (nomatch h), ?_⟩
    rintro c _ ⟨w, hw⟩ hall
    obtain ⟨_, -, -, _, _, hx⟩ := hall w hw
    cases hx
  | succ k ih =>
    intro s guard as hn
    refine caseApply_pointwise (K := engineRel R k)
      (M := fun n => termAlgebra N (caseEngine N R n k) n)
      (fun n s => termLaws (caseEngine_laws N R n k) n s)
      (fun hk s => termAlgebra_le (fun h => caseEngine_le hk k h) hk s)
      (fun n s => termAlgebra_isId N (caseEngine N R n k) n s) (fun {s t} ht => ?_) s hn
    exact termAlgebra_pointwise (fun n => caseEngine N R n k)
      (fun n => caseEngine_laws N R n k) (fun hk h => caseEngine_le hk k h) ih s t ht.wf
      ht.additive

namespace Manager

/-- Every additive term of a run returns pointwise. -/
theorem apply_pointwise (m : Manager) {s : Shape} {t : Term s} (hw : m.WF s t)
    (ha : Term.Additive m.brackets s t) :
    Pointwise (den s) (m.Canon s) (fun n => (m.withFuel n).apply s t) (m.rel s t) :=
  termAlgebra_pointwise (fun n => caseEngine m.numbering m.exprs n m.depth)
    (fun n => caseEngine_laws m.numbering m.exprs n m.depth)
    (fun hk h => caseEngine_le hk m.depth h)
    (fun hn => caseEngine_pointwise m.numbering m.exprs m.depth hn) s t hw ha

end Manager

end LibHSC
