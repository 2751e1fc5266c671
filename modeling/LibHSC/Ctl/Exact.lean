import LibHSC.Ctl.Hull

/-!
The checker on a model of a finite graph, as its header asks for: the events are the
steps of the graph, the converses exact on the reachable set, the deadlocks all known.
What it computes for a formula is then the set of the reachable states that satisfy it,
and a question is answered yes exactly when one of its leaves is inhabited.
-/

namespace LibHSC.Ctl

open Lia (ConnOp Truth)
open Paths

/-! ## Two truth values -/

section Complement

variable {σ : Type} {step : σ → σ → Prop} {R P Q P' Q' : σ → Prop} {s : σ}

/-- On a closed set where being false is not being true, an operator is false exactly
where it is not true. -/
theorem UnaryOp.fails_compl (hR : ∀ x, R x → ∀ y, step x y → R y) (hs : R s)
    (hP : ∀ x, R x → (P' x ↔ ¬ P x)) (o : UnaryOp) :
    o.Fails step P' s ↔ ¬ o.Holds step P s := by
  have hall : ∀ {A B : (Nat → Option σ) → Prop}, (∀ π, Globally R π → (A π ↔ ¬ B π)) →
      ((∀ π, MaxPath step s π → A π) ↔ ¬ ∃ π, MaxPath step s π ∧ B π) := by
    intro A B hAB
    simp only [not_exists, not_and]
    exact forall₂_congr fun π hπ => hAB π (hπ.within hR hs)
  have hex : ∀ {A B : (Nat → Option σ) → Prop}, (∀ π, Globally R π → (A π ↔ ¬ B π)) →
      ((∃ π, MaxPath step s π ∧ A π) ↔ ¬ ∀ π, MaxPath step s π → B π) := by
    intro A B hAB
    simp only [not_forall, exists_prop]
    exact exists_congr fun π => and_congr_right fun hπ => hAB π (hπ.within hR hs)
  have hP' : ∀ x, R x → (P x ↔ ¬ P' x) := fun x hx => by rw [hP x hx, not_not]
  cases o with
  | ex => exact hall fun π hπ => Paths.not_at_iff hπ hP
  | ax => exact hex fun π hπ => by rw [Paths.not_at_iff hπ hP', not_not]
  | ef => exact hall fun π hπ => globally_compl hπ hP
  | af => exact hex fun π hπ => globally_compl hπ hP
  | eg => exact hall fun π hπ => exists_at_compl hπ hP
  | ag => exact hex fun π hπ => exists_at_compl hπ hP

theorem BinaryOp.fails_compl (hR : ∀ x, R x → ∀ y, step x y → R y) (hs : R s)
    (hP : ∀ x, R x → (P' x ↔ ¬ P x)) (hQ : ∀ x, R x → (Q' x ↔ ¬ Q x)) (o : BinaryOp) :
    o.Fails step P' Q' s ↔ ¬ o.Holds step P Q s := by
  have huntil : ∀ π, MaxPath step s π → (NotUntil P' Q' π ↔ ¬ Until P Q π) := fun π hπ =>
    notUntil_compl hπ (hπ.within hR hs) hP hQ
  have hweak : ∀ π, MaxPath step s π →
      ((NotUntil P' Q' π ∧ ∃ n, At π n P') ↔ ¬ (Until P Q π ∨ Globally P π)) := by
    intro π hπ
    rw [huntil π hπ, exists_at_compl (hπ.within hR hs) hP, not_or]
  cases o with
  | eu =>
    simp only [BinaryOp.Fails, BinaryOp.Holds, not_exists, not_and]
    exact forall₂_congr huntil
  | au =>
    simp only [BinaryOp.Fails, BinaryOp.Holds, not_forall, exists_prop]
    exact exists_congr fun π => and_congr_right (huntil π)
  | ew =>
    simp only [BinaryOp.Fails, BinaryOp.Holds, not_exists, not_and]
    exact forall₂_congr fun π hπ => by rw [hweak π hπ, not_or]
  | aw =>
    simp only [BinaryOp.Fails, BinaryOp.Holds, not_forall, exists_prop]
    exact exists_congr fun π => and_congr_right (hweak π)

variable {atom : Nat → σ → Truth}

mutual

/-- Where the atoms are defined, a formula that is not true is false. -/
theorem sat_two (hR : ∀ x, R x → ∀ y, step x y → R y)
    (hatom : ∀ a x, R x → atom a x ≠ .undef) : (f : Formula) → ∀ x, R x →
    (f.Sat step atom false x ↔ ¬ f.Sat step atom true x)
  | .atom a, x, hx => by
    have hdef := hatom a x hx
    rw [Formula.Sat, Formula.Sat]
    cases ha : atom a x with
    | undef => exact absurd ha hdef
    | yes => simp [Truth.ofBool]
    | no => simp [Truth.ofBool]
  | .tru, _, _ => by simp [Formula.Sat]
  | .fls, _, _ => by simp [Formula.Sat]
  | .not f, x, hx => by
    rw [Formula.Sat, Formula.Sat, Bool.not_false, Bool.not_true, sat_two hR hatom f x hx, not_not]
  | .nary k fs, x, hx => by
    have hfs := satList_two hR hatom fs x hx
    cases k with
    | conj =>
      simp only [sat_nary, ConnSat, not_forall, exists_prop]
      exact exists_congr fun f => and_congr_right (hfs f)
    | disj =>
      simp only [sat_nary, ConnSat, not_exists, not_and]
      exact forall₂_congr hfs
  | .unary o f, x, hx =>
    o.fails_compl hR hx fun y hy => sat_two hR hatom f y hy
  | .binary o f g, x, hx =>
    o.fails_compl hR hx (fun y hy => sat_two hR hatom f y hy) fun y hy => sat_two hR hatom g y hy

theorem satList_two (hR : ∀ x, R x → ∀ y, step x y → R y)
    (hatom : ∀ a x, R x → atom a x ≠ .undef) : (fs : List Formula) → ∀ x, R x →
    ∀ f ∈ fs, (f.Sat step atom false x ↔ ¬ f.Sat step atom true x)
  | [], _, _ => nofun
  | f :: fs, x, hx => List.forall_mem_cons.mpr
      ⟨sat_two hR hatom f x hx, satList_two hR hatom fs x hx⟩

end

end Complement

/-! ## Operators -/

/-- The model is of the graph of `step`: the reachable set holds the initial states and is
closed, the events are the steps and the converses those within the set, when there are
some, the deadlocks are known and the atoms defined. -/
structure Model.Exact {σ : Type} [DecidableEq σ] (M : Model σ) (step : σ → σ → Prop) : Prop where
  init : M.init ⊆ M.reach
  closed : ∀ x ∈ M.reach, ∀ y, step x y → y ∈ M.reach
  next : ∀ x ∈ M.reach, ∀ y, y ∈ successors M.next x ↔ step x y
  pred : M.pred ≠ [] → ∀ y ∈ M.reach, ∀ x, x ∈ successors M.pred y ↔ x ∈ M.reach ∧ step x y
  rawPred : M.rawPred ≠ [] → ∀ y ∈ M.reach, ∀ x ∈ M.reach, (x ∈ successors M.rawPred y ↔ step x y)
  dead : ∀ x, x ∈ M.dead ↔ x ∈ M.reach ∧ Stuck step x
  atom : ∀ a, ∀ x ∈ M.reach, M.atom a x ≠ .undef

namespace Model

variable {σ : Type} [DecidableEq σ] {M : Model σ} {step : σ → σ → Prop} {ids : Formula → Nat}
  {rounds depth : Nat} {S : Formula → Except Halt (Finset σ)} {f g q : Formula}
  {start res : Finset σ}

theorem Exact.holds_not (hM : M.Exact step) {x : σ} (hx : x ∈ M.reach) (f : Formula) :
    f.Sat step M.atom false x ↔ ¬ M.Holds step f x :=
  sat_two (R := (· ∈ M.reach)) hM.closed hM.atom f x hx

/-- A universal operator is the complement of its existential dual. -/
theorem Exact.holds_negate (hM : M.Exact step) {x : σ} (hx : x ∈ M.reach) (f : Formula) :
    M.Holds step (negate ids f) x ↔ ¬ M.Holds step f x :=
  (negate_sat ids f true x).trans (hM.holds_not hx f)

theorem Exact.mem_next (hM : M.Exact step) {X : Finset σ} (hX : X ⊆ M.reach) {y : σ} :
    y ∈ image M.next X ↔ ∃ x ∈ X, step x y := by
  rw [mem_image]
  exact exists_congr fun x => and_congr_right fun hx => hM.next x (hX hx) y

theorem Exact.mem_pred (hM : M.Exact step) (hpred : M.pred ≠ []) {X : Finset σ}
    (hX : X ⊆ M.reach) {y : σ} : y ∈ image M.pred X ↔ y ∈ M.reach ∧ ∃ x ∈ X, step y x := by
  rw [mem_image]
  constructor
  · rintro ⟨x, hx, hy⟩
    obtain ⟨hyR, hst⟩ := (hM.pred hpred x (hX hx) y).mp hy
    exact ⟨hyR, x, hx, hst⟩
  · rintro ⟨hyR, x, hx, hst⟩
    exact ⟨x, hx, (hM.pred hpred x (hX hx) y).mpr ⟨hyR, hst⟩⟩

theorem Exact.inside (hM : M.Exact step) : M.Inside where
  init := hM.init
  next := by
    intro y hy
    obtain ⟨x, hx, hst⟩ := (hM.mem_next subset_rfl).mp hy
    exact hM.closed x hx y hst

variable (M step S) in
/-- The evaluation of `f`, when it is not refused, is the reachable states that satisfy
`f`. -/
def ExactAt (f : Formula) : Prop := ∀ s, S f = .ok s → ∀ x, x ∈ s ↔ x ∈ M.reach ∧ M.Holds step f x

omit [DecidableEq σ] in
/-- On reachable states the constraint of a closure is its formula. -/
theorem Constraint.exact {C : Finset σ → Finset σ} (hC : M.Constraint step S q C)
    (hS : M.ExactAt step S q) {X : Finset σ} (hX : X ⊆ M.reach) {x : σ} :
    x ∈ C X ↔ x ∈ X ∧ M.Holds step q x := by
  obtain ⟨c, hmem, hc⟩ := hC
  rw [hmem]
  refine and_congr_right fun hx => ?_
  rcases hc with ⟨-, hiff⟩ | ⟨s, hs, hiff⟩
  · exact hiff x
  · rw [hiff, hS s hs x]
    exact and_iff_right (hX hx)

/-- Backward: the closure is the states with a chain through `q` to the start. -/
theorem Exact.lfp_backward (hM : M.Exact step) (hpred : M.pred ≠ []) (hS : M.ExactAt step S q)
    (hstart : start ⊆ M.reach) (h : M.constrainedLfp rounds S true start q false = .ok res)
    {x : σ} : x ∈ res ↔ x ∈ M.reach ∧ Chain step (M.Holds step q) (· ∈ start) x := by
  rcases constrainedLfp_cases step h with ⟨rfl, htriv⟩ | ⟨C, hC, hl⟩
  · refine ⟨fun hx => ⟨hstart hx, .goal hx⟩, fun ⟨_, hc⟩ => ?_⟩
    cases hc with
    | goal hx => exact hx
    | cons hq hst hc =>
      rcases htriv with rfl | hev | rfl
      · obtain ⟨y, -, hy⟩ := chain_iff.mp hc
        exact absurd hy (Finset.notMem_empty y)
      · exact absurd hev hpred
      · exact absurd hq (not_holds_fls x)
  · have himage : ∀ X ⊆ M.reach, image M.pred X ⊆ M.reach := fun X hX y hy =>
      ((hM.mem_pred hpred hX).mp hy).1
    constructor
    · refine lfpLoop_induct (P := fun x => x ∈ M.reach ∧
        Chain step (M.Holds step q) (· ∈ start) x) (fun X hX y hy => ?_) hl
        (fun a ha => ⟨hstart ha, .goal ha⟩) x
      have hXR : X ⊆ M.reach := fun a ha => (hX a ha).1
      obtain ⟨him, hq⟩ := (hC.exact hS (himage X hXR)).mp hy
      obtain ⟨hyR, z, hz, hst⟩ := (hM.mem_pred hpred hXR).mp him
      exact ⟨hyR, .cons hq hst (hX z hz).2⟩
    · rintro ⟨hxR, hc⟩
      obtain ⟨hsub, hclosed⟩ := lfpLoop_closed hl
      have hres : res ⊆ M.reach := lfpLoop_inside (fun X hX y hy => himage X hX
        ((hC.exact hS (himage X hX)).mp hy).1) hl hstart
      induction hc with
      | goal hx => exact hsub hx
      | cons hq hst _ ih =>
        refine hclosed ((hC.exact hS (himage res hres)).mpr ⟨?_, hq⟩)
        exact (hM.mem_pred hpred hres).mpr ⟨hxR, _, ih (hM.closed _ hxR _ hst), hst⟩

/-- Forward: the closure is the states that a chain through `q` reaches from the start. -/
theorem Exact.lfp_forward (hM : M.Exact step) (hS : M.ExactAt step S q)
    (hstart : start ⊆ M.reach) (h : M.constrainedLfp rounds S false start q true = .ok res)
    {y : σ} : y ∈ res ↔ ∃ x ∈ start, Chain step (M.Holds step q) (· = y) x := by
  have hsub := (constrainedLfp_inside hM.inside h hstart)
  rcases constrainedLfp_cases step h with ⟨rfl, htriv⟩ | ⟨C, hC, hl⟩
  · refine ⟨fun hy => ⟨y, hy, .goal rfl⟩, fun ⟨x, hx, hc⟩ => ?_⟩
    cases hc with
    | goal hxy => exact hxy ▸ hx
    | @cons _ z hq hst _ =>
      rcases htriv with rfl | hev | rfl
      · exact absurd hx (Finset.notMem_empty x)
      · obtain ⟨e, he, -⟩ := mem_successors.mp ((hM.next x (hstart hx) z).mpr hst)
        rw [show M.next = [] from hev] at he
        cases he
      · exact absurd hq (not_holds_fls x)
  · constructor
    · refine lfpLoop_induct (P := fun y => y ∈ M.reach ∧ ∃ x ∈ start,
        Chain step (M.Holds step q) (· = y) x) (fun X hX y hy => ?_) hl
        (fun a ha => ⟨hstart ha, a, ha, .goal rfl⟩) y |> fun h hy => (h hy).2
      have hXR : X ⊆ M.reach := fun a ha => (hX a ha).1
      have hCX : C X ⊆ M.reach := (hC.subset X).trans hXR
      obtain ⟨z, hz, hst⟩ := (hM.mem_next hCX).mp hy
      obtain ⟨hzX, hq⟩ := (hC.exact hS hXR).mp hz
      obtain ⟨x, hx, hc⟩ := (hX z hzX).2
      refine ⟨hM.closed z (hXR hzX) y hst, x, hx, Chain.trans (hc.mono (fun _ h => h) ?_)⟩
      rintro w rfl
      exact .cons hq hst (.goal rfl)
    · rintro ⟨x, hx, hc⟩
      obtain ⟨hstartR, hclosed⟩ := lfpLoop_closed hl
      have hmem : ∀ x ∈ res, Chain step (M.Holds step q) (· = y) x → y ∈ res := by
        intro x hx hc
        induction hc with
        | goal hxy => exact hxy ▸ hx
        | cons hq hst _ ih =>
          refine ih (hclosed ?_)
          have hCr : C res ⊆ M.reach := (hC.subset res).trans hsub.2
          exact (hM.mem_next hCr).mpr ⟨_, (hC.exact hS hsub.2).mpr ⟨hx, hq⟩, hst⟩
      exact hmem x (hstartR hx) hc

theorem Exact.satEu (hM : M.Exact step) (hf : M.ExactAt step S f) (hg : M.ExactAt step S g)
    (h : M.satEu rounds S f g = .ok res) {x : σ} :
    x ∈ res ↔ x ∈ M.reach ∧ Chain step (M.Holds step f) (M.Holds step g) x := by
  obtain ⟨sg, hsg, h⟩ := bind_eq_ok.mp h
  split at h
  · cases h
  · next hpred =>
    have hpred : M.pred ≠ [] := fun hnil => hpred (List.isEmpty_iff.mpr hnil)
    rw [hM.lfp_backward hpred hf (fun y hy => ((hg sg hsg y).mp hy).1) h]
    refine and_congr_right fun hx => ⟨fun hc => ?_, fun hc => ?_⟩
    · exact hc.mono (fun _ h => h) fun y hy => ((hg sg hsg y).mp hy).2
    · exact (chain_within (R := (· ∈ M.reach)) hM.closed hc hx).mono (fun _ h => h)
        fun y hy => (hg sg hsg y).mpr hy

/-! ### Hulls -/

/-- Each state of the set has another of the set by the relation. -/
def Supported (E : σ → σ → Prop) (Z : Finset σ) : Prop := ∀ z ∈ Z, ∃ y ∈ Z, E z y

/-- A hull is the greatest subset that its events support. -/
theorem hull_spec {b : Bool} {x0 : Finset σ} {E : σ → σ → Prop}
    (hne : (M.hullEvents b).isEmpty = false) (hx0 : x0 ⊆ M.reach)
    (hE : ∀ X ⊆ M.reach, ∀ y ∈ M.reach, (y ∈ image (M.hullEvents b) X ↔ ∃ x ∈ X, E y x))
    (h : M.hull rounds b x0 = .ok res) :
    res ⊆ x0 ∧ Supported E res ∧ ∀ Z ⊆ x0, Supported E Z → Z ⊆ res := by
  unfold hull at h
  split at h
  · next htriv =>
    cases h
    rcases htriv with rfl | hev
    · exact ⟨subset_rfl, nofun, fun Z hZ _ => hZ⟩
    · rw [hne] at hev
      cases hev
  · obtain ⟨hsub, hself, hgreat⟩ := gfpLoop_spec image_mono h
    refine ⟨hsub, fun z hz => ?_, fun Z hZ hsup => hgreat Z hZ fun z hz => ?_⟩
    · exact (hE res (hsub.trans hx0) z (hx0 (hsub hz))).mp (hself hz)
    · exact (hE Z (hZ.trans hx0) z (hx0 (hZ hz))).mpr (hsup z hz)

theorem Exact.hull_backward (hM : M.Exact step) (hpred : M.pred ≠ []) {x0 : Finset σ}
    (hx0 : x0 ⊆ M.reach) (h : M.hull rounds true x0 = .ok res) :
    res ⊆ x0 ∧ Supported step res ∧ ∀ Z ⊆ x0, Supported step Z → Z ⊆ res := by
  have hev : M.hullEvents true = if M.rawPred.isEmpty then M.pred else M.rawPred := rfl
  by_cases hraw : M.rawPred = []
  · rw [hraw] at hev
    refine hull_spec ?_ hx0 (fun X hX y hy => ?_) h
    · rw [hev]
      exact Bool.eq_false_iff.mpr fun hemp => hpred (List.isEmpty_iff.mp hemp)
    · rw [hev]
      exact (hM.mem_pred hpred hX).trans (and_iff_right hy)
  · rw [if_neg fun hemp => hraw (List.isEmpty_iff.mp hemp)] at hev
    refine hull_spec ?_ hx0 (fun X hX y hy => ?_) h
    · rw [hev]
      exact Bool.eq_false_iff.mpr fun hemp => hraw (List.isEmpty_iff.mp hemp)
    · rw [hev, mem_image]
      exact exists_congr fun x => and_congr_right fun hx => hM.rawPred hraw x (hX hx) y hy

theorem Exact.hull_forward (hM : M.Exact step) (hnext : M.next.isEmpty = false)
    {x0 : Finset σ} (hx0 : x0 ⊆ M.reach) (h : M.hull rounds false x0 = .ok res) :
    res ⊆ x0 ∧ Supported (fun y x => step x y) res ∧
      ∀ Z ⊆ x0, Supported (fun y x => step x y) Z → Z ⊆ res := by
  have hev : M.hullEvents false = M.next := rfl
  refine hull_spec ?_ hx0 (fun X hX y _ => ?_) h
  · rw [hev]
    exact hnext
  · rw [hev]
    exact hM.mem_next hX

/-- A set that goes on for ever holds a cycle, which the forward hull finds. -/
theorem Exact.hull_ne_empty (hM : M.Exact step) (hnext : M.next.isEmpty = false)
    {x0 Z : Finset σ} (hx0 : x0 ⊆ M.reach) (h : M.hull rounds false x0 = .ok res) (hZ : Z ⊆ x0)
    (hne : Z.Nonempty) (hsup : Supported step Z) : res ≠ ∅ := by
  classical
  obtain ⟨Y, ⟨y, hy⟩, hYZ, hback⟩ := exists_backward_closed hne hsup
  have hmem : Z.filter Y ⊆ res := by
    refine (hM.hull_forward hnext hx0 h).2.2 _ ((Finset.filter_subset _ _).trans hZ) fun z hz => ?_
    obtain ⟨w, hst, hw⟩ := hback z (Finset.mem_filter.mp hz).2
    exact ⟨w, Finset.mem_filter.mpr ⟨hYZ w hw, hw⟩, hst⟩
  exact Finset.ne_empty_of_mem (hmem (Finset.mem_filter.mpr ⟨hYZ y hy, hy⟩))

theorem Exact.next_isEmpty (hM : M.Exact step) {x y : σ} (hx : x ∈ M.reach) (hst : step x y) :
    M.next.isEmpty = false := by
  obtain ⟨e, he, -⟩ := mem_successors.mp ((hM.next x hx y).mpr hst)
  exact Bool.eq_false_iff.mpr fun hemp => by
    rw [List.isEmpty_iff.mp hemp] at he
    cases he

theorem Exact.hasCycles (hM : M.Exact step) {c : Bool} (h : M.hasCycles rounds = .ok c)
    {Z : Finset σ} (hZ : Z ⊆ M.reach) (hne : Z.Nonempty) (hsup : Supported step Z) :
    c = true := by
  obtain ⟨z, hz⟩ := hne
  obtain ⟨y, -, hst⟩ := hsup z hz
  have hnext := hM.next_isEmpty (hZ hz) hst
  unfold Model.hasCycles hullNonempty at h
  rw [hnext, if_neg Bool.false_ne_true, if_neg (Finset.ne_empty_of_mem (hZ hz))] at h
  obtain ⟨X, hX, h⟩ := bind_eq_ok.mp h
  have hXne := hM.hull_ne_empty hnext subset_rfl hX hZ ⟨z, hz⟩ hsup
  rw [← Except.ok.inj h, decide_eq_true hXne]

/-- The states of a globally are those that reach a deadlock through `f` and those of a set
that `f` supports. -/
theorem Exact.holdsEg_iff (hM : M.Exact step) {sf : Finset σ}
    (hsf : ∀ x, x ∈ sf ↔ x ∈ M.reach ∧ M.Holds step f x) {x : σ} (hx : x ∈ M.reach) :
    M.HoldsEg step f x ↔ Chain step (M.Holds step f) (· ∈ M.dead ∩ sf) x ∨
      ∃ Z ⊆ sf, x ∈ Z ∧ Supported step Z := by
  classical
  constructor
  · intro heg
    rcases exists_globally_cases heg with hc | ⟨Z, hxZ, hf, hnext⟩
    · refine .inl ((chain_within (R := (· ∈ M.reach)) hM.closed hc hx).mono (fun _ h => h) ?_)
      rintro y ⟨hy, hfy, hstuck⟩
      exact Finset.mem_inter.mpr ⟨(hM.dead y).mpr ⟨hy, hstuck⟩, (hsf y).mpr ⟨hy, hfy⟩⟩
    · refine .inr ⟨sf.filter Z, Finset.filter_subset _ _,
        Finset.mem_filter.mpr ⟨(hsf x).mpr ⟨hx, hf x hxZ⟩, hxZ⟩, fun z hz => ?_⟩
      obtain ⟨hzs, hzZ⟩ := Finset.mem_filter.mp hz
      obtain ⟨w, hst, hw⟩ := hnext z hzZ
      have hwR := hM.closed z ((hsf z).mp hzs).1 w hst
      exact ⟨w, Finset.mem_filter.mpr ⟨(hsf w).mpr ⟨hwR, hf w hw⟩, hw⟩, hst⟩
  · rintro (hc | ⟨Z, hZ, hxZ, hsup⟩)
    · refine exists_globally_of_chain (hc.mono (fun _ h => h) fun y hy => ?_)
      obtain ⟨hd, hy⟩ := Finset.mem_inter.mp hy
      exact exists_globally_of_stuck ((hsf y).mp hy).2 ((hM.dead y).mp hd).2
    · exact holdsEg_of_support (fun y hy => ((hsf y).mp (hZ hy)).2) hsup x hxZ

theorem Exact.addHull (hM : M.Exact step) (hpred : M.pred ≠ []) {sf r : Finset σ}
    (hsf : sf ⊆ M.reach) (h : M.addHull rounds sf r = .ok res) {x : σ} :
    x ∈ res ↔ x ∈ r ∨ ∃ Z ⊆ sf, x ∈ Z ∧ Supported step Z := by
  -- where no hull is added there is none
  have hnone : (∀ Z ⊆ sf, Supported step Z → Z = ∅) →
      (x ∈ r ↔ x ∈ r ∨ ∃ Z ⊆ sf, x ∈ Z ∧ Supported step Z) := by
    refine fun hno => (or_iff_left ?_).symm
    rintro ⟨Z, hZ, hxZ, hsup⟩
    exact Finset.ne_empty_of_mem hxZ (hno Z hZ hsup)
  unfold Model.addHull at h
  split at h
  · next hempty =>
    cases h
    exact hnone fun Z hZ _ => Finset.subset_empty.mp (hempty ▸ hZ)
  · next hempty =>
    obtain ⟨c, hc, h⟩ := bind_eq_ok.mp h
    split at h
    · obtain ⟨b, hb, h⟩ := bind_eq_ok.mp h
      unfold hullNonempty at hb
      rw [if_neg hempty] at hb
      obtain ⟨X, hX, hb⟩ := bind_eq_ok.mp hb
      obtain ⟨hsub, hself, hgreat⟩ := hM.hull_backward hpred hsf hX
      split at h
      · obtain ⟨X', hX', h⟩ := bind_eq_ok.mp h
        rw [hX] at hX'
        cases hX'
        cases h
        rw [Finset.mem_union]
        refine or_congr_right ⟨fun hx => ⟨X, hsub, hx, hself⟩, ?_⟩
        rintro ⟨Z, hZ, hxZ, hsup⟩
        exact hgreat Z hZ hsup hxZ
      · next hb' =>
        cases h
        have hXe : X = ∅ := by
          rw [← Except.ok.inj hb] at hb'
          simpa using hb'
        exact hnone fun Z hZ hsup => Finset.subset_empty.mp (hXe ▸ hgreat Z hZ hsup)
    · next hcyc =>
      cases h
      refine hnone fun Z hZ hsup => ?_
      by_contra hne
      exact hcyc (hM.hasCycles hc (hZ.trans hsf) (Finset.nonempty_iff_ne_empty.mpr hne) hsup)

theorem Exact.satEg (hM : M.Exact step) (hf : M.ExactAt step S f)
    (h : M.satEg rounds S f = .ok res) {x : σ} :
    x ∈ res ↔ x ∈ M.reach ∧ M.HoldsEg step f x := by
  obtain ⟨sf, hsf, h⟩ := bind_eq_ok.mp h
  split at h
  · cases h
  · next hpred =>
    have hpred : M.pred ≠ [] := fun hnil => hpred (List.isEmpty_iff.mpr hnil)
    obtain ⟨r, hr, h⟩ := bind_eq_ok.mp h
    have hsfR : sf ⊆ M.reach := fun y hy => ((hf sf hsf y).mp hy).1
    rw [hM.addHull hpred hsfR h, hM.lfp_backward hpred hf (Finset.inter_subset_right.trans hsfR) hr]
    constructor
    · rintro (⟨hx, hc⟩ | ⟨Z, hZ, hxZ, hsup⟩)
      · exact ⟨hx, (hM.holdsEg_iff (hf sf hsf) hx).mpr (.inl hc)⟩
      · have hx := hsfR (hZ hxZ)
        exact ⟨hx, (hM.holdsEg_iff (hf sf hsf) hx).mpr (.inr ⟨Z, hZ, hxZ, hsup⟩)⟩
    · rintro ⟨hx, heg⟩
      exact ((hM.holdsEg_iff (hf sf hsf) hx).mp heg).imp_left fun hc => ⟨hx, hc⟩

/-! ## The backward evaluation -/

omit [DecidableEq σ] in
theorem holds_ex_iff {x : σ} :
    M.Holds step (.unary .ex f) x ↔ ∃ y, step x y ∧ M.Holds step f y := exists_next_iff

omit [DecidableEq σ] in
theorem holds_eu_iff {x : σ} :
    M.Holds step (.binary .eu f g) x ↔ Chain step (M.Holds step f) (M.Holds step g) x :=
  exists_until_iff

theorem Exact.satEw (hM : M.Exact step) (hf : M.ExactAt step S f) (hg : M.ExactAt step S g)
    (h : both (M.satEu rounds S f g) (M.satEg rounds S f) = .ok res) {x : σ} :
    x ∈ res ↔ x ∈ M.reach ∧ M.Holds step (.binary .ew f g) x := by
  obtain ⟨a, b, ha, hb, rfl⟩ := both_eq_ok h
  rw [Finset.mem_union, hM.satEu hf hg ha, hM.satEg hf hb, ← and_or_left, holds_ew_iff]

/-- What is left of the reachable set without the negation of a formula. -/
theorem Exact.mem_sdiff (hM : M.Exact step) (ids : Formula → Nat) {a : Finset σ}
    (ha : ∀ x, x ∈ a ↔ x ∈ M.reach ∧ M.Holds step (negate ids f) x) {x : σ} :
    x ∈ M.reach \ a ↔ x ∈ M.reach ∧ M.Holds step f x := by
  rw [Finset.mem_sdiff, ha]
  refine and_congr_right fun hx => ?_
  rw [hM.holds_negate hx, and_iff_right hx, not_not]

theorem satAll_ok {k : ConnOp} {fs : List Formula} : ∀ {acc : Finset σ},
    satAll S k acc fs = .ok res → ∀ f ∈ fs, ∃ s, S f = .ok s := by
  induction fs with
  | nil => exact fun _ => nofun
  | cons f fs ih =>
    intro acc h
    obtain ⟨s, hs, h⟩ := bind_eq_ok.mp h
    exact List.forall_mem_cons.mpr ⟨⟨s, hs⟩, ih h⟩

theorem Exact.mem_pred_holds (hM : M.Exact step) (hpred : ¬ M.pred.isEmpty = true)
    {a : Finset σ} (ha : ∀ x, x ∈ a ↔ x ∈ M.reach ∧ M.Holds step f x) {x : σ} :
    x ∈ image M.pred a ↔ x ∈ M.reach ∧ M.Holds step (.unary .ex f) x := by
  rw [hM.mem_pred (fun hnil => hpred (List.isEmpty_iff.mpr hnil)) fun y hy => ((ha y).mp hy).1,
    holds_ex_iff]
  refine and_congr_right fun hx => exists_congr fun y => ?_
  rw [ha, and_comm]
  exact and_congr_right fun hst => and_iff_right (hM.closed x hx y hst)

/-- The evaluation of every formula is exact. -/
theorem Exact.sat (hM : M.Exact step) : ∀ {n : Nat} {f : Formula},
    M.ExactAt step (M.sat ids rounds n) f := by
  intro n
  induction n with
  | zero =>
    intro f s h
    cases h
  | succ n ih =>
    intro f s h x
    unfold Model.sat at h
    split at h
    · next hstate =>
      cases h
      exact mem_filter hstate
    · next hstate =>
      cases f with
      | atom a => exact absurd rfl hstate
      | tru => exact absurd rfl hstate
      | fls => exact absurd rfl hstate
      | not g =>
        obtain ⟨a, ha, h⟩ := bind_eq_ok.mp h
        cases h
        rw [Finset.mem_sdiff, ih a ha]
        refine and_congr_right fun hx => ?_
        rw [and_iff_right hx]
        exact (hM.holds_not hx g).symm
      | nary k kids =>
        cases k with
        | conj =>
          rw [satAll_conj h x]
          refine and_congr_right fun hx => Iff.trans ?_ sat_conj.symm
          refine forall₂_congr fun f hf => ?_
          obtain ⟨a, ha⟩ := satAll_ok h f hf
          simp only [ha, Except.ok.injEq, exists_eq_left', ih a ha, and_iff_right hx]
          exact Iff.rfl
        | disj =>
          have hkid : ∀ f ∈ kids, ((∃ a, M.sat ids rounds n f = .ok a ∧ x ∈ a) ↔
              x ∈ M.reach ∧ M.Holds step f x) := by
            intro f hf
            obtain ⟨a, ha⟩ := satAll_ok h f hf
            simp only [ha, Except.ok.injEq, exists_eq_left', ih a ha]
          rw [satAll_disj h x, or_iff_right (Finset.notMem_empty x),
            exists_congr fun f => and_congr_right (hkid f)]
          simp only [← and_assoc, and_comm (b := x ∈ M.reach)]
          simp only [and_assoc, exists_and_left]
          exact and_congr_right fun _ => sat_disj.symm
      | unary o g =>
        cases o with
        | ex =>
          obtain ⟨a, ha, h⟩ := bind_eq_ok.mp h
          split at h
          · cases h
          · next hpred =>
            cases h
            exact hM.mem_pred_holds hpred (ih a ha)
        | ef =>
          rw [hM.satEu ih ih h, holds_ef_iff]
        | eg => exact hM.satEg ih h
        | ax =>
          obtain ⟨a, ha, h⟩ := bind_eq_ok.mp h
          split at h
          · cases h
          · next hpred =>
            cases h
            exact hM.mem_sdiff ids fun y => hM.mem_pred_holds hpred (ih a ha)
        | af =>
          obtain ⟨a, ha, h⟩ := bind_eq_ok.mp h
          cases h
          exact hM.mem_sdiff ids fun y => hM.satEg ih ha
        | ag =>
          obtain ⟨a, ha, h⟩ := bind_eq_ok.mp h
          cases h
          refine hM.mem_sdiff ids fun y => ?_
          rw [hM.satEu ih ih ha]
          exact and_congr_right fun _ => holds_ef_iff.symm
      | binary o f g =>
        cases o with
        | eu => rw [hM.satEu ih ih h, holds_eu_iff]
        | ew => exact hM.satEw ih ih h
        | au =>
          obtain ⟨a, ha, h⟩ := bind_eq_ok.mp h
          cases h
          exact hM.mem_sdiff ids fun y => hM.satEw ih ih ha
        | aw =>
          obtain ⟨a, ha, h⟩ := bind_eq_ok.mp h
          cases h
          refine hM.mem_sdiff ids fun y => ?_
          rw [hM.satEu ih ih ha]
          exact and_congr_right fun _ => holds_eu_iff.symm

end Model

end LibHSC.Ctl
