import LibHSC.Ctl.Partial
import LibHSC.CycleWitness

/-!
Three loops for related fixpoints: the hull by rounds and by frontier, the closure and the
search that stops at its first hit. They come to the same answers, and so do the question
whether a set is empty and the set.
-/

namespace LibHSC.Ctl

/-! ## The frontier form of a hull -/

section Frontier

variable {σ : Type} [DecidableEq σ]

def applyTerm (e : σ → Finset σ) (s : Finset σ) : Finset σ := s.biUnion e

/-- The candidates that still have a witness in `x`: component by component, until all of
them have. -/
def stillWitnessed (x c : Finset σ) : List ((σ → Finset σ) × (σ → Finset σ)) → Finset σ → Finset σ
  | [], k => k
  | (e, conv) :: rest, k =>
    if k = c then k
    else
      let t := applyTerm conv c ∩ x
      if t = ∅ then stillWitnessed x c rest k
      else stillWitnessed x c rest (k ∪ (applyTerm e t ∩ c))

/-- What is removed next had a witness among what was removed last. -/
def frontierLoop (h conv : List (σ → Finset σ)) : Nat → Finset σ → Finset σ → Except Halt (Finset σ)
  | 0, _, _ => .error .stopped
  | n + 1, x, d =>
    if d = ∅ then .ok x
    else
      let x := x \ d
      if x = ∅ then .ok x
      else
        let c := image h d ∩ x
        if c = ∅ then .ok x
        else frontierLoop h conv n x (c \ stillWitnessed x c (h.zip conv) ∅)

/-- The hull in the frontier form; by rounds when the converses do not go by pairs. -/
def Model.hullFrontier (M : Model σ) (rounds : Nat) (backward : Bool) (x0 : Finset σ) :
    Except Halt (Finset σ) :=
  let h := M.hullEvents backward
  let conv := M.hullEvents (!backward)
  if x0 = ∅ ∨ h.isEmpty then .ok x0
  else if conv.length ≠ h.length then M.hull rounds backward x0
  else frontierLoop h conv rounds x0 (x0 \ image h x0)

theorem mem_applyTerm {e : σ → Finset σ} {s : Finset σ} {y : σ} :
    y ∈ applyTerm e s ↔ ∃ x ∈ s, y ∈ e x := Finset.mem_biUnion

theorem image_union (h : List (σ → Finset σ)) (a b : Finset σ) :
    image h (a ∪ b) = image h a ∪ image h b := Finset.union_biUnion

theorem image_cons (e : σ → Finset σ) (h : List (σ → Finset σ)) (s : Finset σ) :
    image (e :: h) s = applyTerm e s ∪ image h s := by
  ext y
  simp only [Finset.mem_union, mem_image, mem_applyTerm, mem_successors, List.exists_mem_cons_iff,
    and_or_left, exists_or]

/-- With converses that miss no witness, the candidates kept are those of the image. -/
theorem stillWitnessed_eq {x c : Finset σ} : ∀ {ps : List ((σ → Finset σ) × (σ → Finset σ))}
    {k : Finset σ}, (∀ p ∈ ps, ∀ s ∈ x, ∀ y ∈ c, y ∈ p.1 s → s ∈ p.2 y) → k ⊆ c →
    stillWitnessed x c ps k = k ∪ (image (ps.map Prod.fst) x ∩ c) := by
  intro ps
  induction ps with
  | nil =>
    intro k _ _
    have hnone : image ([] : List (σ → Finset σ)) x = ∅ := by
      ext y
      simp [mem_image, mem_successors]
    rw [List.map_nil, hnone, Finset.empty_inter, Finset.union_empty]
    rfl
  | cons p ps ih =>
    obtain ⟨e, conv⟩ := p
    intro k hconv hk
    obtain ⟨hp, hps⟩ := List.forall_mem_cons.mp hconv
    -- the witnesses are among the converse image of the candidates
    have hstep : applyTerm e (applyTerm conv c ∩ x) ∩ c = applyTerm e x ∩ c := by
      ext y
      simp only [Finset.mem_inter, mem_applyTerm]
      constructor
      · rintro ⟨⟨s, ⟨-, hs⟩, hy⟩, hc⟩
        exact ⟨⟨s, hs, hy⟩, hc⟩
      · rintro ⟨⟨s, hs, hy⟩, hc⟩
        exact ⟨⟨s, ⟨⟨y, hc, hp s hs y hc hy⟩, hs⟩, hy⟩, hc⟩
    have hsplit : image ((e :: ps.map Prod.fst)) x ∩ c =
        (applyTerm e x ∩ c) ∪ (image (ps.map Prod.fst) x ∩ c) := by
      rw [image_cons, Finset.union_inter_distrib_right]
    rw [List.map_cons, hsplit, stillWitnessed]
    by_cases hall : k = c
    · rw [if_pos hall, hall]
      refine (Finset.union_eq_left.mpr ?_).symm
      exact Finset.union_subset Finset.inter_subset_right Finset.inter_subset_right
    · rw [if_neg hall]
      dsimp only
      split
      · next ht =>
        rw [ht] at hstep
        rw [ih hps hk, ← hstep]
        simp [applyTerm]
      · rw [ih hps (Finset.union_subset hk Finset.inter_subset_right), hstep, Finset.union_assoc]

/-- A state that loses its last witness in a round had one among what the round removes. -/
theorem lost_next {h : List (σ → Finset σ)} {X : Finset σ} {s : σ} (hs : s ∈ X ∩ image h X)
    (hno : s ∉ image h (X ∩ image h X)) : s ∈ image h (X \ image h X) := by
  have hall : s ∈ image h (X ∩ image h X ∪ (X \ image h X)) := by
    rw [Finset.union_comm, Finset.sdiff_union_inter]
    exact (Finset.mem_inter.mp hs).2
  rw [image_union] at hall
  exact (Finset.mem_union.mp hall).resolve_left hno

/-- Each frontier is what the next round would remove. -/
theorem frontier_next {h conv : List (σ → Finset σ)} {X : Finset σ} (hlen : conv.length = h.length)
    (hconv : ∀ p ∈ h.zip conv, ∀ s ∈ X, ∀ y ∈ X, y ∈ p.1 s → s ∈ p.2 y) :
    let Y := X ∩ image h X
    let c := image h (X \ image h X) ∩ Y
    c \ stillWitnessed Y c (h.zip conv) ∅ = Y \ image h Y := by
  intro Y c
  have hYX : Y ⊆ X := Finset.inter_subset_left
  have hcY : c ⊆ Y := Finset.inter_subset_right
  rw [stillWitnessed_eq (fun p hp s hs y hy => hconv p hp s (hYX hs) y (hYX (hcY hy)))
    (Finset.empty_subset _), Finset.empty_union, List.map_fst_zip hlen.ge]
  ext s
  simp only [Finset.mem_sdiff, Finset.mem_inter]
  constructor
  · rintro ⟨hc, hno⟩
    exact ⟨hcY hc, fun hs => hno ⟨hs, hc⟩⟩
  · rintro ⟨hs, hno⟩
    exact ⟨Finset.mem_inter.mpr ⟨lost_next hs hno, hs⟩, fun hs' => hno hs'.1⟩

/-- The rounds and the frontier come to the same hull. -/
theorem frontierLoop_eq {h conv : List (σ → Finset σ)} {R : Finset σ}
    (hlen : conv.length = h.length)
    (hconv : ∀ p ∈ h.zip conv, ∀ s ∈ R, ∀ y ∈ R, y ∈ p.1 s → s ∈ p.2 y) :
    ∀ {n : Nat} {x y : Finset σ}, x ⊆ R → gfpLoop (image h) n x = .ok y →
      frontierLoop h conv n x (x \ image h x) = .ok y := by
  intro n
  induction n with
  | zero =>
    intro x y _ hl
    cases hl
  | succ n ih =>
    intro x y hx hl
    have hstable : x \ image h x = ∅ ↔ x ∩ image h x = x := by
      rw [Finset.sdiff_eq_empty_iff_subset, Finset.inter_eq_left]
    unfold gfpLoop at hl
    unfold frontierLoop
    by_cases hfix : x ∩ image h x = x
    · rw [if_pos hfix] at hl
      rw [if_pos (hstable.mpr hfix)]
      exact hl
    · rw [if_neg hfix] at hl
      rw [if_neg fun he => hfix (hstable.mp he)]
      dsimp only
      rw [sdiff_sdiff_right_self, Finset.inf_eq_inter, frontier_next hlen fun p hp s hs y hy =>
        hconv p hp s (hx hs) y (hx hy)]
      obtain ⟨hsub, hself, hgreat⟩ := gfpLoop_spec image_mono hl
      split
      · next hempty =>
        rw [hempty] at hsub
        rw [hempty, Finset.subset_empty.mp hsub]
      · split
        · next hc =>
          have hkept : x ∩ image h x ⊆ image h (x ∩ image h x) := by
            intro s hs
            by_contra hno
            have hmem := Finset.mem_inter.mpr ⟨lost_next hs hno, hs⟩
            rw [hc] at hmem
            exact Finset.notMem_empty s hmem
          rw [Finset.Subset.antisymm hsub (hgreat _ subset_rfl hkept)]
        · exact ih (Finset.inter_subset_left.trans hx) hl

theorem gfpLoop_total {h : Finset σ → Finset σ} : ∀ {n : Nat} {x : Finset σ}, x.card < n →
    ∃ y, gfpLoop h n x = .ok y := by
  intro n
  induction n with
  | zero => exact fun hc => absurd hc (Nat.not_lt_zero _)
  | succ n ih =>
    intro x hc
    unfold gfpLoop
    by_cases hfix : x ∩ h x = x
    · exact ⟨x, if_pos hfix⟩
    · rw [if_neg hfix]
      have hlt : (x ∩ h x).card < x.card :=
        Finset.card_lt_card (Finset.ssubset_iff_subset_ne.mpr ⟨Finset.inter_subset_left, hfix⟩)
      exact ih (by omega)

end Frontier

namespace Model

variable {σ : Type} [DecidableEq σ] {M : Model σ} {ids : Formula → Nat} {rounds depth : Nat}
  {q : Formula} {a c res : Finset σ}

/-- The converses of the model pair with its events and miss no step within the reachable
set. -/
def Converses (M : Model σ) : Prop :=
  ∀ backward, ∀ p ∈ (M.hullEvents backward).zip (M.hullEvents (!backward)),
    ∀ x ∈ M.reach, ∀ y ∈ M.reach, y ∈ p.1 x → x ∈ p.2 y

/-- With more rounds than states both forms return the greatest set that steps onto itself. -/
theorem hull_forms (hM : M.Converses) {backward : Bool} {x0 : Finset σ} (hx : x0 ⊆ M.reach)
    (hr : x0.card < rounds) :
    ∃ y, M.hull rounds backward x0 = .ok y ∧ M.hullFrontier rounds backward x0 = .ok y ∧
      ((M.hullEvents backward).isEmpty = false → y ⊆ x0 ∧ y ⊆ image (M.hullEvents backward) y ∧
        ∀ z ⊆ x0, z ⊆ image (M.hullEvents backward) z → z ⊆ y) := by
  unfold hull hullFrontier
  by_cases htriv : x0 = ∅ ∨ (M.hullEvents backward).isEmpty
  · refine ⟨x0, if_pos htriv, if_pos htriv, fun hne => ?_⟩
    rcases htriv with rfl | hev
    · exact ⟨subset_rfl, Finset.empty_subset _, fun z hz _ => hz⟩
    · rw [hne] at hev
      cases hev
  · obtain ⟨y, hy⟩ := gfpLoop_total (h := image (M.hullEvents backward)) hr
    refine ⟨y, (if_neg htriv).trans hy, ?_, fun _ => gfpLoop_spec image_mono hy⟩
    dsimp only
    rw [if_neg htriv]
    by_cases hlen : (M.hullEvents (!backward)).length = (M.hullEvents backward).length
    · rw [if_neg (not_not.mpr hlen)]
      exact frontierLoop_eq hlen (hM backward) hx hy
    · rw [if_pos hlen]
      exact (if_neg htriv).trans hy

/-! ## The search and the closure -/

/-- The reachable set holds the initial states and is closed under the steps. -/
structure Inside (M : Model σ) : Prop where
  init : M.init ⊆ M.reach
  next : image M.next M.reach ⊆ M.reach

theorem lfpLoop_inside {h : Finset σ → Finset σ} {R : Finset σ}
    (hR : ∀ x ⊆ R, h x ⊆ R) {n : Nat} {x y : Finset σ} (hl : lfpLoop h n x = .ok y)
    (hx : x ⊆ R) : y ⊆ R :=
  fun _ hy => lfpLoop_induct (P := (· ∈ R)) (fun x hx _ ha => hR x hx ha) hl (fun _ ha => hx ha)
    _ hy

omit [DecidableEq σ] in
theorem Constraint.subset {S : Formula → Except Halt (Finset σ)} {step : σ → σ → Prop}
    {C : Finset σ → Finset σ} (hC : M.Constraint step S q C) (X : Finset σ) : C X ⊆ X := by
  obtain ⟨_, hmem, -⟩ := hC
  exact fun x hx => ((hmem X x).mp hx).1

theorem constrainedLfp_inside (hM : M.Inside) {S : Formula → Except Halt (Finset σ)}
    (h : M.constrainedLfp rounds S false a q true = .ok c) (ha : a ⊆ M.reach) :
    a ⊆ c ∧ c ⊆ M.reach := by
  rcases constrainedLfp_cases (fun _ _ => False) h with ⟨rfl, -⟩ | ⟨C, hC, hl⟩
  · exact ⟨subset_rfl, ha⟩
  · refine ⟨(lfpLoop_closed hl).1, lfpLoop_inside (fun x hx => ?_) hl ha⟩
    exact (image_mono ((hC.subset x).trans hx)).trans hM.next

theorem restrict_subset {S : Formula → Except Halt (Finset σ)}
    (h : M.restrict S a q = .ok res) : res ⊆ a := by
  unfold restrict at h
  split at h
  · cases h
    exact Finset.filter_subset _ _
  · obtain ⟨s, -, h⟩ := bind_eq_ok.mp h
    cases h
    exact Finset.inter_subset_left

theorem reachThrough_inside (hM : M.Inside) (h : M.reachThrough ids rounds depth a q = .ok res)
    (ha : a ⊆ M.reach) : res ⊆ M.reach := by
  obtain ⟨seed, hseed, h⟩ := bind_eq_ok.mp h
  obtain ⟨rq, hrq, h⟩ := bind_eq_ok.mp h
  exact (restrict_subset h).trans
    (constrainedLfp_inside hM hrq ((restrict_subset hseed).trans ha)).2

theorem hull_subset {backward : Bool} {x0 : Finset σ} (h : M.hull rounds backward x0 = .ok res) :
    res ⊆ x0 := by
  unfold hull at h
  split at h
  · cases h
    exact subset_rfl
  · exact (gfpLoop_spec image_mono h).1

/-- What a set expression evaluates to is reachable. -/
theorem eval_inside (hM : M.Inside) : ∀ {r : SetExpr} {a : Finset σ},
    M.eval ids rounds depth r = .ok a → a ⊆ M.reach := by
  intro r
  induction r with
  | init =>
    intro a h
    cases h
    exact hM.init
  | filter r f ih =>
    intro a h
    obtain ⟨b, hb, h⟩ := bind_eq_ok.mp h
    cases h
    exact (Finset.filter_subset _ _).trans (ih hb)
  | ey r ih =>
    intro a h
    obtain ⟨b, hb, h⟩ := bind_eq_ok.mp h
    cases h
    exact (image_mono (ih hb)).trans hM.next
  | fwdu r q ih =>
    intro a h
    obtain ⟨b, hb, h⟩ := bind_eq_ok.mp h
    exact (constrainedLfp_inside hM h (ih hb)).2
  | fwdg r q ih =>
    intro a h
    obtain ⟨b, hb, h⟩ := bind_eq_ok.mp h
    obtain ⟨w, hw, h⟩ := bind_eq_ok.mp h
    have hwr := reachThrough_inside hM hw (ih hb)
    have hdead : M.dead ∩ w ⊆ M.reach := Finset.inter_subset_right.trans hwr
    split at h
    · cases h
      exact hdead
    · obtain ⟨cyc, -, h⟩ := bind_eq_ok.mp h
      split at h
      · obtain ⟨X, hX, h⟩ := bind_eq_ok.mp h
        cases h
        exact Finset.union_subset hdead ((hull_subset hX).trans hwr)
      · cases h
        exact hdead
  | restrict r f ih =>
    intro a h
    obtain ⟨b, hb, h⟩ := bind_eq_ok.mp h
    obtain ⟨s, -, h⟩ := bind_eq_ok.mp h
    cases h
    exact Finset.inter_subset_left.trans (ih hb)

/-- A set is the closure of another under the steps from the states of `s`. -/
structure ClosureOf (M : Model σ) (s a c : Finset σ) : Prop where
  start : a ⊆ c
  closed : image M.next (c ∩ s) ⊆ c
  least : ∀ X, a ⊆ X → image M.next (X ∩ c ∩ s) ⊆ X → c ⊆ X

theorem sat_state {n : Nat} (hq : isState q = true) {s : Finset σ}
    (h : M.sat ids rounds n q = .ok s) : s = M.filter M.reach q := by
  cases n with
  | zero => cases h
  | succ n =>
    unfold sat at h
    rw [if_pos hq] at h
    cases h
    rfl

/-- Within the reachable set a constrained closure is the closure through the `Sat` of its
constraint. -/
theorem closureOf_constrainedLfp (hM : M.Inside) {s : Finset σ}
    (hs : M.sat ids rounds depth q = .ok s) (ha : a ⊆ M.reach)
    (h : M.constrainedLfp rounds (M.sat ids rounds depth) false a q true = .ok c) :
    M.ClosureOf s a c := by
  have hcR := (constrainedLfp_inside hM h ha).2
  rcases constrainedLfp_cases (fun _ _ => False) h with ⟨rfl, htriv⟩ | ⟨C, hC, hl⟩
  · refine ⟨subset_rfl, fun y hy => ?_, fun X hX _ => hX⟩
    obtain ⟨x, hx, hxy⟩ := mem_image.mp hy
    obtain ⟨hxc, hxs⟩ := Finset.mem_inter.mp hx
    rcases htriv with rfl | hev | rfl
    · exact absurd hxc (Finset.notMem_empty x)
    · obtain ⟨e, he, -⟩ := mem_successors.mp hxy
      rw [show M.next = [] from hev] at he
      cases he
    · rw [sat_state rfl hs] at hxs
      obtain ⟨-, hv⟩ := Finset.mem_filter.mp hxs
      cases hv
  · -- on reachable states the constraint is the `Sat`
    have hCs : ∀ X, X ⊆ M.reach → C X = X ∩ s := by
      intro X hX
      obtain ⟨p, hmem, hp⟩ := hC
      ext x
      rw [hmem, Finset.mem_inter]
      refine and_congr_right fun hxX => ?_
      rcases hp with ⟨hq, hiff⟩ | ⟨s', hs', hiff⟩
      · rw [hiff, sat_state hq hs, mem_filter hq]
        exact ⟨fun hh => ⟨hX hxX, hh⟩, fun hh => hh.2⟩
      · rw [hs] at hs'
        cases hs'
        exact hiff x
    obtain ⟨hstart, hclosed⟩ := lfpLoop_closed hl
    simp only [if_true] at hclosed hl
    rw [hCs c hcR] at hclosed
    refine ⟨hstart, hclosed, fun X hX hstep => ?_⟩
    have hround : ∀ x : Finset σ, (∀ b ∈ x, b ∈ X ∩ c) → ∀ b ∈ image M.next (C x), b ∈ X ∩ c := by
      intro x hx b hb
      have hxX : x ⊆ X ∩ c := hx
      have hsub : C x ⊆ X ∩ c ∩ s := by
        rw [hCs x ((hxX.trans Finset.inter_subset_right).trans hcR)]
        exact Finset.inter_subset_inter hxX subset_rfl
      refine Finset.mem_inter.mpr ⟨hstep (image_mono hsub hb), hclosed (image_mono ?_ hb)⟩
      exact hsub.trans (Finset.inter_subset_inter Finset.inter_subset_right subset_rfl)
    exact fun b hb => (Finset.mem_inter.mp (lfpLoop_induct (P := (· ∈ X ∩ c)) hround hl
      (fun b hb => Finset.mem_inter.mpr ⟨hX hb, hstart hb⟩) b hb)).1

theorem filter_union (x y : Finset σ) (f : Formula) :
    M.filter (x ∪ y) f = M.filter x f ∪ M.filter y f := Finset.filter_union _ x y

omit [DecidableEq σ] in
theorem filter_mono {x y : Finset σ} (f : Formula) (hxy : x ⊆ y) : M.filter x f ⊆ M.filter y f :=
  Finset.filter_subset_filter _ hxy

/-- The search answers for the closure: what it has seen is in it, and it gives up only
where all is seen. -/
theorem search_closure {s : Finset σ} {goal : Formula} (hc : M.ClosureOf s a c) :
    ∀ {n : Nat} {seen frontier : Finset σ}, a ⊆ seen → seen ⊆ c → frontier ⊆ seen →
      image M.next ((seen \ frontier) ∩ s) ⊆ seen → M.filter (seen \ frontier) goal = ∅ →
      c.card < n + seen.card →
      M.search s goal n seen frontier = .ok (decide (M.filter c goal ≠ ∅)) := by
  intro n
  induction n with
  | zero =>
    intro seen frontier _ hsc _ _ _ hcard
    have hle := Finset.card_le_card hsc
    omega
  | succ n ih =>
    intro seen frontier ha hsc hfs hclosed hmiss hcard
    unfold search
    by_cases hhit : M.filter frontier goal ≠ ∅
    · rw [if_pos hhit]
      have hne : M.filter c goal ≠ ∅ := fun he =>
        hhit (Finset.subset_empty.mp (he ▸ filter_mono goal (hfs.trans hsc)))
      rw [decide_eq_true hne]
    · rw [if_neg hhit]
      rw [not_not] at hhit
      dsimp only
      have hsplit : seen = seen \ frontier ∪ frontier := (Finset.sdiff_union_of_subset hfs).symm
      have hseen : M.filter seen goal = ∅ := by
        rw [hsplit, filter_union, hmiss, hhit, Finset.union_empty]
      have hstep : image M.next (seen ∩ s) ⊆ seen ∪ image M.next (frontier ∩ s) := by
        conv_lhs => rw [hsplit]
        rw [Finset.union_inter_distrib_right, image_union]
        exact Finset.union_subset_union hclosed subset_rfl
      by_cases hfresh : image M.next (frontier ∩ s) \ seen = ∅
      · rw [if_pos hfresh]
        have hall : c ⊆ seen := by
          refine hc.least seen ha ((image_mono ?_).trans (hstep.trans ?_))
          · exact Finset.inter_subset_inter Finset.inter_subset_left subset_rfl
          · exact Finset.union_subset subset_rfl (Finset.sdiff_eq_empty_iff_subset.mp hfresh)
        rw [Finset.Subset.antisymm hall hsc, hseen]
        rfl
      · rw [if_neg hfresh]
        have hdisj : Disjoint seen (image M.next (frontier ∩ s) \ seen) := Finset.disjoint_sdiff
        have hpos := Finset.card_pos.mpr (Finset.nonempty_iff_ne_empty.mpr hfresh)
        have hold : (seen ∪ image M.next (frontier ∩ s) \ seen) \
            (image M.next (frontier ∩ s) \ seen) = seen :=
          Finset.union_sdiff_cancel_right hdisj
        refine ih (ha.trans Finset.subset_union_left) (Finset.union_subset hsc ?_)
          Finset.subset_union_right ?_ ?_ ?_
        · have hin : frontier ∩ s ⊆ c ∩ s :=
            Finset.inter_subset_inter (hfs.trans hsc) subset_rfl
          exact Finset.sdiff_subset.trans ((image_mono hin).trans hc.closed)
        · rw [hold, Finset.union_sdiff_self_eq_union]
          exact hstep
        · rw [hold]
          exact hseen
        · rw [Finset.card_union_of_disjoint hdisj]
          omega

theorem search_mono {s : Finset σ} {goal : Formula} {b : Bool} : ∀ {n k : Nat}
    {seen frontier : Finset σ}, n ≤ k → M.search s goal n seen frontier = .ok b →
    M.search s goal k seen frontier = .ok b := by
  intro n
  induction n with
  | zero =>
    intro k seen frontier _ h
    cases h
  | succ n ih =>
    intro k seen frontier hk h
    obtain ⟨k, rfl⟩ : ∃ k', k = k' + 1 := ⟨k - 1, by omega⟩
    unfold search at h ⊢
    exact ite_le (fun h => h) (ite_le (fun h => h) (ih (by omega))) h

/-- The search from the whole of the argument. -/
theorem search_start {s : Finset σ} {goal : Formula} (hc : M.ClosureOf s a c) {n : Nat}
    (hn : c.card < n) : M.search s goal n a a = .ok (decide (M.filter c goal ≠ ∅)) := by
  refine search_closure hc subset_rfl hc.start subset_rfl ?_ ?_ (by omega)
  · rw [Finset.sdiff_self, Finset.empty_inter]
    exact Finset.empty_subset _
  · rw [Finset.sdiff_self]
    rfl

theorem constrainedLfp_empty (S : Formula → Except Halt (Finset σ)) (backward before : Bool) :
    M.constrainedLfp rounds S backward ∅ q before = .ok ∅ := rfl

/-- The search that stops at its first hit answers for the set it would close. -/
theorem existsThrough_closure (hM : M.Inside) {r : SetExpr} {goal : Formula} {s : Finset σ}
    (hs : M.sat ids rounds depth q = .ok s)
    (hc : M.eval ids rounds depth (.fwdu r q) = .ok c) (hr : c.card < rounds) :
    M.existsThrough ids rounds depth r q goal = .ok (decide (M.filter c goal ≠ ∅)) := by
  obtain ⟨b, hb, hc⟩ := bind_eq_ok.mp hc
  refine bind_of_ok hb ?_
  by_cases hempty : b = ∅
  · subst hempty
    rw [constrainedLfp_empty] at hc
    cases hc
    rfl
  · rw [if_neg hempty]
    exact bind_of_ok hs (search_start (closureOf_constrainedLfp hM hs (eval_inside hM hb) hc) hr)

theorem existsThrough_agrees (hM : M.Inside) {r : SetExpr} {goal : Formula} {b : Bool}
    (hb : M.existsThrough ids rounds depth r q goal = .ok b)
    (hc : M.eval ids rounds depth (.fwdu r q) = .ok c) :
    b = decide (M.filter c goal ≠ ∅) := by
  obtain ⟨a0, ha0, hc⟩ := bind_eq_ok.mp hc
  obtain ⟨a0', ha0', hb⟩ := bind_eq_ok.mp hb
  rw [ha0] at ha0'
  cases ha0'
  by_cases hempty : a0 = ∅
  · subst hempty
    rw [constrainedLfp_empty] at hc
    cases hc
    rw [if_pos rfl] at hb
    cases hb
    rfl
  · rw [if_neg hempty] at hb
    obtain ⟨s, hs, hb⟩ := bind_eq_ok.mp hb
    have hstart : M.search s goal (rounds + (c.card + 1)) a0 a0 =
        .ok (decide (M.filter c goal ≠ ∅)) :=
      search_start (closureOf_constrainedLfp hM hs (eval_inside hM ha0) hc) (by omega)
    rw [search_mono (Nat.le_add_right rounds (c.card + 1)) hb] at hstart
    exact Except.ok.inj hstart

/-! ## The question of emptiness and the set -/

omit [DecidableEq σ] in
theorem filter_fls (x : Finset σ) : M.filter x .fls = ∅ :=
  Finset.filter_eq_empty_iff.mpr fun _ _ h => nomatch h

/-- The hull and the deadlocks of a set: whether there are some, and all of them. -/
theorem fwdg_agrees {w : Finset σ} {b : Bool} (hb : (do
      if w = ∅ then return false
      else if M.dead ∩ w ≠ ∅ then return true
      else if M.next.isEmpty then return false
      else if ← M.hasCycles rounds then M.hullNonempty rounds false w
      else return false : Except Halt Bool) = .ok b)
    (hc : (do
      if w = ∅ ∨ M.next.isEmpty then return M.dead ∩ w
      else if ← M.hasCycles rounds then return M.dead ∩ w ∪ (← M.hull rounds false w)
      else return M.dead ∩ w : Except Halt (Finset σ)) = .ok c) : b = decide (c ≠ ∅) := by
  have hdead : M.dead ∩ w ⊆ c := by
    split at hc
    · cases hc
      exact subset_rfl
    · obtain ⟨cyc, -, hc⟩ := bind_eq_ok.mp hc
      split at hc
      · obtain ⟨X, -, hc⟩ := bind_eq_ok.mp hc
        cases hc
        exact Finset.subset_union_left
      · cases hc
        exact subset_rfl
  by_cases hw : w = ∅
  · subst hw
    rw [if_pos rfl] at hb
    rw [if_pos (Or.inl rfl), Finset.inter_empty] at hc
    cases hb
    cases hc
    rfl
  rw [if_neg hw] at hb
  by_cases hd : M.dead ∩ w = ∅
  · rw [if_neg (not_not.mpr hd)] at hb
    rw [hd] at hc
    by_cases hnext : M.next.isEmpty = true
    · rw [if_pos hnext] at hb
      rw [if_pos (Or.inr hnext)] at hc
      cases hb
      cases hc
      rfl
    · rw [if_neg hnext] at hb
      rw [if_neg (not_or.mpr ⟨hw, hnext⟩)] at hc
      obtain ⟨cyc, hcyc, hb⟩ := bind_eq_ok.mp hb
      obtain ⟨cyc', hcyc', hc⟩ := bind_eq_ok.mp hc
      rw [hcyc] at hcyc'
      cases hcyc'
      by_cases hcy : cyc = true
      · rw [if_pos hcy] at hb hc
        obtain ⟨X, hX, hc⟩ := bind_eq_ok.mp hc
        unfold hullNonempty at hb
        rw [if_neg hw] at hb
        obtain ⟨X', hX', hb⟩ := bind_eq_ok.mp hb
        rw [hX] at hX'
        cases hX'
        cases hb
        cases hc
        rw [Finset.empty_union]
      · rw [if_neg hcy] at hb hc
        cases hb
        cases hc
        rfl
  · rw [if_pos hd] at hb
    cases hb
    have hne : c ≠ ∅ := fun he => hd (Finset.subset_empty.mp (he ▸ hdead))
    rw [decide_eq_true hne]

/-- Where both answer, the answer is whether the set has a state. -/
theorem nonempty_agrees (hM : M.Inside) {r : SetExpr} {b : Bool}
    (hb : M.nonempty ids rounds depth r = .ok b) (hc : M.eval ids rounds depth r = .ok c) :
    b = decide (c ≠ ∅) := by
  have hdone : ∀ {r : SetExpr}, (do return decide ((← M.eval ids rounds depth r) ≠ ∅) :
      Except Halt Bool) = .ok b → M.eval ids rounds depth r = .ok c → b = decide (c ≠ ∅) := by
    intro r hb hc
    obtain ⟨a, ha, hb⟩ := bind_eq_ok.mp hb
    rw [hc] at ha
    cases ha
    exact (Except.ok.inj hb).symm
  have hfilter : ∀ {r : SetExpr} {f : Formula},
      (do return decide (M.filter (← M.eval ids rounds depth r) f ≠ ∅) : Except Halt Bool) =
        .ok b → M.eval ids rounds depth (.filter r f) = .ok c → b = decide (c ≠ ∅) := by
    intro r f hb hc
    obtain ⟨a, ha, hb⟩ := bind_eq_ok.mp hb
    obtain ⟨a', ha', hc⟩ := bind_eq_ok.mp hc
    rw [ha] at ha'
    cases ha'
    cases hc
    exact (Except.ok.inj hb).symm
  have hfls : ∀ {r : SetExpr}, M.eval ids rounds depth (.filter r .fls) = .ok c →
      false = decide (c ≠ ∅) := by
    intro r hc
    obtain ⟨a, -, hc⟩ := bind_eq_ok.mp hc
    cases hc
    rw [filter_fls]
    rfl
  unfold nonempty at hb
  split at hb
  · cases hc
    exact (Except.ok.inj hb).symm
  · next r0 q f =>
    split at hb
    · next hf =>
      cases hb
      subst hf
      exact hfls hc
    · split at hb
      · obtain ⟨a, ha, hc⟩ := bind_eq_ok.mp hc
        cases hc
        exact existsThrough_agrees hM hb ha
      · exact hfilter hb hc
  · next r f _ =>
    split at hb
    · next hf =>
      cases hb
      subst hf
      exact hfls hc
    · exact hfilter hb hc
  · next r =>
    obtain ⟨a, ha, hb⟩ := bind_eq_ok.mp hb
    obtain ⟨a', ha', hc⟩ := bind_eq_ok.mp hc
    rw [ha] at ha'
    cases ha'
    cases hc
    exact (Except.ok.inj hb).symm
  · next r q =>
    obtain ⟨a, ha, hb⟩ := bind_eq_ok.mp hb
    obtain ⟨a', ha', hc⟩ := bind_eq_ok.mp hc
    rw [ha] at ha'
    cases ha'
    rw [← Except.ok.inj hb]
    by_cases hempty : a = ∅
    · subst hempty
      rw [constrainedLfp_empty] at hc
      cases hc
      rfl
    · have hsub := (constrainedLfp_inside hM hc (eval_inside hM ha)).1
      have hne : c ≠ ∅ := fun he => hempty (Finset.subset_empty.mp (he ▸ hsub))
      rw [decide_eq_true hempty, decide_eq_true hne]
  · next r q =>
    obtain ⟨a, ha, hb⟩ := bind_eq_ok.mp hb
    obtain ⟨w, hw, hb⟩ := bind_eq_ok.mp hb
    obtain ⟨a', ha', hc⟩ := bind_eq_ok.mp hc
    rw [ha] at ha'
    cases ha'
    obtain ⟨w', hw', hc⟩ := bind_eq_ok.mp hc
    rw [hw] at hw'
    cases hw'
    exact fwdg_agrees hb hc
  · exact hdone hb hc

end Model

/-! ## The converses of the command's model -/

namespace System

variable {σ : Type} [DecidableEq σ] {D : System σ} {inv : Inverter σ} {reach : Finset σ}

/-- Each term with its converse, exact within the reachable set. -/
def Paired (reach : Finset σ) : List (σ → Finset σ) → List (σ → Finset σ) → Prop :=
  List.Forall₂ fun t p => ∀ x ∈ reach, ∀ y ∈ reach, (y ∈ t x ↔ x ∈ p y)

omit [DecidableEq σ] in
theorem Paired.flip {ts ps : List (σ → Finset σ)} (h : Paired reach ts ps) :
    Paired reach ps ts :=
  List.Forall₂.flip (List.Forall₂.imp (fun _ _ hp x hx y hy => (hp y hy x hx).symm) h)

theorem invertEvents_paired : ∀ {ts preds raw : List (σ → Finset σ)},
    invertEvents inv reach ts = some (preds, raw) →
      Paired reach ts preds ∧ Paired reach ts raw := by
  intro ts
  induction ts with
  | nil =>
    intro preds raw h
    cases h
    exact ⟨.nil, .nil⟩
  | cons t ts ih =>
    intro preds raw h
    obtain ⟨p, hp, h⟩ := Option.bind_eq_some_iff.mp h
    obtain ⟨⟨preds', raw'⟩, hts, h⟩ := Option.bind_eq_some_iff.mp h
    cases h
    obtain ⟨hpreds, hraw⟩ := ih hts
    have hexact : ∀ x ∈ reach, ∀ y ∈ reach, (y ∈ t x ↔ x ∈ p y) := fun x hx y _ =>
      ⟨inv.complete t reach p hp y x hx, inv.sound t reach p hp y x⟩
    refine ⟨.cons (fun x hx y hy => ?_) hpreds, .cons hexact hraw⟩
    split
    · exact hexact x hx y hy
    · rw [Finset.mem_inter, hexact x hx y hy]
      exact (and_iff_left hx).symm

/-- The events and their converses go by pairs, the self-loop being its own converse; or
there are no converses. -/
theorem converses_paired : D.converses inv reach = ([], []) ∨
    Paired reach D.nextEvents (D.converses inv reach).1 ∧
      Paired reach D.nextEvents (D.converses inv reach).2 := by
  unfold converses
  split
  · exact .inl rfl
  · next preds raw heq =>
    obtain ⟨hpreds, hraw⟩ := invertEvents_paired heq
    unfold nextEvents
    by_cases hidle : D.idleEvent = true
    · by_cases hempty : preds = []
      · subst hempty
        have hev : D.events = [] := List.forall₂_nil_right_iff.mp hpreds
        rw [hev] at hraw
        have hrawnil : raw = [] := List.forall₂_nil_left_iff.mp hraw
        subst hrawnil
        refine .inl ?_
        simp
      · have hsome : preds.isEmpty = false := Bool.eq_false_iff.mpr fun he =>
          hempty (List.isEmpty_iff.mp he)
        have hself : Paired reach [fun s : σ => ({s} : Finset σ)] [fun s => {s}] := by
          refine .cons (fun x _ y _ => ?_) .nil
          rw [Finset.mem_singleton, Finset.mem_singleton, eq_comm]
        rw [if_pos hidle, hidle, hsome]
        exact .inr ⟨List.rel_append hpreds hself, List.rel_append hraw hself⟩
    · rw [if_neg hidle, Bool.eq_false_iff.mpr hidle]
      exact .inr ⟨hpreds, hraw⟩

theorem hullEvents_paired : (D.model inv reach).hullEvents true = [] ∨
    Paired reach D.nextEvents ((D.model inv reach).hullEvents true) := by
  have hev : (D.model inv reach).hullEvents true =
      if (D.converses inv reach).2.isEmpty then (D.converses inv reach).1
      else (D.converses inv reach).2 := rfl
  rw [hev]
  rcases @converses_paired _ _ D inv reach with hnone | ⟨hpreds, hraw⟩
  · rw [hnone]
    exact .inl rfl
  · split
    · exact .inr hpreds
    · exact .inr hraw

omit [DecidableEq σ] in
theorem Paired.zip {ts ps : List (σ → Finset σ)} (h : Paired reach ts ps) :
    ∀ p ∈ ts.zip ps, ∀ x ∈ reach, ∀ y ∈ reach, y ∈ p.1 x → x ∈ p.2 y :=
  fun _ hp x hx y hy => ((List.forall₂_iff_zip.mp h).2 hp x hx y hy).mp

/-- The model handed to the checker has the converses its frontier form relies on. -/
theorem model_converses : (D.model inv reach).Converses := by
  have hnext : (D.model inv reach).hullEvents false = D.nextEvents := rfl
  intro backward
  rcases @hullEvents_paired _ _ D inv reach with hnone | hpair
  · cases backward with
    | true =>
      rw [hnone]
      exact nofun
    | false =>
      rw [Bool.not_false, hnone, List.zip_nil_right]
      exact nofun
  · cases backward with
    | true =>
      rw [Bool.not_true, hnext]
      exact hpair.flip.zip
    | false =>
      rw [Bool.not_false, hnext]
      exact hpair.zip

end System

/-! ## The fixpoints -/

/-- The deflationary closure is the greatest set below its argument that the term covers, on
every part of a diagram, exactly when the term keeps there what it covers; a monotone term
does wherever it returns. In the checker the hulls of the two forms are one set, the search
through a closure answers for the closure, and the question whether a set is empty agrees
with the set. -/
theorem fixpoints_agree (m : Manager) :
    (∀ (s : Shape) (t : Term s), m.WF s t → ∀ d, m.Canon s d →
      ((∀ x, m.Canon s x → den s x ⊆ den s d → m.GfpRight s t x) ↔ m.KeepsCovered s t d) ∧
      (m.Monotone s t → ((∃ r, m.GivesGfp s t d r) ↔ ∃ y, m.Gives s t d y) ∧
        ((∃ y, m.Gives s t d y) → m.KeepsCovered s t d ∧ m.GfpRight s t d))) ∧
    (∀ (s : Shape) (t : Term s), m.WF s t → Term.Tame s t → m.Monotone s t) ∧
    (∀ (σ : Type) [DecidableEq σ] (D : System σ) (inv : Inverter σ) (reach : Finset σ),
      (D.model inv reach).Converses) ∧
    ∀ (σ : Type) [DecidableEq σ] (M : Model σ), M.Converses → M.Inside →
      ∀ (ids : Formula → Nat) (rounds depth : Nat),
      (∀ (backward : Bool) (x0 : Finset σ), x0 ⊆ M.reach → x0.card < rounds →
        ∃ y, M.hull rounds backward x0 = .ok y ∧ M.hullFrontier rounds backward x0 = .ok y) ∧
      (∀ (r : SetExpr) (q sel : Formula) (s c : Finset σ), M.sat ids rounds depth q = .ok s →
        M.eval ids rounds depth (.fwdu r q) = .ok c → c.card < rounds →
        M.existsThrough ids rounds depth r q sel = .ok (decide (M.filter c sel ≠ ∅))) ∧
      ∀ (r : SetExpr) (b : Bool) (c : Finset σ), M.nonempty ids rounds depth r = .ok b →
        M.eval ids rounds depth r = .ok c → (b = true ↔ c ≠ ∅) := by
  refine ⟨fun s t hw d hd => ⟨Manager.gfpRight_below_iff hw, fun hm =>
      ⟨(Manager.givesGfp_greatest hm hd).1, fun hgives => ?_⟩⟩,
    fun s t hw ht => (Manager.tame_steady s t hw ht).1,
    fun σ _ D inv reach => System.model_converses, fun σ _ M hconv hin ids rounds depth => ?_⟩
  · have hkeeps := Manager.keepsCovered_of_steady hm hd hgives
    exact ⟨hkeeps, Manager.gfpRight_of_keeps hw hd hkeeps⟩
  refine ⟨fun backward x0 hx hr => ?_, fun r q sel s c hs hc hr =>
    Model.existsThrough_closure hin hs hc hr, fun r b c hb hc => ?_⟩
  · have hforms : ∃ y, M.hull rounds backward x0 = .ok y ∧
        M.hullFrontier rounds backward x0 = .ok y ∧ _ := Model.hull_forms hconv hx hr
    obtain ⟨y, hround, hfront, -⟩ := hforms
    exact ⟨y, hround, hfront⟩
  · rw [Model.nonempty_agrees hin hb hc]
    exact decide_eq_true_iff

theorem fixpoints_agree_swap :
    (∀ x, (Manager.standard 5 1).Canon (.pair .leaf .leaf) x →
      den (.pair .leaf .leaf) x ⊆ den (.pair .leaf .leaf) [⟨[0, 1], [0]⟩] →
      (Manager.standard 5 1).GfpRight (.pair .leaf .leaf) swapFirst x) ∧
    (∃ y, ((oneStep {0}).model (potentialInverter Nat) {0, 1}).hull 3 false {0, 1} = .ok y ∧
      ((oneStep {0}).model (potentialInverter Nat) {0, 1}).hullFrontier 3 false {0, 1} = .ok y) ∧
    ((oneStep {0}).model (potentialInverter Nat) {0, 1}).existsThrough (fun _ => 0) 3 3 .init .tru
      (.atom 0) = .ok true := by
  obtain ⟨hw, hi, ht⟩ := swapFirst_wf
  have hd : (Manager.standard 5 1).Canon (.pair .leaf .leaf) [⟨[0, 1], [0]⟩] :=
    Manager.canon_single _ (show IntSet.Canon [0, 1] by decide) (show IntSet.Canon [0] by decide)
      (show ([0, 1] : List Int) ≠ [] by decide) (show ([0] : List Int) ≠ [] by decide)
  obtain ⟨hgfp, htame, hconv, hctl⟩ := fixpoints_agree (Manager.standard 5 1)
  obtain ⟨hhull, hthrough, -⟩ := hctl Nat ((oneStep {0}).model (potentialInverter Nat) {0, 1})
    (hconv Nat (oneStep {0}) (potentialInverter Nat) {0, 1})
    ⟨by decide +kernel, by decide +kernel⟩ (fun _ => 0) 3 3
  obtain ⟨hiff, hmono⟩ := hgfp _ _ hw _ hd
  have hkeeps := ((hmono (htame _ _ hw ht)).2 ⟨[⟨[0, 1], [0]⟩], 5, by decide +kernel⟩).1
  refine ⟨hiff.mpr hkeeps, hhull false {0, 1} (by decide +kernel) (by decide), ?_⟩
  rw [hthrough .init .tru (.atom 0) {0, 1} {0, 1} (by decide +kernel) (by decide +kernel)
    (by decide)]
  decide +kernel

/-- The hull of a hull in the head: the states of one prime cycle, and no prime of the
argument is closed under the cycle. -/
theorem gfp_not_greatest :
    let m := Manager.standard 5 1
    let s : Shape := .pair (.pair .leaf .leaf) .leaf
    let h : Term s := OpTerm.node (OpTerm.gfp swapFirst) IntTerm.id
    (m.WF s h ∧ Term.Interned s h ∧ m.Canon s swapStates) ∧
    m.GivesGfp s h swapStates (m.algebra s).none ∧
    ¬ IsGreatest {X | ∃ c, m.Canon s c ∧ den s c = X ∧ X ⊆ den s swapStates ∧ m.Covers s h c}
      (den s (m.algebra s).none) := by
  intro m s h
  obtain ⟨hw, hi, -⟩ := swapFirst_wf
  refine ⟨⟨⟨hw, trivial⟩, ⟨fun hid => (nomatch hid.1), hi, trivial⟩, swapStates_canon⟩,
    ⟨5, by decide +kernel⟩, fun hgreat => ?_⟩
  have hbelow : den s swapCycle ⊆ den s swapStates := by
    have hmeet : (m.algebra s).meet swapCycle swapStates = swapCycle := by decide +kernel
    rw [← Set.inter_eq_left, ← (m.laws s).den_meet swapCycle_canon swapStates_canon, hmeet]
  have hempty := hgreat.2 ⟨swapCycle, swapCycle_canon, rfl, hbelow, swapCycle,
    ⟨5, by decide +kernel⟩, subset_rfl⟩ mem_swapCycle
  rw [(m.laws s).den_none] at hempty
  exact hempty

end LibHSC.Ctl
