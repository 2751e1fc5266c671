import LibHSC.Cegar.Observation
import LibHSC.Cegar.Soundness
import Mathlib.Data.List.ProdSigma

/-!
The refinement of one entry ends and none of its checks fails. Both oracles
answer with a word the hypothesis misclassifies, every such word raises the rank
of the learner, and the rank is bounded by the states of the leaf.
-/

namespace LibHSC.Cegar

/-! ## The oracles -/

section Oracles

variable {leaf : Lts} {h : Classifier}

/-- A positive counterexample is a trace that the hypothesis rejects. -/
theorem certify_spec (hleaf : leaf.WF) (hpos : 0 < h.k)
    (htarget : ∀ c < h.k, ∀ a < leaf.nLetters, h.step c a < h.k) :
    ∃ r, certify leaf h = .ok r ∧ (r.certified = false →
      (∀ a ∈ r.counterexample, a < leaf.nLetters) ∧
      (leaf.fire r.counterexample).isSome = true ∧ h.accepts r.counterexample = false) := by
  have hinit : ((0, 0) : Nat × Nat) ∈ List.range leaf.nStates ×ˢ List.range h.k :=
    List.pair_mem_product.mpr ⟨List.mem_range.mpr hleaf.pos, List.mem_range.mpr hpos⟩
  have hstep : ∀ p ∈ List.range leaf.nStates ×ˢ List.range h.k, ∀ a p',
      pairStep leaf h p a = some p' → a ∈ List.range leaf.nLetters →
      p' ∈ List.range leaf.nStates ×ˢ List.range h.k := by
    rintro ⟨q, c⟩ hp a p' hstep ha
    obtain ⟨-, hc⟩ := List.pair_mem_product.mp hp
    obtain ⟨q', hq', rfl⟩ := Option.map_eq_some_iff.mp hstep
    exact List.pair_mem_product.mpr ⟨List.mem_range.mpr (hleaf.step_lt hq'),
      List.mem_range.mpr (htarget c (List.mem_range.mp hc) a (List.mem_range.mp ha))⟩
  have hfuel : (List.range leaf.nStates ×ˢ List.range h.k).length < leaf.nStates * h.k + 2 := by
    rw [List.length_product, List.length_range, List.length_range]
    omega
  have hsome : (Explore.explore (pairStep leaf h) (fun p => !h.live p.2) (fun _ => false)
      (List.range leaf.nLetters) (leaf.nStates * h.k + 2) (0, 0)).isSome = true :=
    Explore.explore_isSome hinit hstep hfuel
  obtain ⟨o, ho⟩ := Option.isSome_iff_exists.mp hsome
  unfold certify
  rw [ho]
  cases o with
  | capped st => exact absurd ho (Explore.explore_not_capped fun _ => rfl)
  | closed st => exact ⟨_, rfl, fun h => nomatch h⟩
  | found w st =>
    obtain ⟨p, hrun, hgoal, hw⟩ := Explore.explore_found ho
    rw [run_pairStep] at hrun
    obtain ⟨q, hq, rfl⟩ := Option.map_eq_some_iff.mp hrun
    refine ⟨_, rfl, fun _ => ⟨fun a ha => List.mem_range.mp (hw a ha), ?_, ?_⟩⟩
    · show (leaf.fire w).isSome = true
      rw [hq]
      rfl
    · simpa [Classifier.accepts] using hgoal

/-- The gap walk follows the leaf and the table in step, while the table is live. -/
theorem run_gapStep (w : List Nat) : ∀ p, Explore.run (gapStep leaf h) (0, some 0) w = some p ↔
    p = (h.classify w, leaf.fire w) ∧ ∀ u, u <+: w → u ≠ [] → h.accepts u = true := by
  induction w using List.reverseRecOn with
  | nil =>
    intro p
    constructor
    · intro hp
      cases hp
      exact ⟨rfl, fun u hu hne => absurd (List.prefix_nil.mp hu) hne⟩
    · rintro ⟨rfl, -⟩
      rfl
  | append_singleton w a ih =>
    intro p
    have hfire : leaf.fire (w ++ [a]) = (leaf.fire w).bind fun q => leaf.step q a :=
      Explore.run_snoc 0 w a
    rw [Explore.run_snoc, Option.bind_eq_some_iff]
    constructor
    · rintro ⟨p', hp', hstep⟩
      obtain ⟨rfl, hacc⟩ := (ih p').mp hp'
      unfold gapStep at hstep
      split at hstep
      · next hlive =>
        cases hstep
        rw [classify_snoc, hfire]
        refine ⟨rfl, fun u hu hne => ?_⟩
        rcases List.prefix_concat_iff.mp hu with rfl | hu
        · rw [Classifier.accepts, classify_snoc]
          exact hlive
        · exact hacc u hu hne
      · cases hstep
    · rintro ⟨rfl, hacc⟩
      refine ⟨_, (ih _).mpr ⟨rfl, fun u hu hne =>
        hacc u (hu.trans (List.prefix_append w [a])) hne⟩, ?_⟩
      have hlive := hacc (w ++ [a]) List.prefix_rfl (by simp)
      rw [Classifier.accepts, classify_snoc] at hlive
      rw [gapStep, if_pos hlive, classify_snoc, hfire]

/-- A gap is an accepted word that does not fire; without one, what the hypothesis
accepts along all its beginnings fires. -/
theorem reverseGap_spec (hleaf : leaf.WF) (hpos : 0 < h.k)
    (htarget : ∀ c < h.k, ∀ a < leaf.nLetters, h.step c a < h.k) :
    ∃ r, reverseGap leaf h = .ok r ∧
      (∀ w, r = some w → (∀ a ∈ w, a < leaf.nLetters) ∧ h.accepts w = true ∧ leaf.fire w = none) ∧
      (r = none → ∀ w, (∀ a ∈ w, a < leaf.nLetters) →
        (∀ u, u <+: w → u ≠ [] → h.accepts u = true) → (leaf.fire w).isSome = true) := by
  have hinit : ((0, some 0) : Nat × Option Nat) ∈
      List.range h.k ×ˢ (none :: (List.range leaf.nStates).map some) :=
    List.pair_mem_product.mpr ⟨List.mem_range.mpr hpos, List.mem_cons_of_mem _
      (List.mem_map_of_mem (List.mem_range.mpr hleaf.pos))⟩
  have hstep : ∀ p ∈ List.range h.k ×ˢ (none :: (List.range leaf.nStates).map some),
      ∀ a p', gapStep leaf h p a = some p' → a ∈ List.range leaf.nLetters →
      p' ∈ List.range h.k ×ˢ (none :: (List.range leaf.nStates).map some) := by
    rintro ⟨c, o⟩ hp a p' hstep ha
    obtain ⟨hc, -⟩ := List.pair_mem_product.mp hp
    unfold gapStep at hstep
    split at hstep
    · cases hstep
      refine List.pair_mem_product.mpr ⟨List.mem_range.mpr
        (htarget c (List.mem_range.mp hc) a (List.mem_range.mp ha)), ?_⟩
      cases hq : o.bind fun q => leaf.step q a with
      | none => exact List.mem_cons_self
      | some q' =>
        obtain ⟨q, -, hq⟩ := Option.bind_eq_some_iff.mp hq
        exact List.mem_cons_of_mem _ (List.mem_map_of_mem (List.mem_range.mpr (hleaf.step_lt hq)))
    · cases hstep
  have hfuel : (List.range h.k ×ˢ (none :: (List.range leaf.nStates).map some)).length <
      h.k * (leaf.nStates + 1) + 2 := by
    rw [List.length_product, List.length_range, List.length_cons, List.length_map,
      List.length_range]
    omega
  have hsome : (Explore.explore (gapStep leaf h) (fun p => p.2.isNone) (fun _ => false)
      (List.range leaf.nLetters) (h.k * (leaf.nStates + 1) + 2) (0, some 0)).isSome = true :=
    Explore.explore_isSome hinit hstep hfuel
  obtain ⟨o, ho⟩ := Option.isSome_iff_exists.mp hsome
  unfold reverseGap
  rw [ho]
  cases o with
  | capped st => exact absurd ho (Explore.explore_not_capped fun _ => rfl)
  | found w st =>
    obtain ⟨p, hrun, hgoal, hw⟩ := Explore.explore_found ho
    obtain ⟨rfl, hacc⟩ := (run_gapStep w p).mp hrun
    have hnone : leaf.fire w = none := by simpa using hgoal
    refine ⟨_, rfl, fun w' hw' => ?_, fun h => nomatch h⟩
    cases hw'
    refine ⟨fun a ha => List.mem_range.mp (hw a ha), hacc w List.prefix_rfl ?_, hnone⟩
    rintro rfl
    cases hnone
  | closed st =>
    refine ⟨_, rfl, fun w hw => (nomatch hw), fun _ w hw hacc => ?_⟩
    by_cases hne : w = []
    · subst hne
      rfl
    · have hgoal := (Explore.explore_closed ho (fun a ha => List.mem_range.mpr (hw a ha))
        ((run_gapStep w _).mpr ⟨rfl, hacc⟩)).2 hne
      simpa using hgoal

end Oracles

/-! ## The loops -/

theorem Lts.fire_congr {l l' : Lts} (hs : l.serialize = l'.serialize) (w : List Nat) :
    l.fire w = l'.fire w := by
  simp only [Lts.serialize, Prod.mk.injEq] at hs
  unfold Lts.fire Lts.step
  rw [hs.2.1, hs.2.2]

namespace Learner

variable {l l' : Learner}

theorem Grown.length_le (h : Grown l l') : l.S.length ≤ l'.S.length := h.words.length_le

theorem Grown.rank_le (h : Grown l l') : l.rank ≤ l'.rank := by
  have hlen := h.length_le
  have hv := h.virgin
  unfold rank
  cases hv' : l'.virgin with
  | true =>
    rw [hv hv']
    simpa using hlen
  | false => split <;> simp <;> omega

/-- The learner has left chaos, or has a new access word: it is not as before. -/
def Advanced (l l' : Learner) : Prop :=
  l'.virgin = false ∧ (l.virgin = true ∨ l.S.length < l'.S.length)

theorem Advanced.rank_lt (h : Grown l l') (ha : Advanced l l') : l.rank < l'.rank := by
  have hlen := h.length_le
  unfold rank
  rw [ha.1]
  rcases ha.2 with hv | hlt
  · rw [hv]
    simp
    omega
  · split <;> simp <;> omega

theorem Advanced.trans_grown {l'' : Learner} (ha : Advanced l l') (h : Grown l' l'') :
    Advanced l l'' := by
  refine ⟨?_, ha.2.imp_right fun hlt => Nat.lt_of_lt_of_le hlt h.length_le⟩
  cases hv : l''.virgin with
  | false => rfl
  | true => exact absurd (h.virgin hv) (by simp [ha.1])

/-- The published hypothesis rejects a word. -/
def Rejects (l : Learner) (u : List Nat) : Prop :=
  ∃ h, l.published = .ok h ∧ h.accepts u = false

/-- The published hypothesis accepts exactly the traces. -/
def Exact (l : Learner) : Prop :=
  ∃ h, l.published = .ok h ∧ ∀ w, (∀ a ∈ w, a < l.leaf.nLetters) → h.accepts w = l.member w

end Learner

open Learner

section Loops

variable {leaf : Lts} (hleaf : leaf.WF) {closeFuel : Nat} (hclose : leaf.nStates < closeFuel)

/-- The learner is one of the leaf's table, with its invariant. -/
structure Fits (leaf : Lts) (l : Learner) : Prop where
  ok : l.Ok
  table : l.leaf.serialize = leaf.serialize

variable {l l' : Learner}

theorem Fits.states (hl : Fits leaf l) : l.leaf.nStates = leaf.nStates :=
  (Prod.mk.inj hl.table).1

theorem Fits.letters (hl : Fits leaf l) : l.leaf.nLetters = leaf.nLetters :=
  (Prod.mk.inj (Prod.mk.inj hl.table).2).1

theorem Fits.member (hl : Fits leaf l) (w : List Nat) : l.member w = (leaf.fire w).isSome := by
  rw [Learner.member, Lts.fire_congr hl.table]

theorem Fits.nCex_le (hl : Fits leaf l) : l.nCex ≤ leaf.nStates := by
  have h1 := hl.ok.count
  have h2 := hl.ok.length_le
  have h3 := hl.states
  omega

theorem Fits.rank_le (hl : Fits leaf l) : l.rank ≤ leaf.nStates + 2 := hl.states ▸ hl.ok.rank_le

theorem Fits.target (hl : Fits leaf l) {h : Classifier} (hh : Hypothesis l h) :
    ∀ c < h.k, ∀ a < leaf.nLetters, h.step c a < h.k := hl.letters ▸ hh.target

include hclose

/-- A misclassified word advances a learner that fits the leaf. -/
theorem Fits.add (hl : Fits leaf l) {h : Classifier} (hh : Hypothesis l h) {w : List Nat}
    (hw : ∀ a ∈ w, a < leaf.nLetters) (hmis : h.accepts w ≠ (leaf.fire w).isSome) :
    ∃ l', l.addCounterexample closeFuel w = .ok l' ∧ Fits leaf l' ∧ Grown l l' ∧ Advanced l l' := by
  obtain ⟨l', h1, h2, h3, h4, h5⟩ := hl.ok.addCounterexample hh (hl.states ▸ hclose)
    (hl.letters ▸ hw) (by rw [hl.member]; exact hmis)
  exact ⟨l', h1, ⟨h2, h3.leaf ▸ hl.table⟩, h3, h4, h5⟩

include hleaf

theorem certifyLoop_spec (fuel : Nat) : ∀ {l : Learner}, Fits leaf l →
    leaf.nStates + 2 < fuel + l.rank →
    ∃ l', certifyLoop leaf (leaf.nStates + 1) closeFuel fuel l = .ok l' ∧ Fits leaf l' ∧
      Grown l l' := by
  induction fuel with
  | zero =>
    intro l hl hfuel
    have hle := hl.rank_le
    omega
  | succ fuel ih =>
    intro l hl hfuel
    obtain ⟨h, hpub, hh⟩ := hl.ok.published
    obtain ⟨r, hr, hcex⟩ := certify_spec hleaf hh.pos (hl.target hh)
    simp only [certifyLoop, hpub, hr, bind, Except.bind]
    split
    · exact ⟨l, rfl, hl, .refl l⟩
    · next hnot =>
      obtain ⟨hw, hfire, hacc⟩ := hcex (by simpa using hnot)
      rw [if_neg (by have hle := hl.nCex_le; omega)]
      obtain ⟨l₁, hadd, hl₁, hg₁, ha₁⟩ := hl.add hclose hh hw (by rw [hacc, hfire]; decide)
      have hrank := ha₁.rank_lt hg₁
      obtain ⟨l₂, hl₂, hf₂, hg₂⟩ := ih hl₁ (by omega)
      simp only [hadd]
      exact ⟨l₂, hl₂, hf₂, hg₁.trans hg₂⟩

/-- Refining until resolved ends with a hypothesis that rejects the word, and
advances a learner that accepted it. -/
theorem refineUntilResolved_spec {u : List Nat} (hu : ∀ a ∈ u, a < leaf.nLetters)
    (hnot : leaf.fire u = none) (fuel : Nat) : ∀ {l : Learner}, Fits leaf l →
    leaf.nStates + 2 < fuel + l.rank →
    ∃ l', refineUntilResolved leaf (leaf.nStates + 1) closeFuel u fuel l = .ok l' ∧
      Fits leaf l' ∧ Grown l l' ∧ l'.Rejects u ∧ (¬ l.Rejects u → Advanced l l') := by
  induction fuel with
  | zero =>
    intro l hl hfuel
    have hle := hl.rank_le
    omega
  | succ fuel ih =>
    intro l hl hfuel
    obtain ⟨h, hpub, hh⟩ := hl.ok.published
    rw [refineUntilResolved, if_neg (by have hle := hl.nCex_le; omega)]
    simp only [hpub, bind, Except.bind]
    split
    · next hacc =>
      obtain ⟨l₁, hadd, hl₁, hg₁, ha₁⟩ := hl.add hclose hh hu (by rw [hacc, hnot]; decide)
      have hrank := ha₁.rank_lt hg₁
      obtain ⟨l₂, hloop, hl₂, hg₂⟩ := certifyLoop_spec hleaf hclose (fuel + 1) hl₁ (by omega)
      obtain ⟨h₂, hpub₂, hh₂⟩ := hl₂.ok.published
      have hadv := ha₁.trans_grown hg₂
      simp only [hadd, hloop, hpub₂]
      split
      · have hrank₂ := hg₂.rank_le
        obtain ⟨l₃, h3, hl₃, hg₃, hrej, -⟩ := ih hl₂ (by omega)
        exact ⟨l₃, h3, hl₃, (hg₁.trans hg₂).trans hg₃, hrej, fun _ => hadv.trans_grown hg₃⟩
      · next hrej =>
        exact ⟨l₂, rfl, hl₂, hg₁.trans hg₂, ⟨h₂, hpub₂, by simpa using hrej⟩, fun _ => hadv⟩
    · next hrej =>
      have hrejects : l.Rejects u := ⟨h, hpub, by simpa using hrej⟩
      obtain ⟨r, hr, hcex⟩ := certify_spec hleaf hh.pos (hl.target hh)
      simp only [hr]
      split
      · exact ⟨l, rfl, hl, .refl l, hrejects, fun hn => absurd hrejects hn⟩
      · next hnc =>
        obtain ⟨hw, hfire, hacc⟩ := hcex (by simpa using hnc)
        obtain ⟨l₁, hadd, hl₁, hg₁, ha₁⟩ := hl.add hclose hh hw (by rw [hacc, hfire]; decide)
        have hrank := ha₁.rank_lt hg₁
        obtain ⟨l₂, h2, hl₂, hg₂, hrej₂, -⟩ := ih hl₁ (by omega)
        simp only [hadd]
        exact ⟨l₂, h2, hl₂, hg₁.trans hg₂, hrej₂, fun hn => absurd hrejects hn⟩

/-- Driving to the exact rung ends there. -/
theorem driveExact_spec (fuel : Nat) : ∀ {l : Learner}, Fits leaf l →
    leaf.nStates + 2 < fuel + l.rank →
    ∃ l', driveExact leaf (leaf.nStates + 1) closeFuel fuel l = .ok l' ∧ Fits leaf l' ∧
      Grown l l' ∧ l'.Exact := by
  induction fuel with
  | zero =>
    intro l hl hfuel
    have hle := hl.rank_le
    omega
  | succ fuel ih =>
    intro l hl hfuel
    obtain ⟨h, hpub, hh⟩ := hl.ok.published
    obtain ⟨r, hr, hcex⟩ := certify_spec hleaf hh.pos (hl.target hh)
    obtain ⟨g, hg, hgap, hnone⟩ := reverseGap_spec hleaf hh.pos (hl.target hh)
    rw [driveExact, if_neg (by have hle := hl.nCex_le; omega)]
    simp only [hpub, hr, bind, Except.bind]
    split
    · next hcert =>
      simp only [hg]
      cases g with
      | some w =>
        obtain ⟨hw, hacc, hfire⟩ := hgap w rfl
        obtain ⟨l₁, hadd, hl₁, hg₁, ha₁⟩ := hl.add hclose hh hw (by rw [hacc, hfire]; decide)
        have hrank := ha₁.rank_lt hg₁
        obtain ⟨l₂, h2, hl₂, hg₂, hex⟩ := ih hl₁ (by omega)
        simp only [hadd]
        exact ⟨l₂, h2, hl₂, hg₁.trans hg₂, hex⟩
      | none =>
        refine ⟨l, rfl, hl, .refl l, h, hpub, fun w hw => ?_⟩
        have hw' : ∀ a ∈ w, a < leaf.nLetters := hl.letters ▸ hw
        rw [hl.member]
        cases hacc : h.accepts w with
        | true =>
          refine (hnone rfl w hw' fun u hu _ => ?_).symm
          obtain ⟨v, rfl⟩ := hu
          exact hh.down hl.ok hw hacc
        | false =>
          cases hf : (leaf.fire w).isSome with
          | false => rfl
          | true =>
            by_cases hne : w = []
            · subst hne
              rw [hh.accepts_nil hl.ok] at hacc
              cases hacc
            · rw [included_of_certify hr hcert w hne hw' hf] at hacc
              cases hacc
    · next hnc =>
      obtain ⟨hw, hfire, hacc⟩ := hcex (by simpa using hnc)
      obtain ⟨l₁, hadd, hl₁, hg₁, ha₁⟩ := hl.add hclose hh hw (by rw [hacc, hfire]; decide)
      have hrank := ha₁.rank_lt hg₁
      obtain ⟨l₂, h2, hl₂, hg₂, hex⟩ := ih hl₁ (by omega)
      simp only [hadd]
      exact ⟨l₂, h2, hl₂, hg₁.trans hg₂, hex⟩

/-- The refinement of one entry: no check fails, the learner advances and rejects
the word; after the exact jump it is exact. -/
theorem refineEntry_spec {u : List Nat} (hu : ∀ a ∈ u, a < leaf.nLetters)
    (hnot : leaf.fire u = none) {fuel : Nat} (jumpExact : Bool) (hl : Fits leaf l)
    (hacc : ¬ l.Rejects u) (hfuel : leaf.nStates + 2 < fuel) :
    ∃ l', refineEntry leaf (leaf.nStates + 1) closeFuel jumpExact u fuel l = .ok l' ∧
      Fits leaf l' ∧ Grown l l' ∧ l'.Rejects u ∧ Advanced l l' ∧
      (jumpExact = true → l'.Exact) := by
  obtain ⟨l₁, h1, hl₁, hg₁, hrej, hadv⟩ :=
    refineUntilResolved_spec hleaf hclose hu hnot fuel hl (by omega)
  simp only [refineEntry, h1, bind, Except.bind]
  cases jumpExact with
  | false => exact ⟨l₁, rfl, hl₁, hg₁, hrej, hadv hacc, fun h => nomatch h⟩
  | true =>
    obtain ⟨l₂, h2, hl₂, hg₂, hex⟩ := driveExact_spec hleaf hclose fuel hl₁ (by omega)
    refine ⟨l₂, h2, hl₂, hg₁.trans hg₂, ?_, (hadv hacc).trans_grown hg₂, fun _ => hex⟩
    obtain ⟨h, hpub, hex⟩ := hex
    refine ⟨h, hpub, ?_⟩
    rw [hex u (hl₂.letters ▸ hu), hl₂.member, hnot]
    rfl

end Loops

/-! ## The published index -/

namespace Learner

variable {l l' : Learner}

/-- No two rows of the table accept the same words, so that publication keeps them
apart. -/
def Reduced (l : Learner) : Prop := ∀ t, l.table = .ok t → t.Reduced

/-- The number of classes a learner publishes. -/
def index (l : Learner) : Nat :=
  match l.published with
  | .ok h => h.k
  | .error _ => 0

theorem index_eq {h : Classifier} (hpub : l.published = .ok h) : l.index = h.k := by
  rw [index, hpub]

theorem Ok.index_le (hl : l.Ok) : l.index ≤ l.S.length := by
  obtain ⟨h, hpub, hh⟩ := hl.published
  rw [index_eq hpub]
  exact hh.size

theorem Ok.index_of_reduced (hl : l.Ok) (hv : l.virgin = false) (hred : l.Reduced) :
    l.index = l.S.length := by
  obtain ⟨h, hpub, hh⟩ := hl.published
  obtain ⟨t, ht, htab, hpre⟩ := hh.table hv
  rw [index_eq hpub, ← htab.count]
  refine hpre.full (hred t ht) fun c hc => ?_
  rw [htab.count] at hc
  refine ⟨l.rep c, ?_, htab.classify_rep hl hc⟩
  rw [htab.letters]
  exact hl.letters (rep_mem hc)

/-- An exact table is reduced: the experiments tell its rows apart, and the table
answers them as the leaf does. -/
theorem Exact.reduced (hl : l.Ok) (hv : l.virgin = false) (hex : l.Exact) : l.Reduced := by
  obtain ⟨h, hpub, hh⟩ := hl.published
  obtain ⟨h', hpub', hex⟩ := hex
  rw [hpub] at hpub'
  cases hpub'
  obtain ⟨t, ht, htab, hpre⟩ := hh.table hv
  intro t' ht'
  rw [ht] at ht'
  cases ht'
  intro c hc d hd hne
  rw [htab.count] at hc hd
  have hrow : l.row (l.rep c) ≠ l.row (l.rep d) := fun hrow => hne (hl.rep_inj hc hd hrow)
  obtain ⟨e, he, hdiff⟩ : ∃ e ∈ l.E, l.member (l.rep c ++ e) ≠ l.member (l.rep d ++ e) := by
    by_contra hall
    refine hrow (row_eq_iff.mpr fun e he => ?_)
    by_contra hdiff
    exact hall ⟨e, he, hdiff⟩
  have hletters := hl.experiments e he
  have hlive : ∀ i < l.S.length, t.isLive (e.foldl t.step i) = l.member (l.rep i ++ e) := by
    intro i hi
    have hword : ∀ a ∈ l.rep i ++ e, a < l.leaf.nLetters := by
      intro a ha
      rcases List.mem_append.mp ha with ha | ha
      · exact hl.letters (rep_mem hi) a ha
      · exact hletters a ha
    have hclass : t.classify (l.rep i ++ e) = e.foldl t.step i := by
      rw [RawTable.classify, List.foldl_append]
      exact congrArg (fun c => e.foldl t.step c) (htab.classify_rep hl hi)
    rw [← hex _ hword, hpre.accepts _ (htab.letters ▸ hword), hclass]
  refine ⟨e, htab.letters ▸ hletters, ?_⟩
  rw [hlive c hc, hlive d hd]
  exact hdiff

/-- An entry that advances publishes more classes: from chaos it gets a dead class,
and a reduced table has one for each access word. -/
theorem Advanced.index_lt {u : List Nat} (hl : l.Ok) (hl' : l'.Ok) (ha : Advanced l l')
    (hu : ∀ a ∈ u, a < l'.leaf.nLetters) (hrej : l'.Rejects u)
    (hred : l.virgin = false → l'.Reduced) : l.index < l'.index := by
  cases hv : l.virgin with
  | true =>
    obtain ⟨h, hpub, hh⟩ := hl.published
    obtain ⟨h', hpub', hh'⟩ := hl'.published
    obtain ⟨t, -, htab, hpre⟩ := hh'.table ha.1
    obtain ⟨h₀, hpub₀, hrej⟩ := hrej
    rw [hpub'] at hpub₀
    cases hpub₀
    rw [index_eq hpub, index_eq hpub', (hh.chaos hv).1]
    exact hpre.two u (htab.letters ▸ hu) hrej
  | false =>
    rcases ha.2 with h | hlt
    · rw [hv] at h
      cases h
    · rw [hl'.index_of_reduced ha.1 (hred hv)]
      exact Nat.lt_of_le_of_lt hl.index_le hlt

end Learner

end LibHSC.Cegar
