import LibHSC.Cegar.Profile

/-!
A run of the loop over its rounds. The profile keeps the invariant of its
learners, so every check of a round passes but one: the progress check counts
published classes, and a table can grow while its publication does not. It passes
whenever the tables the round leaves are reduced.
-/

namespace LibHSC.Cegar

open Learner

/-! ## The refinement of a round -/

/-- What a round does to an entry: nothing, or it advances, rejects a word of its
alphabet, and is exact after the jump. -/
def Updated (opt : Options) (l l' : Learner) : Prop :=
  l' = l ∨ (Grown l l' ∧ Advanced l l' ∧ (opt.jumpExact = true → l'.Exact) ∧
    ∃ u, (∀ a ∈ u, a < l'.leaf.nLetters) ∧ l'.Rejects u)

/-- The leaf refuses its projection of the word. -/
structure Culprit (m : Model) (w : List Nat) (c : Nat) : Prop where
  leaf : c < m.leaves.length
  letters : ∀ a ∈ m.project w c, a < (m.leaf c).nLetters
  refuses : (m.leaf c).fire (m.project w c) = none

/-- Replacing an entry by a learner that fits one of its leaves. -/
theorem Profile.Ready.set {m : Model} {p : Profile} (hp : p.Ready m) {c e : Nat} {l l' : Learner}
    (hc : p.ofLeaf[c]? = some (some e)) (hl : p.entries[e]? = some l) (hg : Grown l l')
    (hfit : Fits (m.leaf c) l') (hcert : l'.Certified (m.leaf c)) :
    ({ p with entries := p.entries.set e l' } : Profile).Ready m := by
  refine ⟨hp.sound.set hc hcert, ?_, ?_, hp.props, by simpa using hp.few⟩
  · intro i e' l₀ hi hl₀
    by_cases he : e = e'
    · subst he
      have hlt := (List.getElem?_eq_some_iff.mp hl).1
      rw [List.getElem?_set_self hlt] at hl₀
      cases hl₀
      exact ⟨hfit.ok, hfit.table.trans (hp.sound.shared c i e hc hi)⟩
    · rw [List.getElem?_set_ne he] at hl₀
      exact hp.fits i e' l₀ hi hl₀
  · show p.entryStates = (p.entries.set e l').map _
    rw [List.map_set, hp.states, hg.leaf]
    refine List.ext_getElem? fun i => ?_
    rw [List.getElem?_set]
    split
    · next he =>
      subst he
      obtain ⟨hlt, hget⟩ := List.getElem?_eq_some_iff.mp hl
      simp [hlt, hget]
    · rfl

/-- Each entry of the culprits is refined once: no check fails, and it advances. -/
theorem refineCulprits_spec {m : Model} (hm : m.WF) (opt : Options) {fuel : Nat} {w : List Nat}
    (hfuel : ∀ i < m.leaves.length, (m.leaf i).nStates + 2 < fuel) :
    ∀ {cs : List Nat} (done : List Nat) {p : Profile}, p.Ready m → (∀ c ∈ cs, Culprit m w c) →
    (∀ c ∈ cs, ∀ (e : Nat) (l : Learner), p.ofLeaf[c]? = some (some e) → e ∉ done →
      p.entries[e]? = some l → ¬ l.Rejects (m.project w c)) →
    ∃ p', refineCulprits m opt fuel w cs done p = .ok p' ∧ p'.Ready m ∧ p'.ofLeaf = p.ofLeaf ∧
      List.Forall₂ (Updated opt) p.entries p'.entries ∧
      (∀ e ∈ done, p'.entries[e]? = p.entries[e]?) ∧
      ∀ c ∈ cs, ∀ (e : Nat) (l : Learner), p.ofLeaf[c]? = some (some e) → e ∉ done →
        p.entries[e]? = some l → ∃ l', p'.entries[e]? = some l' ∧ Advanced l l' := by
  intro cs
  induction cs with
  | nil =>
    intro done p hp _ _
    refine ⟨p, rfl, hp, rfl, ?_, fun _ _ => rfl, by simp⟩
    exact List.forall₂_same.mpr fun l _ => Or.inl rfl
  | cons c cs ih =>
    intro done p hp hcs hacc
    obtain ⟨hc, hcs⟩ := List.forall_mem_cons.mp hcs
    obtain ⟨hacc₀, hacc⟩ := List.forall_mem_cons.mp hacc
    have hskip : (∀ (e : Nat) (l : Learner), p.ofLeaf[c]? = some (some e) → e ∉ done →
        p.entries[e]? = some l → False) → ∃ p', refineCulprits m opt fuel w cs done p = .ok p' ∧
        p'.Ready m ∧ p'.ofLeaf = p.ofLeaf ∧ List.Forall₂ (Updated opt) p.entries p'.entries ∧
        (∀ e ∈ done, p'.entries[e]? = p.entries[e]?) ∧
        ∀ c' ∈ c :: cs, ∀ (e : Nat) (l : Learner), p.ofLeaf[c']? = some (some e) → e ∉ done →
          p.entries[e]? = some l → ∃ l', p'.entries[e]? = some l' ∧ Advanced l l' := by
      intro hno
      obtain ⟨p', h1, h2, h3, h4, h5, h6⟩ := ih done hp hcs hacc
      exact ⟨p', h1, h2, h3, h4, h5, List.forall_mem_cons.mpr
        ⟨fun e l hof he hl => absurd (hno e l hof he hl) id, h6⟩⟩
    have hgetD : ∀ {o : Option Nat}, p.ofLeaf[c]? = some o → p.ofLeaf.getD c none = o := by
      intro o ho
      rw [List.getD_eq_getElem?_getD, ho]
      rfl
    rw [refineCulprits]
    split
    · next hnone =>
      refine hskip fun e l hof _ _ => ?_
      cases (hgetD hof).symm.trans hnone
    next e he =>
    have hsame : ∀ e', p.ofLeaf[c]? = some (some e') → e' = e :=
      fun e' hof => Option.some.inj ((hgetD hof).symm.trans he)
    split
    · next hdone => exact hskip fun e' l hof hnd _ => hnd (hsame e' hof ▸ hdone)
    next hdone =>
    split
    · next hnone =>
      refine hskip fun e' l hof _ hl => ?_
      rw [hsame e' hof, hnone] at hl
      cases hl
    next l hl =>
    have hof : p.ofLeaf[c]? = some (some e) := by
      rw [List.getD_eq_getElem?_getD] at he
      cases ho : p.ofLeaf[c]? with
      | none => rw [ho] at he; cases he
      | some o => rw [ho] at he; exact congrArg some he
    have hfit := hp.fits c e l hof hl
    have hstates : p.entryStates.getD e 0 = (m.leaf c).nStates := by
      rw [hp.states, List.getD_eq_getElem?_getD, List.getElem?_map, hl]
      exact hfit.states
    have hleaf := hm.leaf hc.leaf
    have hlt := hfuel c hc.leaf
    have hclose : (m.leaf c).nStates < fuel := by omega
    obtain ⟨l', h1, hfit', hg, hrej, hadv, hex⟩ := refineEntry_spec hleaf hclose hc.letters
      hc.refuses opt.jumpExact hfit (hacc₀ e l hof hdone hl) hlt
    have hcert := refineEntry_certified h1
    have hready := hp.set hof hl hg hfit' hcert
    obtain ⟨h, hpub, hrej'⟩ := id hrej
    have hother : ∀ e', e ≠ e' → (p.entries.set e l')[e']? = p.entries[e']? :=
      fun e' hne => List.getElem?_set_ne hne
    obtain ⟨p', h2, h3, h4, h5, h6, h7⟩ := ih (e :: done) hready hcs (by
      intro c' hc' e' l₀ hof' hnd hl₀
      rw [List.mem_cons, not_or] at hnd
      have hl₁ : p.entries[e']? = some l₀ := by
        rw [← hother e' (Ne.symm hnd.1)]
        exact hl₀
      exact hacc c' hc' e' l₀ hof' hnd.2 hl₁)
    have hset : p'.entries[e]? = some l' := by
      rw [h6 e List.mem_cons_self]
      exact List.getElem?_set_self (List.getElem?_eq_some_iff.mp hl).1
    have hupd : Updated opt l l' := Or.inr ⟨hg, hadv, hex, _,
      by rw [hfit'.letters]; exact hc.letters, hrej⟩
    refine ⟨p', ?_, h3, h4, ?_, ?_, List.forall_mem_cons.mpr ⟨?_, ?_⟩⟩
    · simp only [hstates, h1, hpub, hrej', bind, Except.bind]
      exact h2
    · rw [List.forall₂_iff_get] at h5 ⊢
      obtain ⟨hlen, hget⟩ := h5
      have hlen' : p.entries.length = p'.entries.length := by simpa using hlen
      refine ⟨hlen', fun i hi hi' => ?_⟩
      by_cases hie : e = i
      · subst hie
        have hl' : p.entries[e] = l := (List.getElem?_eq_some_iff.mp hl).2
        have hset' : p'.entries[e] = l' := (List.getElem?_eq_some_iff.mp hset).2
        rw [List.get_eq_getElem, List.get_eq_getElem, hl', hset']
        exact hupd
      · have hone := hget i (by simpa using hi) hi'
        simpa [hie] using hone
    · intro e' he'
      rw [h6 e' (List.mem_cons_of_mem _ he')]
      exact hother e' fun heq => hdone (heq ▸ he')
    · intro e' l₀ hof' _ hl₀
      obtain rfl := hsame e' hof'
      rw [hl] at hl₀
      cases hl₀
      exact ⟨l', hset, hadv⟩
    · intro c' hc' e' l₀ hof' hnd hl₀
      by_cases hee : e = e'
      · subst hee
        rw [hl] at hl₀
        cases hl₀
        exact ⟨l', hset, hadv⟩
      · refine h7 c' hc' e' l₀ hof' ?_ ?_
        · rw [List.mem_cons, not_or]
          exact ⟨Ne.symm hee, hnd⟩
        · rw [← hl₀]
          exact hother e' hee

theorem pickCulprits_subset {h : Nat → Option Classifier} {pick : Culprits} {culprits : List Nat} :
    ∀ c ∈ pickCulprits h pick culprits, c ∈ culprits := by
  cases pick with
  | all => exact fun c hc => hc
  | first => exact fun c hc => List.mem_of_mem_take hc
  | cheapest =>
    cases culprits with
    | nil => exact fun c hc => hc
    | cons c₀ cs =>
      -- the best so far is one of the leaves seen
      have hfold : ∀ (f : Nat → Nat) (xs : List Nat) (b : Nat),
          xs.foldl (fun best i => if f i < f best then i else best) b ∈ b :: xs := by
        intro f xs
        induction xs with
        | nil => simp
        | cons x xs ih =>
          intro b
          rw [List.foldl_cons]
          split
          · exact List.mem_cons_of_mem _ (ih x)
          · rcases List.mem_cons.mp (ih b) with hb | hb
            · rw [hb]
              exact List.mem_cons_self
            · exact List.mem_cons_of_mem _ (List.mem_cons_of_mem _ hb)
      intro c hc
      rw [List.mem_singleton.mp hc]
      rcases List.mem_cons.mp (hfold _ (c₀ :: cs) c₀) with hb | hb
      · rw [hb]
        exact List.mem_cons_self
      · exact hb

theorem pickCulprits_ne_nil {h : Nat → Option Classifier} {pick : Culprits} {culprits : List Nat}
    (hne : culprits ≠ []) : pickCulprits h pick culprits ≠ [] := by
  cases culprits with
  | nil => exact absurd rfl hne
  | cons c cs =>
    cases pick with
    | all => exact hne
    | first => simp [pickCulprits]
    | cheapest => simp [pickCulprits]

/-- Term by term no larger, and once smaller. -/
theorem sum_lt_of_forall₂ {f : Learner → Nat} {ls ls' : List Learner}
    (h : List.Forall₂ (fun l l' => f l ≤ f l') ls ls') : ∀ {e : Nat} {l l' : Learner},
    ls[e]? = some l → ls'[e]? = some l' → f l < f l' → (ls.map f).sum < (ls'.map f).sum := by
  have hle : ∀ {xs ys : List Learner}, List.Forall₂ (fun l l' => f l ≤ f l') xs ys →
      (xs.map f).sum ≤ (ys.map f).sum := by
    intro xs ys hall
    induction hall with
    | nil => exact Nat.le_refl _
    | cons hx _ ih =>
      rw [List.map_cons, List.map_cons, List.sum_cons, List.sum_cons]
      omega
  induction h with
  | nil =>
    intro e l l' hl
    simp at hl
  | cons hx hrest ih =>
    intro e l l' hl hl' hlt
    rw [List.map_cons, List.map_cons, List.sum_cons, List.sum_cons]
    cases e with
    | zero =>
      cases hl
      cases hl'
      have hsum := hle hrest
      omega
    | succ e =>
      have hsum := ih (e := e) hl hl' hlt
      omega

theorem Updated.grown {opt : Options} {l l' : Learner} (h : Updated opt l l') : Grown l l' := by
  rcases h with rfl | ⟨hg, -⟩
  · exact .refl _
  · exact hg

/-- The progress of a profile. -/
def Profile.rank (p : Profile) : Nat := (p.entries.map Learner.rank).sum

theorem Profile.Ready.rank_le {m : Model} {p : Profile} (hp : p.Ready m)
    (hlen : p.ofLeaf.length = m.leaves.length) : p.rank ≤ m.leaves.length * m.width := by
  have hone : ∀ x ∈ p.entries.map Learner.rank, x ≤ m.width := by
    intro x hx
    obtain ⟨l, hl, rfl⟩ := List.mem_map.mp hx
    obtain ⟨e, he, rfl⟩ := List.mem_iff_getElem.mp hl
    obtain ⟨i, -, hi⟩ := hp.owned he
    have hfit := hp.fits i e _ hi (List.getElem?_eq_getElem he)
    have hilt : i < m.leaves.length := by
      rw [← hlen]
      exact (List.getElem?_eq_some_iff.mp hi).1
    have h1 := hfit.rank_le
    have h2 := nStates_le_sum hilt
    unfold Model.width
    omega
  have hsum : p.rank ≤ (p.entries.map Learner.rank).length * m.width :=
    List.sum_le_card_nsmul _ _ hone
  rw [List.length_map] at hsum
  exact hsum.trans (Nat.mul_le_mul_right _ (hlen ▸ hp.few))

/-! ## Runs -/

/-- A round that refines: a spurious witness is found, and the entries of its
picked culprits are refined. -/
def Refines (m : Model) (opt : Options) (fuel : Nat) (p p' : Profile) : Prop :=
  ∃ pubs w states culprits, p.published = .ok pubs ∧
    search m (p.classifierOf pubs) opt.cap fuel = .ok (.found w states) ∧
    replay m w (List.range m.leaves.length) = .ok culprits ∧ culprits ≠ [] ∧
    refineCulprits m opt fuel w (pickCulprits (p.classifierOf pubs) opt.pick culprits) [] p = .ok p'

/-- The profiles a run goes through. -/
inductive Reached (m : Model) (opt : Options) (fuel : Nat) : Profile → Prop where
  | start {p : Profile} : Profile.build m opt.intern fuel = .ok p → Reached m opt fuel p
  | round {p p' : Profile} : Reached m opt fuel p → Refines m opt fuel p p' → Reached m opt fuel p'

/-- Whenever a round refines an entry that had left chaos before, no two rows of
the table it leaves accept the same words. -/
def Steady (m : Model) (opt : Options) (fuel : Nat) : Prop :=
  ∀ p p', Reached m opt fuel p → Refines m opt fuel p p' → ∀ (e : Nat) (l l' : Learner),
    p.entries[e]? = some l → p'.entries[e]? = some l' → l' ≠ l → l.virgin = false → l'.Reduced

/-- Fuel that no loop of a run uses up. -/
def Model.enough (m : Model) : Nat :=
  m.abstractStates.length + m.leaves.length * m.width + m.width + 1

section Run

variable {m : Model} (hm : m.WF) {opt : Options} {fuel : Nat} (hfuel : m.enough ≤ fuel)

include hfuel

theorem enough_states : ∀ i < m.leaves.length, (m.leaf i).nStates + 2 < fuel := by
  intro i hi
  have hle := nStates_le_sum hi
  unfold Model.enough Model.width at hfuel
  omega

include hm

/-- A profile a round refines: the refinement goes through, every entry it touches
advances, and one is touched. -/
theorem refine_round {p : Profile} (hp : p.Ready m) (hlen : p.ofLeaf.length = m.leaves.length)
    {pubs : List Classifier} (hpubs : p.published = .ok pubs) {w : List Nat}
    {states : List (List Nat × List Nat)}
    (hs : search m (p.classifierOf pubs) opt.cap fuel = .ok (.found w states)) :
    ∃ culprits, replay m w (List.range m.leaves.length) = .ok culprits ∧ (culprits ≠ [] →
      ∃ p', refineCulprits m opt fuel w (pickCulprits (p.classifierOf pubs) opt.pick culprits)
          [] p =
          .ok p' ∧ p'.Ready m ∧ p'.ofLeaf = p.ofLeaf ∧
        List.Forall₂ (Updated opt) p.entries p'.entries ∧
        ∃ (e : Nat) (l l' : Learner), p.entries[e]? = some l ∧ p'.entries[e]? = some l' ∧
          Advanced l l') := by
  obtain ⟨pubs', hpubs', hall⟩ := hp.published
  rw [hpubs] at hpubs'
  cases hpubs'
  have hwalk : productWalk m (m.productStep (abstractMove (p.classifierOf pubs))) opt.cap fuel =
      some (.found w states) := by
    unfold search at hs
    split at hs
    · cases hs
    · next heq =>
      cases hs
      exact heq
  obtain ⟨hw, st, hrun, -⟩ := productWalk_found hwalk
  obtain ⟨hmon, hleaves⟩ := (run_product hm hw (run_length hm hw hrun)).mp hrun
  obtain ⟨culprits, hre, hspec⟩ := replay_spec hm hw hmon (List.range m.leaves.length)
  refine ⟨culprits, hre, fun hne => ?_⟩
  have hpick : ∀ c ∈ pickCulprits (p.classifierOf pubs) opt.pick culprits, c ∈ culprits :=
    pickCulprits_subset
  have hlt : ∀ c ∈ culprits, c < m.leaves.length := fun c hc => List.mem_range.mp (hspec c hc).1
  -- a culprit accepts in the abstract product what it refuses
  have hacc : ∀ c ∈ culprits, ∀ (e : Nat) (l : Learner), p.ofLeaf[c]? = some (some e) →
      p.entries[e]? = some l → ¬ l.Rejects (m.project w c) := by
    rintro c hc e l hof hl ⟨h, hpub, hrej⟩
    have hlt' : e < pubs.length := hall.length_eq ▸ (List.getElem?_eq_some_iff.mp hl).1
    have hH : p.classifierOf pubs c = some pubs[e] := by
      rw [Profile.classifierOf, List.getD_eq_getElem?_getD, hof]
      exact List.getElem?_eq_getElem hlt'
    have hboth := (forall₂_getElem? hall hl (List.getElem?_eq_getElem hlt')).1
    rw [hpub] at hboth
    have hyes := (run_abstractMove_eq hH (hleaves c (hlt c hc))).2 (hspec c hc).2.2.1
    rw [← Except.ok.inj hboth, hrej] at hyes
    cases hyes
  obtain ⟨p', h1, h2, h3, h4, -, h6⟩ := refineCulprits_spec hm opt (enough_states hfuel) [] hp
    (fun c hc => ⟨hlt c (hpick c hc), project_letters hm hw c, (hspec c (hpick c hc)).2.2.2⟩)
    (fun c hc e l hof _ hl => hacc c (hpick c hc) e l hof hl)
  refine ⟨p', h1, h2, h3, h4, ?_⟩
  have hpicked : pickCulprits (p.classifierOf pubs) opt.pick culprits ≠ [] :=
    pickCulprits_ne_nil hne
  obtain ⟨c, hc⟩ := List.exists_mem_of_ne_nil _ hpicked
  have hcul := hpick c hc
  have hentry : ∃ e, p.ofLeaf[c]? = some (some e) := by
    have hclt : c < p.ofLeaf.length := by
      rw [hlen]
      exact hlt c hcul
    cases ho : p.ofLeaf[c] with
    | none =>
      have hprop := hp.props c (by rw [List.getElem?_eq_getElem hclt, ho])
      rw [(hspec c hcul).2.1] at hprop
      cases hprop
    | some e => exact ⟨e, by rw [List.getElem?_eq_getElem hclt, ho]⟩
  obtain ⟨e, hof⟩ := hentry
  obtain ⟨l, hl, -⟩ := hp.sound.certified c e hof
  obtain ⟨l', hl', hadv⟩ := h6 c hc e l hof (by simp) hl
  exact ⟨e, l, l', hl, hl', hadv⟩

/-- The invariant of a run's profiles. -/
theorem Reached.ready {p : Profile} (hp : Reached m opt fuel p) :
    p.Ready m ∧ p.ofLeaf.length = m.leaves.length := by
  induction hp with
  | start hbuild =>
    have hstart : ∀ i < m.leaves.length, (m.leaf i).nStates < fuel :=
      fun i hi => Nat.lt_of_add_right_lt (enough_states hfuel i hi)
    obtain ⟨p, h1, h2, h3⟩ := build_ready hm opt.intern hstart
    rw [hbuild] at h1
    cases h1
    exact ⟨h2, h3⟩
  | round _ href ih =>
    obtain ⟨pubs, w, states, culprits, hpubs, hs, hre, hne, hp'⟩ := href
    obtain ⟨culprits', hre', hrest⟩ := refine_round hm hfuel ih.1 ih.2 hpubs hs
    rw [hre] at hre'
    cases hre'
    obtain ⟨p'', h1, h2, h3, -⟩ := hrest hne
    rw [hp'] at h1
    cases h1
    exact ⟨h2, by rw [h3]; exact ih.2⟩

/-- What a refining round does to the entries. -/
theorem Refines.updated {p p' : Profile} (hp : Reached m opt fuel p) (h : Refines m opt fuel p p') :
    List.Forall₂ (Updated opt) p.entries p'.entries ∧
      ∃ (e : Nat) (l l' : Learner), p.entries[e]? = some l ∧ p'.entries[e]? = some l' ∧
        Advanced l l' := by
  obtain ⟨hready, hlen⟩ := hp.ready hm hfuel
  obtain ⟨pubs, w, states, culprits, hpubs, hs, hre, hne, hp'⟩ := h
  obtain ⟨culprits', hre', hrest⟩ := refine_round hm hfuel hready hlen hpubs hs
  rw [hre] at hre'
  cases hre'
  obtain ⟨p'', h1, -, -, h4, h5⟩ := hrest hne
  rw [hp'] at h1
  cases h1
  exact ⟨h4, h5⟩

/-- A refining round of any run raises the rank. -/
theorem Refines.rank_lt {p p' : Profile} (hp : Reached m opt fuel p)
    (h : Refines m opt fuel p p') : p.rank < p'.rank := by
  obtain ⟨hall, e, l, l', hl, hl', hadv⟩ := h.updated hm hfuel hp
  have hle := hall.imp fun _ _ hu => hu.grown.rank_le
  exact sum_lt_of_forall₂ hle hl hl' (hadv.rank_lt (forall₂_getElem? hall hl hl').grown)

/-- A refining round of a steady run raises the published index. -/
theorem Refines.index_lt {p p' : Profile} (hsteady : Steady m opt fuel)
    (hp : Reached m opt fuel p) (h : Refines m opt fuel p p') : p.index < p'.index := by
  obtain ⟨hall, e, l, l', hl, hl', hadv⟩ := h.updated hm hfuel hp
  have hready := (hp.ready hm hfuel).1
  have hready' := ((Reached.round hp h).ready hm hfuel).1
  have hone : ∀ (i : Nat) (a b : Learner), p.entries[i]? = some a → p'.entries[i]? = some b →
      Updated opt a b → b = a ∨ a.index < b.index := by
    intro i a b ha hb hupd
    rcases hupd with heq | ⟨-, had, -, u, hu, hrej⟩
    · exact Or.inl heq
    by_cases heq : b = a
    · exact Or.inl heq
    · exact Or.inr (had.index_lt (hready.ok a (List.mem_of_getElem? ha))
        (hready'.ok b (List.mem_of_getElem? hb)) hu hrej
        fun hv => hsteady p p' hp h i a b ha hb heq hv)
  have hle : List.Forall₂ (fun a b => a.index ≤ b.index) p.entries p'.entries := by
    rw [List.forall₂_iff_get] at hall ⊢
    refine ⟨hall.1, fun i h1 h2 => ?_⟩
    rcases hone i _ _ (List.getElem?_eq_getElem h1) (List.getElem?_eq_getElem h2)
      (hall.2 i h1 h2) with heq | hlt
    · exact Nat.le_of_eq (congrArg Learner.index heq.symm)
    · exact Nat.le_of_lt hlt
  refine sum_lt_of_forall₂ hle hl hl' ?_
  rcases hone e l l' hl hl' (forall₂_getElem? hall hl hl') with rfl | hlt
  · rcases hadv.2 with hv | hlt
    · rw [hadv.1] at hv
      cases hv
    · exact absurd hlt (Nat.lt_irrefl _)
  · exact hlt

omit hfuel in
/-- The statistics of a run are computed, within the budget. -/
theorem finish_spec {p : Profile} (hp : p.Ready m) (hlen : p.ofLeaf.length = m.leaves.length)
    {pubs : List Classifier} (hpubs : p.published = .ok pubs) (round : Nat) (v : Verdict)
    (invSize : Nat) (certificate : String) (finalValues : List Int) :
    ∃ r, finish m p pubs round v invSize certificate finalValues = .ok r ∧
      r.cexTotal ≤ r.budget := by
  obtain ⟨pubs', hpubs', hall⟩ := hp.published
  rw [hpubs] at hpubs'
  cases hpubs'
  have hrung : ∀ (e : Nat) (c : Classifier), pubs[e]? = some c → ∃ x, rung m p e c = .ok x := by
    intro e c hc
    obtain ⟨hlt, rfl⟩ := List.getElem?_eq_some_iff.mp hc
    have hlt' : e < p.entries.length := hall.length_eq ▸ hlt
    have hyp := (hall.get hlt' hlt).2
    obtain ⟨i, hi, hof⟩ := hp.owned hlt'
    have hfit := hp.fits i e _ hof (List.getElem?_eq_getElem hlt')
    have hilt : i < m.leaves.length := by
      rw [← hlen]
      exact (List.getElem?_eq_some_iff.mp hof).1
    obtain ⟨g, hg, -⟩ := reverseGap_spec (hm.leaf hilt) hyp.pos (hfit.target hyp)
    unfold rung
    split
    · exact ⟨_, rfl⟩
    · rw [List.getD_eq_getElem?_getD, hi]
      show ∃ x, (reverseGap (m.leaf i) pubs[e] >>= _) = .ok x
      rw [List.get_eq_getElem] at hg
      rw [hg]
      cases g with
      | none => exact ⟨_, rfl⟩
      | some w => exact ⟨_, rfl⟩
  have hcount : ∀ ecs : List (Nat × Classifier), (∀ x ∈ ecs, pubs[x.1]? = some x.2) →
      ∃ x, countRungs m p ecs = .ok x := by
    intro ecs
    induction ecs with
    | nil => exact fun _ => ⟨_, rfl⟩
    | cons x ecs ih =>
      intro hecs
      obtain ⟨hx, hecs⟩ := List.forall_mem_cons.mp hecs
      obtain ⟨y, hy⟩ := hrung x.1 x.2 hx
      obtain ⟨z, hz⟩ := ih hecs
      refine ⟨(y.1 + z.1, y.2.1 + z.2.1, y.2.2 + z.2.2), ?_⟩
      rw [countRungs, hy]
      show (countRungs m p ecs >>= _) = _
      rw [hz]
      rfl
  obtain ⟨counts, hcounts⟩ := hcount ((List.range pubs.length).zip pubs) fun x hx => by
    obtain ⟨i, hi, hget⟩ := List.mem_iff_getElem.mp hx
    have hi' : i < pubs.length := by simpa using hi
    rw [← hget]
    simp [hi']
  simp only [finish, hcounts, bind, Except.bind]
  exact ⟨_, rfl, hp.cexTotal_le⟩

/-- The rounds of a run: it ends in a verdict, or at the progress check, and there
only when it is not steady. By induction on the rounds left: the rank is bounded,
and every round that refines raises it. -/
theorem rounds_spec (n : Nat) : ∀ {p : Profile} (round : Nat), Reached m opt fuel p →
    m.leaves.length * m.width < n + p.rank →
    (∃ r, rounds m opt fuel n p p.index round = .ok r ∧ r.cexTotal ≤ r.budget) ∨
    (rounds m opt fuel n p p.index round = .error (.die "no progress in refinement round") ∧
      ¬ Steady m opt fuel) := by
  induction n with
  | zero =>
    intro p round hp hn
    obtain ⟨hready, hlen⟩ := hp.ready hm hfuel
    have hle := hready.rank_le hlen
    omega
  | succ n ih =>
    intro p round hp hn
    obtain ⟨hready, hlen⟩ := hp.ready hm hfuel
    obtain ⟨pubs, hpubs, hall⟩ := hready.published
    have hwalk : m.abstractStates.length < fuel := by
      unfold Model.enough at hfuel
      omega
    obtain ⟨o, ho⟩ := search_spec hm hready hall opt.cap hwalk
    have hfin := finish_spec hm hready hlen hpubs round
    simp only [rounds, hpubs, ho, bind, Except.bind]
    cases o with
    | capped states => exact Or.inl (hfin _ _ _ _)
    | closed states => exact Or.inl (hfin _ _ _ _)
    | found w states =>
      obtain ⟨culprits, hre, hrest⟩ := refine_round hm hfuel hready hlen hpubs ho
      simp only [hre]
      split
      · next hnil =>
        subst hnil
        have hfire := replay_nil hre
        obtain ⟨values, hvalues⟩ := exists_mapM_ok (f := finalValue m w)
          (l := List.range m.leaves.length) fun i hi => by
            obtain ⟨q, hq⟩ := Option.isSome_iff_exists.mp (hfire i hi)
            exact ⟨_, by rw [finalValue, hq]⟩
        simp only [hvalues]
        exact Or.inl (hfin _ _ _ _)
      · next hne =>
        obtain ⟨p', hp', hready', -⟩ := hrest hne
        have href : Refines m opt fuel p p' :=
          ⟨pubs, w, states, culprits, hpubs, ho, hre, hne, hp'⟩
        have hreached : Reached m opt fuel p' := .round hp href
        have hrank := href.rank_lt hm hfuel hp
        have hn' : m.leaves.length * m.width < n + p'.rank := by omega
        simp only [refineRound, hp', hready'.indexTotal, bind, Except.bind]
        by_cases hidx : p'.index ≤ p.index
        · refine Or.inr ⟨by rw [if_pos hidx], fun hsteady => ?_⟩
          have hlt := href.index_lt hm hfuel hsteady hp
          omega
        · rw [if_neg hidx, if_neg (Nat.not_lt.mpr hready'.cexTotal_le)]
          exact ih _ hreached hn'

end Run

/-- With the exact jump every run is steady: a table that is exact is reduced. -/
theorem steady_of_jumpExact {m : Model} (hm : m.WF) {opt : Options} (hjump : opt.jumpExact = true)
    {fuel : Nat} (hfuel : m.enough ≤ fuel) : Steady m opt fuel := by
  intro p p' hp href e l l' hl hl' hne _
  obtain ⟨hall, -⟩ := href.updated hm hfuel hp
  rcases forall₂_getElem? hall hl hl' with heq | ⟨-, hadv, hex, -⟩
  · exact absurd heq hne
  · have hok := ((Reached.round hp href).ready hm hfuel).1.ok l' (List.mem_of_getElem? hl')
    exact (hex hjump).reduced hok hadv.1

/-- A leaf `x` that is refined twice, for the words `ba` and `aaa` of the property
leaf `p`. The second refinement adds a row, but two rows then accept the same words,
and four classes are published both times. -/
def stalled : Model where
  leaves :=
    [⟨5, 2, [some 3, some 1, some 2, none, none, none, some 4, none, some 2, none],
      [0, 1, 2, 3, 4]⟩,
    ⟨5, 2, [some 1, some 2, some 3, none, none, some 4, none, none, some 2, none], [0, 1, 2, 3, 4]⟩]
  leafNames := ["p", "x"]
  events := [⟨"a", [(0, 0), (1, 0)]⟩, ⟨"b", [(0, 1), (1, 1)]⟩]
  mon := ⟨5, 2, [some 3, some 1, some 2, none, none, none, some 4, none, some 2, none],
    [false, false, true, false, false]⟩
  propLeaves := [0]
  monitorValues := [[0], [1], [2], [3], [4]]
  propertyText := "(== p 2)"

theorem stalled_wf : stalled.WF where
  leaves := by
    refine List.forall_mem_cons.mpr ⟨?_, List.forall_mem_singleton.mpr ?_⟩
    · exact ⟨by decide, by decide, by simp, by decide⟩
    · exact ⟨by decide, by decide, by simp, by decide⟩
  events := by
    refine List.forall_mem_cons.mpr ⟨?_, List.forall_mem_singleton.mpr ?_⟩
    · exact ⟨by decide, by decide, by decide⟩
    · exact ⟨by decide, by decide, by decide⟩
  count := rfl
  props := by decide
  monitor := ⟨by decide, by simp [stalled], by decide⟩
  exact := by
    refine ⟨[[0], [1], [2], [3], [4]], rfl, rfl, ?_⟩
    decide

end LibHSC.Cegar
