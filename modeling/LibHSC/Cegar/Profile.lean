import LibHSC.Cegar.Refine
import Mathlib.Algebra.Order.BigOperators.Group.List
import Mathlib.Algebra.Order.Group.Nat
import Mathlib.Data.List.Sections

/-!
The profile of a run: every entry is a learner with its invariant, built so and
searched so. The walk of the abstract product ends, and the replay of the witness
it finds collects no property leaf.
-/

namespace LibHSC.Cegar

open Learner

/-! ## Replay -/

/-- One event: the tuple steps as the property leaves do, leaf by leaf. -/
theorem tupleStep_fire {m : Model} {w : List Nat} {e : Nat} {ps qs : List Nat}
    (h : List.Forall₂ (fun i q => (m.leaf i).fire (m.project w i) = some q) ps qs) :
    ∀ {next : List Nat}, ((ps.zip qs).mapM fun p =>
      match (m.event e).letterFor p.1 with
      | none => some p.2
      | some a => (m.leaf p.1).step p.2 a) = some next →
    List.Forall₂ (fun i q => (m.leaf i).fire (m.project (w ++ [e]) i) = some q) ps next := by
  induction h with
  | nil =>
    intro next hnext
    cases hnext
    exact .nil
  | cons hq hrest ih =>
    next i q ps qs =>
    intro next hnext
    rw [List.zip_cons_cons, List.mapM_cons] at hnext
    obtain ⟨q', hq', hnext⟩ := Option.bind_eq_some_iff.mp hnext
    obtain ⟨rest, hrest', hnext⟩ := Option.bind_eq_some_iff.mp hnext
    cases hnext
    refine .cons ?_ (ih hrest')
    rw [project_snoc, Lts.fire_append, hq]
    cases hl : (m.event e).letterFor i with
    | none =>
      simp only [hl] at hq'
      cases hq'
      rfl
    | some a =>
      simp only [hl] at hq'
      rw [Option.toList_some]
      show Explore.run (m.leaf i).step q [a] = some q'
      rw [Explore.run_singleton]
      exact hq'

/-- The monitor's state after a word is the tuple of the property leaves' states
after it. By induction on the word, from its end. -/
theorem Model.Exact.run {m : Model} (hm : m.WF) {tuples : List (List Nat)} (hex : m.Exact tuples)
    {w : List Nat} : ∀ {t : Nat}, (∀ e ∈ w, e ∈ m.eventIds) →
    Explore.run m.mon.step 0 w = some t → t < m.mon.nStates ∧ ∃ tuple, tuples[t]? = some tuple ∧
        List.Forall₂ (fun i q => (m.leaf i).fire (m.project w i) = some q) m.propLeaves tuple := by
  induction w using List.reverseRecOn with
  | nil =>
    intro t _ h
    cases h
    have hlt := (List.getElem?_eq_some_iff.mp hex.first).1
    refine ⟨hex.count ▸ hlt, _, hex.first, ?_⟩
    rw [List.forall₂_iff_get]
    refine ⟨by simp, fun i h1 h2 => ?_⟩
    simp [Model.project, Lts.fire, Explore.run]
  | append_singleton w e ih =>
    intro t hw h
    rw [Explore.run_snoc] at h
    obtain ⟨t₀, ht₀, hstep⟩ := Option.bind_eq_some_iff.mp h
    obtain ⟨hlt, tuple, htuple, hall⟩ := ih (fun x hx => hw x (List.mem_append_left _ hx)) ht₀
    have ht : t < m.mon.nStates := hm.monitor.2.1 t (mem_of_entry hstep)
    have hlen : t < tuples.length := by
      rw [hex.count]
      exact ht
    have hnext := hex.step t₀ hlt e (List.mem_range.mp (hw e (by simp)))
    rw [hstep, List.getD_eq_getElem?_getD, htuple] at hnext
    refine ⟨ht, tuples[t], List.getElem?_eq_getElem hlen, tupleStep_fire hall ?_⟩
    rw [← List.getElem?_eq_getElem hlen]
    exact hnext.symm

/-- A word the monitor runs fires in every property leaf. -/
theorem fire_of_isProp {m : Model} (hm : m.WF) {w : List Nat} {t : Nat}
    (hw : ∀ e ∈ w, e ∈ m.eventIds) (hrun : Explore.run m.mon.step 0 w = some t) {i : Nat}
    (hi : m.isProp i = true) : ((m.leaf i).fire (m.project w i)).isSome = true := by
  obtain ⟨tuples, hex⟩ := hm.exact
  obtain ⟨-, tuple, -, hall⟩ := hex.run hm hw hrun
  have hmem : i ∈ m.propLeaves := by simpa [Model.isProp] using hi
  obtain ⟨j, hj, hget⟩ := List.mem_iff_getElem.mp hmem
  have hq := hall.get hj (hall.length_eq ▸ hj)
  rw [List.get_eq_getElem, hget] at hq
  rw [hq]
  rfl

/-- Replay never fails: what it collects refuses a projection, and is no property
leaf. -/
theorem replay_spec {m : Model} (hm : m.WF) {w : List Nat} {t : Nat}
    (hw : ∀ e ∈ w, e ∈ m.eventIds) (hrun : Explore.run m.mon.step 0 w = some t) :
    ∀ is : List Nat, ∃ culprits, replay m w is = .ok culprits ∧ ∀ c ∈ culprits, c ∈ is ∧
      m.isProp c = false ∧ m.project w c ≠ [] ∧ (m.leaf c).fire (m.project w c) = none := by
  intro is
  induction is with
  | nil => exact ⟨[], rfl, by simp⟩
  | cons i is ih =>
    obtain ⟨culprits, hcs, hspec⟩ := ih
    have hspec' : ∀ c ∈ culprits, c ∈ i :: is ∧ m.isProp c = false ∧ m.project w c ≠ [] ∧
        (m.leaf c).fire (m.project w c) = none :=
      fun c hc => ⟨List.mem_cons_of_mem _ (hspec c hc).1, (hspec c hc).2⟩
    rw [replay]
    split
    · exact ⟨culprits, hcs, hspec'⟩
    next hne =>
    split
    · exact ⟨culprits, hcs, hspec'⟩
    next hfire =>
    split
    · next hprop => exact absurd (fire_of_isProp hm hw hrun hprop) hfire
    · next hprop =>
      refine ⟨i :: culprits, by rw [hcs]; rfl, List.forall_mem_cons.mpr ⟨?_, hspec'⟩⟩
      exact ⟨List.mem_cons_self, by simpa using hprop, hne, by simpa using hfire⟩

/-! ## The profile -/

/-- Every entry is a learner of each leaf that uses it, with its invariant. -/
structure Profile.Ready (m : Model) (p : Profile) : Prop where
  sound : p.Sound m
  fits : ∀ (i e : Nat) (l : Learner), p.ofLeaf[i]? = some (some e) → p.entries[e]? = some l →
    Fits (m.leaf i) l
  states : p.entryStates = p.entries.map fun l => l.leaf.nStates
  props : ∀ i, p.ofLeaf[i]? = some none → m.isProp i = true
  few : p.entries.length ≤ p.ofLeaf.length

theorem Profile.Ready.owned {m : Model} {p : Profile} (hp : p.Ready m) {e : Nat}
    (he : e < p.entries.length) : ∃ i, p.entryLeaf[e]? = some i ∧ p.ofLeaf[i]? = some (some e) := by
  have hlt : e < p.entryLeaf.length := by
    rw [hp.sound.count]
    exact he
  exact ⟨_, List.getElem?_eq_getElem hlt, hp.sound.owner e _ (List.getElem?_eq_getElem hlt)⟩

theorem Profile.Ready.ok {m : Model} {p : Profile} (hp : p.Ready m) : ∀ l ∈ p.entries, l.Ok := by
  intro l hl
  obtain ⟨e, he, rfl⟩ := List.mem_iff_getElem.mp hl
  obtain ⟨i, -, hi⟩ := hp.owned he
  exact (hp.fits i e _ hi (List.getElem?_eq_getElem he)).ok

theorem Model.WF.leaf {m : Model} (hm : m.WF) {i : Nat} (hi : i < m.leaves.length) :
    (m.leaf i).WF := by
  have hget : m.leaf i = m.leaves[i] := by simp [Model.leaf, hi]
  rw [hget]
  exact hm.leaves _ (List.getElem_mem hi)

/-- One more leaf: its learner starts, and the profile stays ready. -/
theorem Profile.Ready.add {m : Model} (hm : m.WF) (intern : Bool) {fuel i : Nat} {p : Profile}
    (hp : p.Ready m) (hi : p.ofLeaf.length = i) (hlt : i < m.leaves.length)
    (hfuel : (m.leaf i).nStates < fuel) :
    ∃ p', Profile.add m intern fuel p i = .ok p' ∧ p'.Ready m ∧ p'.ofLeaf.length = i + 1 := by
  have hsound : ∀ p', Profile.add m intern fuel p i = .ok p' →
      p'.Sound m ∧ p'.ofLeaf.length = i + 1 := fun p' h => hp.sound.add hi h
  unfold Profile.add at hsound ⊢
  split at hsound
  · next hprop =>
    obtain ⟨h1, h2⟩ := hsound _ rfl
    rw [if_pos hprop]
    refine ⟨_, rfl, ⟨h1, ?_, hp.states, ?_, ?_⟩, h2⟩
    · intro k e l hk hl
      rcases getElem?_snoc_eq_some.mp hk with hk | ⟨-, hk⟩
      · exact hp.fits k e l hk hl
      · cases hk
    · intro k hk
      rcases getElem?_snoc_eq_some.mp hk with hk | ⟨hki, -⟩
      · exact hp.props k hk
      · rw [hki, hi]
        exact hprop
    · exact hp.few.trans (by simp)
  next hprop =>
  rw [if_neg hprop]
  cases hsh : p.shared m intern i with
  | some e₀ =>
    rw [hsh] at hsound
    obtain ⟨h1, h2⟩ := hsound _ rfl
    refine ⟨_, rfl, ⟨h1, ?_, hp.states, ?_, ?_⟩, h2⟩
    · intro k e l hk hl
      rcases getElem?_snoc_eq_some.mp hk with hold | ⟨-, he⟩
      · exact hp.fits k e l hold hl
      · -- the entry's own leaf has the same table
        cases he
        obtain ⟨j, -, hj⟩ := hp.owned (List.getElem?_eq_some_iff.mp hl).1
        have hfit := hp.fits j e₀ l hj hl
        have hser := h1.shared j k e₀ (getElem?_snoc_eq_some.mpr (Or.inl hj)) hk
        exact ⟨hfit.ok, hfit.table.trans hser⟩
    · intro k hk
      rcases getElem?_snoc_eq_some.mp hk with hk | ⟨-, hk⟩
      · exact hp.props k hk
      · cases hk
    · exact hp.few.trans (by simp)
  | none =>
    obtain ⟨l₀, hl₀, hok, hleaf, -⟩ := start_spec (hm.leaf hlt) hfuel
    simp only [hsh, hl₀, bind, Except.bind] at hsound ⊢
    obtain ⟨h1, h2⟩ := hsound _ rfl
    refine ⟨_, rfl, ⟨h1, ?_, ?_, ?_, ?_⟩, h2⟩
    · intro k e l hk hl
      rcases getElem?_snoc_eq_some.mp hk with hk | ⟨hki, he⟩
      · rcases getElem?_snoc_eq_some.mp hl with hl | ⟨hel, -⟩
        · exact hp.fits k e l hk hl
        · obtain ⟨l', hl', -⟩ := hp.sound.certified k e hk
          have hlt := (List.getElem?_eq_some_iff.mp hl').1
          omega
      · cases he
        rcases getElem?_snoc_eq_some.mp hl with hl | ⟨-, rfl⟩
        · have hlt := (List.getElem?_eq_some_iff.mp hl).1
          omega
        · refine ⟨hok, ?_⟩
          rw [hleaf, hki, hi]
    · show p.entryStates ++ [(m.leaf i).nStates] = (p.entries ++ [l₀]).map _
      rw [List.map_append, hp.states]
      simp [hleaf]
    · intro k hk
      rcases getElem?_snoc_eq_some.mp hk with hk | ⟨-, hk⟩
      · exact hp.props k hk
      · cases hk
    · simpa using hp.few

/-- The profile of a model is built, ready. -/
theorem build_ready {m : Model} (hm : m.WF) (intern : Bool) {fuel : Nat}
    (hfuel : ∀ i < m.leaves.length, (m.leaf i).nStates < fuel) :
    ∃ p, Profile.build m intern fuel = .ok p ∧ p.Ready m ∧ p.ofLeaf.length = m.leaves.length := by
  have hall : ∀ (n k : Nat) (q : Profile), q.Ready m → q.ofLeaf.length = k →
      k + n = m.leaves.length →
      ∃ p, Profile.addAll m intern fuel (List.range' k n) q = .ok p ∧ p.Ready m ∧
        p.ofLeaf.length = m.leaves.length := by
    intro n
    induction n with
    | zero => exact fun k q hq hk hn => ⟨q, rfl, hq, by omega⟩
    | succ n ih =>
      intro k q hq hk hn
      obtain ⟨q', h1, h2, h3⟩ := hq.add hm intern hk (by omega) (hfuel k (by omega))
      obtain ⟨p, h4, h5⟩ := ih (k + 1) q' h2 h3 (by omega)
      refine ⟨p, ?_, h5⟩
      rw [List.range'_succ, Profile.addAll, h1]
      exact h4
  have hempty : (⟨[], [], [], []⟩ : Profile).Ready m :=
    ⟨⟨by simp, by simp, by simp, rfl⟩, by simp, rfl, by simp, by simp⟩
  rw [Profile.build, List.range_eq_range']
  exact hall _ 0 _ hempty rfl (by omega)

/-- The classes published, over the entries. -/
def Profile.index (p : Profile) : Nat := (p.entries.map Learner.index).sum

theorem Profile.Ready.published {m : Model} {p : Profile} (hp : p.Ready m) :
    ∃ pubs, p.published = .ok pubs ∧
      List.Forall₂ (fun l h => l.published = .ok h ∧ Hypothesis l h) p.entries pubs := by
  obtain ⟨pubs, hpubs⟩ := exists_mapM_ok (f := Learner.published) (l := p.entries) fun l hl => by
    obtain ⟨h, hh, -⟩ := (hp.ok l hl).published
    exact ⟨h, hh⟩
  refine ⟨pubs, hpubs, ?_⟩
  have hall := mapM_eq_ok hpubs
  rw [List.forall₂_iff_get] at hall ⊢
  refine ⟨hall.1, fun i h1 h2 => ⟨hall.2 i h1 h2, ?_⟩⟩
  obtain ⟨h, hh, hyp⟩ := (hp.ok _ (List.getElem_mem h1)).published
  have heq := hall.2 i h1 h2
  rw [List.get_eq_getElem, hh] at heq
  rw [← Except.ok.inj heq]
  exact hyp

theorem Profile.Ready.indexTotal {m : Model} {p : Profile} (hp : p.Ready m) :
    p.indexTotal = .ok p.index := by
  obtain ⟨pubs, hpubs, hall⟩ := hp.published
  simp only [Profile.indexTotal, hpubs, bind, Except.bind]
  refine congrArg Except.ok (congrArg List.sum ?_)
  clear hpubs
  generalize p.entries = ls at hall
  induction hall with
  | nil => rfl
  | cons h _ ih => rw [List.map_cons, List.map_cons, ih, index_eq h.1]

/-- The processed counterexamples stay within the budget. -/
theorem Profile.Ready.cexTotal_le {m : Model} {p : Profile} (hp : p.Ready m) :
    p.cexTotal ≤ p.budget := by
  have hok := hp.ok
  unfold Profile.cexTotal Profile.budget
  rw [hp.states, List.map_map]
  generalize p.entries = ls at hok
  induction ls with
  | nil => exact Nat.le_refl _
  | cons l ls ih =>
    obtain ⟨hl, hls⟩ := List.forall_mem_cons.mp hok
    have hcount := hl.count
    have hlen := hl.length_le
    have hrest := ih hls
    simp only [List.map_cons, List.sum_cons, Function.comp_apply] at hrest ⊢
    omega

/-! ## Search -/

/-- The classifier of a leaf is its entry's. -/
theorem classifierOf_eq_some {m : Model} {p : Profile} {pubs : List Classifier}
    (hall : List.Forall₂ (fun l h => l.published = .ok h ∧ Hypothesis l h) p.entries pubs)
    {i : Nat} {H : Classifier} (hH : p.classifierOf pubs i = some H) :
    ∃ e l, p.ofLeaf[i]? = some (some e) ∧ p.entries[e]? = some l ∧ l.published = .ok H ∧
      Hypothesis l H := by
  obtain ⟨e, he, hH⟩ := Option.bind_eq_some_iff.mp hH
  have hof : p.ofLeaf[i]? = some (some e) := by
    rw [List.getD_eq_getElem?_getD] at he
    cases ho : p.ofLeaf[i]? with
    | none => rw [ho] at he; cases he
    | some o => rw [ho] at he; exact congrArg some he
  have hlt : e < p.entries.length := hall.length_eq ▸ (List.getElem?_eq_some_iff.mp hH).1
  have hget := List.getElem?_eq_getElem hlt
  exact ⟨e, _, hof, hget, forall₂_getElem? hall hget hH⟩

/-- More than any class or monitor state of a run. -/
def Model.width (m : Model) : Nat :=
  m.mon.nStates + (m.leaves.map fun l => l.nStates).sum + 2

theorem nStates_le_sum {m : Model} {i : Nat} (hi : i < m.leaves.length) :
    (m.leaf i).nStates ≤ (m.leaves.map fun l => l.nStates).sum := by
  have hget : m.leaf i = m.leaves[i] := by simp [Model.leaf, hi]
  rw [hget]
  exact List.single_le_sum (fun _ _ => Nat.zero_le _) _ (List.mem_map_of_mem (List.getElem_mem hi))

/-- The abstract states of a run, whatever its hypotheses are. -/
def Model.abstractStates (m : Model) : List (List Nat) :=
  (List.replicate (m.leaves.length + 1) (List.range m.width)).sections

theorem mem_abstractStates {m : Model} {st : List Nat} :
    st ∈ m.abstractStates ↔ st.length = m.leaves.length + 1 ∧ ∀ x ∈ st, x < m.width := by
  rw [Model.abstractStates, List.mem_sections, List.forall₂_iff_get]
  simp only [List.length_replicate, List.get_eq_getElem, List.getElem_replicate, List.mem_range]
  refine and_congr_right fun hlen => ⟨fun h x hx => ?_, fun h i h1 _ => h _ (List.getElem_mem h1)⟩
  obtain ⟨i, hi, rfl⟩ := List.mem_iff_getElem.mp hx
  exact h i hi (hlen ▸ hi)

/-- Enough fuel for every walk of the abstract product. -/
theorem search_spec {m : Model} (hm : m.WF) {p : Profile} (hp : p.Ready m)
    {pubs : List Classifier}
    (hall : List.Forall₂ (fun l h => l.published = .ok h ∧ Hypothesis l h) p.entries pubs)
    (cap : Int) {fuel : Nat} (hfuel : m.abstractStates.length < fuel) :
    ∃ o, search m (p.classifierOf pubs) cap fuel = .ok o := by
  classical
  let inside : List Nat → Prop := fun st => st.getD 0 0 < m.mon.nStates ∧
    ∀ i H, p.classifierOf pubs i = some H → st.getD (i + 1) 0 < H.k
  have hmon : 0 < m.mon.nStates := by
    obtain ⟨tuples, hex⟩ := hm.exact
    exact hex.count ▸ (List.getElem?_eq_some_iff.mp hex.first).1
  -- a class is below the states of its leaf, and two
  have hwidth : ∀ i H, i < m.leaves.length → p.classifierOf pubs i = some H → H.k ≤ m.width := by
    intro i H hi hH
    obtain ⟨e, l, hof, hl, -, hyp⟩ := classifierOf_eq_some (m := m) hall hH
    have hfit := hp.fits i e l hof hl
    have h1 := hyp.size
    have h2 := hfit.ok.length_le
    have h3 := nStates_le_sum hi
    rw [hfit.states] at h2
    unfold Model.width
    omega
  have hzero : ∀ i, m.initial.getD i 0 = 0 := by
    intro i
    rw [List.getD_eq_getElem?_getD, Model.initial, List.getElem?_replicate]
    split
    · rfl
    · rfl
  have hinit : m.initial ∈ m.abstractStates.filter fun st => decide (inside st) := by
    refine List.mem_filter.mpr ⟨mem_abstractStates.mpr ⟨by simp [Model.initial], ?_⟩,
      decide_eq_true ⟨?_, ?_⟩⟩
    · intro x hx
      rw [List.eq_of_mem_replicate hx]
      unfold Model.width
      omega
    · rw [hzero]
      exact hmon
    · intro i H hH
      obtain ⟨e, l, -, -, -, hyp⟩ := classifierOf_eq_some (m := m) hall hH
      rw [hzero]
      exact hyp.pos
  have hstep : ∀ st ∈ m.abstractStates.filter fun st => decide (inside st), ∀ e st',
      m.productStep (abstractMove (p.classifierOf pubs)) st e = some st' → e ∈ m.eventIds →
      st' ∈ m.abstractStates.filter fun st => decide (inside st) := by
    intro st hst e st' hmove he
    obtain ⟨hdom, hin⟩ := List.mem_filter.mp hst
    obtain ⟨hlen', hlt⟩ := mem_abstractStates.mp hdom
    obtain ⟨hin0, hin1⟩ := of_decide_eq_true hin
    obtain ⟨h1, h2, h3⟩ := (productStep_eq_some hm he hlen').mp hmove
    have hmon' : st'.getD 0 0 < m.mon.nStates := hm.monitor.2.1 _ (mem_of_entry h2)
    have hcoord : ∀ i H, p.classifierOf pubs i = some H → st'.getD (i + 1) 0 < H.k := by
      intro i H hH
      obtain ⟨e', l, hof, hl, -, hyp⟩ := classifierOf_eq_some (m := m) hall hH
      have hfit := hp.fits i e' l hof hl
      have hrun := h3 i
      cases hletter : (m.event e).letterFor i with
      | none =>
        rw [hletter] at hrun
        rw [← Option.some.inj hrun]
        exact hin1 i H hH
      | some a =>
        have ha : a < (m.leaf i).nLetters := (hm.event he).letter _ (mem_of_letterFor hletter)
        rw [hletter, Option.toList_some, Explore.run_singleton, abstractMove, hH] at hrun
        simp only at hrun
        split at hrun
        · rw [← Option.some.inj hrun]
          exact hfit.target hyp _ (hin1 i H hH) a ha
        · cases hrun
    refine List.mem_filter.mpr ⟨mem_abstractStates.mpr ⟨by omega, ?_⟩,
      decide_eq_true ⟨hmon', hcoord⟩⟩
    intro x hx
    obtain ⟨j, hj, rfl⟩ := List.mem_iff_getElem.mp hx
    have hget : st'[j] = st'.getD j 0 := by simp [hj]
    rw [hget]
    cases j with
    | zero =>
      unfold Model.width
      omega
    | succ i =>
      have hi : i < m.leaves.length := by omega
      cases hH : p.classifierOf pubs i with
      | some H => exact Nat.lt_of_lt_of_le (hcoord i H hH) (hwidth i H hi hH)
      | none =>
        -- a property leaf keeps its place
        have hrun := h3 i
        have hsame : st'.getD (i + 1) 0 = st.getD (i + 1) 0 := by
          cases hletter : (m.event e).letterFor i with
          | none =>
            rw [hletter] at hrun
            exact (Option.some.inj hrun).symm
          | some a =>
            rw [hletter, Option.toList_some, Explore.run_singleton, abstractMove, hH] at hrun
            exact (Option.some.inj hrun).symm
        have hlt' : i + 1 < st.length := by omega
        have hold : st.getD (i + 1) 0 = st[i + 1] := by simp [hlt']
        rw [hsame, hold]
        exact hlt _ (List.getElem_mem hlt')
  have hwalk : (Explore.explore (m.productStep (abstractMove (p.classifierOf pubs))) m.isBad
      (fun size => decide ((size : Int) > cap)) m.eventIds fuel m.initial).isSome = true :=
    Explore.explore_isSome hinit hstep (Nat.lt_of_le_of_lt (List.length_filter_le _ _) hfuel)
  unfold search productWalk
  split
  · next hnone =>
    split at hnone
    · cases hnone
    · have hsome := hwalk
      rw [hnone] at hsome
      cases hsome
  · exact ⟨_, rfl⟩

/-- A leaf's run in the abstract product is its classification, and accepted. -/
theorem run_abstractMove_eq {h : Nat → Option Classifier} {i : Nat} {H : Classifier}
    (hH : h i = some H) {u : List Nat} : ∀ {c : Nat},
    Explore.run (abstractMove h i) 0 u = some c →
    c = H.classify u ∧ (u ≠ [] → H.accepts u = true) := by
  induction u using List.reverseRecOn with
  | nil =>
    intro c hc
    cases hc
    exact ⟨rfl, fun hne => absurd rfl hne⟩
  | append_singleton u a ih =>
    intro c hc
    rw [Explore.run_snoc] at hc
    obtain ⟨c₀, hc₀, hc⟩ := Option.bind_eq_some_iff.mp hc
    obtain ⟨rfl, -⟩ := ih hc₀
    rw [abstractMove, hH] at hc
    simp only at hc
    split at hc
    · next hlive =>
      cases hc
      rw [Classifier.accepts, classify_snoc]
      exact ⟨rfl, fun _ => hlive⟩
    · cases hc

end LibHSC.Cegar
