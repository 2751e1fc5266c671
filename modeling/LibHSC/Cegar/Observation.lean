import LibHSC.Cegar.Learner
import LibHSC.Cegar.Canonical
import LibHSC.Library.Images
import Mathlib.Data.List.Infix

/-!
The invariant of an observation table. Its rows are distinct, each access word
but the empty one extends another by a letter, and after closing every extension
has the row of an access word. A row is a function of the state its word leads
to, so there are never more access words than states of the leaf, and one for
the words that do not fire.
-/

namespace LibHSC.Cegar

open Refinement

/-! ## Traces of a leaf -/

section Traces

variable {l : Lts}

theorem Lts.fire_append (u e : List Nat) :
    l.fire (u ++ e) = (l.fire u).bind fun q => Explore.run l.step q e := Explore.run_append 0 u e

theorem Lts.WF.fire_lt (hl : l.WF) {w : List Nat} {q : Nat} (h : l.fire w = some q) :
    q < l.nStates := by
  induction w using List.reverseRecOn with
  | nil =>
    cases h
    exact hl.pos
  | append_singleton w a ih =>
    rw [Lts.fire, Explore.run_snoc] at h
    obtain ⟨q', -, h⟩ := Option.bind_eq_some_iff.mp h
    exact hl.step_lt h

/-- A word whose beginning does not fire does not fire. -/
theorem Lts.fire_isSome_of_append {u e : List Nat} (h : (l.fire (u ++ e)).isSome = true) :
    (l.fire u).isSome = true := by
  rw [Lts.fire_append] at h
  cases hu : l.fire u with
  | none =>
    rw [hu] at h
    cases h
  | some q => rfl

end Traces

/-! ## The invariant -/

namespace Learner

variable {l : Learner}

/-- The access word of a class. -/
def rep (l : Learner) (c : Nat) : List Nat := l.S.getD c []

/-- The invariant of a table, closed or not. -/
structure Tabled (l : Learner) : Prop where
  leaf : l.leaf.WF
  first : l.S[0]? = some []
  empty : [] ∈ l.E
  experiments : ∀ e ∈ l.E, ∀ a ∈ e, a < l.leaf.nLetters
  rows : (l.S.map l.row).Nodup
  access : ∀ s ∈ l.S, s = [] ∨ ∃ s' ∈ l.S, ∃ a < l.leaf.nLetters, s = s' ++ [a]
  count : l.nCex < l.S.length

theorem row_eq_iff {u v : List Nat} :
    l.row u = l.row v ↔ ∀ e ∈ l.E, l.member (u ++ e) = l.member (v ++ e) := by
  unfold row
  exact List.map_inj_left

theorem member_of_append {u e : List Nat} (h : l.member (u ++ e) = true) : l.member u = true :=
  Lts.fire_isSome_of_append h

theorem rep_mem {c : Nat} (hc : c < l.S.length) : l.rep c ∈ l.S := by
  have hget : l.rep c = l.S[c] := by simp [rep, hc]
  rw [hget]
  exact List.getElem_mem hc

theorem exists_rep {s : List Nat} (hs : s ∈ l.S) : ∃ c < l.S.length, l.rep c = s := by
  obtain ⟨c, hc, rfl⟩ := List.mem_iff_getElem.mp hs
  exact ⟨c, hc, by simp [rep, hc]⟩

theorem Tabled.rep_inj (hl : l.Tabled) {c d : Nat} (hc : c < l.S.length) (hd : d < l.S.length)
    (h : l.row (l.rep c) = l.row (l.rep d)) : c = d := by
  have hget : ∀ i < l.S.length, (l.S.map l.row)[i]? = some (l.row (l.rep i)) := by
    intro i hi
    simp [rep, hi]
  have hlt : c < (l.S.map l.row).length := by simpa using hc
  refine (List.getElem?_inj hlt hl.rows).mp ?_
  rw [hget c hc, hget d hd, h]

theorem Tabled.pos (hl : l.Tabled) : 0 < l.S.length :=
  (List.getElem?_eq_some_iff.mp hl.first).1

theorem Tabled.rep_zero (hl : l.Tabled) : l.rep 0 = [] := by
  rw [rep, List.getD_eq_getElem?_getD, hl.first]
  rfl

theorem Tabled.letters (hl : l.Tabled) : ∀ {s : List Nat}, s ∈ l.S →
    ∀ a ∈ s, a < l.leaf.nLetters := by
  intro s
  induction s using List.reverseRecOn with
  | nil => simp
  | append_singleton s b ih =>
    intro hs a ha
    rcases hl.access _ hs with h | ⟨s', hs', b', hb', h⟩
    · simp at h
    · obtain ⟨rfl, hbb⟩ := List.append_inj' h rfl
      obtain rfl := List.singleton_inj.mp hbb
      rcases List.mem_append.mp ha with ha | ha
      · exact ih hs' a ha
      · rw [List.mem_singleton.mp ha]
        exact hb'

/-- There are at most as many access words as states, and one more. -/
theorem Tabled.length_le (hl : l.Tabled) : l.S.length ≤ l.leaf.nStates + 1 := by
  have hnd : (l.S.map l.leaf.fire).Nodup := by
    refine List.Nodup.of_map (fun o => l.E.map fun e =>
      (o.bind fun q => Explore.run l.leaf.step q e).isSome) ?_
    rw [List.map_map]
    have hrow : (fun o : Option Nat => l.E.map fun e =>
        (o.bind fun q => Explore.run l.leaf.step q e).isSome) ∘ l.leaf.fire = l.row := by
      funext u
      simp [row, member, Lts.fire_append]
    rw [hrow]
    exact hl.rows
  have hsub : ∀ o ∈ l.S.map l.leaf.fire, o ∈ none :: (List.range l.leaf.nStates).map some := by
    intro o ho
    obtain ⟨s, -, rfl⟩ := List.mem_map.mp ho
    cases h : l.leaf.fire s with
    | none => exact List.mem_cons_self
    | some q =>
      exact List.mem_cons_of_mem _ (List.mem_map_of_mem (List.mem_range.mpr (hl.leaf.fire_lt h)))
  have hle := List.Nodup.length_le_of_subset hnd hsub
  simpa using hle

/-! ## Closing -/

theorem firstOpen_eq_none : l.firstOpen = none ↔
    ∀ s ∈ l.S, ∀ a < l.leaf.nLetters, ∃ s' ∈ l.S, l.row s' = l.row (s ++ [a]) := by
  simp [firstOpen, extensions, List.find?_eq_none]

theorem firstOpen_eq_some {ua : List Nat} (h : l.firstOpen = some ua) :
    (∃ s ∈ l.S, ∃ a < l.leaf.nLetters, ua = s ++ [a]) ∧ ∀ s ∈ l.S, l.row s ≠ l.row ua := by
  have hmem := List.mem_of_find?_eq_some h
  have hopen := List.find?_some h
  simp only [extensions, List.mem_flatMap, List.mem_map, List.mem_range] at hmem
  obtain ⟨s, hs, a, ha, rfl⟩ := hmem
  refine ⟨⟨s, hs, a, ha, rfl⟩, ?_⟩
  simpa using hopen

/-- Promoting an open extension keeps the invariant. -/
theorem Tabled.promote (hl : l.Tabled) {ua : List Nat} (h : l.firstOpen = some ua) :
    Tabled { l with S := l.S ++ [ua] } := by
  obtain ⟨⟨s, hs, a, ha, rfl⟩, hnew⟩ := firstOpen_eq_some h
  refine ⟨hl.leaf, ?_, hl.empty, hl.experiments, ?_, ?_, ?_⟩
  · show (l.S ++ [s ++ [a]])[0]? = some []
    rw [List.getElem?_append_left hl.pos]
    exact hl.first
  · show ((l.S ++ [s ++ [a]]).map l.row).Nodup
    rw [List.map_append, List.nodup_append]
    refine ⟨hl.rows, by simp, ?_⟩
    rintro x hx y hy rfl
    obtain ⟨s', hs', hrow⟩ := List.mem_map.mp hx
    obtain rfl := List.mem_singleton.mp hy
    exact hnew s' hs' hrow
  · intro s' hs'
    rcases List.mem_append.mp hs' with hs' | hs'
    · rcases hl.access s' hs' with h | ⟨s'', hs'', b, hb, h⟩
      · exact Or.inl h
      · exact Or.inr ⟨s'', List.mem_append_left _ hs'', b, hb, h⟩
    · exact Or.inr ⟨s, List.mem_append_left _ hs, a, ha, List.mem_singleton.mp hs'⟩
  · show l.nCex < (l.S ++ [s ++ [a]]).length
    have hcount := hl.count
    rw [List.length_append]
    omega

/-- A closed table with the invariant. -/
structure Ok (l : Learner) : Prop extends Tabled l where
  closed : l.firstOpen = none

/-- What changes between a learner and a later one: access words are only added. -/
structure Grown (l l' : Learner) : Prop where
  leaf : l'.leaf = l.leaf
  virgin : l'.virgin = true → l.virgin = true
  words : l.S <+: l'.S

theorem Grown.refl (l : Learner) : Grown l l := ⟨rfl, id, List.prefix_rfl⟩

theorem Grown.trans {l l' l'' : Learner} (h : Grown l l') (h' : Grown l' l'') : Grown l l'' :=
  ⟨h'.leaf.trans h.leaf, fun hv => h.virgin (h'.virgin hv), h.words.trans h'.words⟩

/-- Closing ends, and grows a table that is open. By induction on the fuel: the
access words are bounded. -/
theorem close_spec (fuel : Nat) : ∀ {l : Learner}, l.Tabled →
    l.leaf.nStates + 1 < fuel + l.S.length →
    ∃ l', close fuel l = .ok l' ∧ l'.Ok ∧ Grown l l' ∧ l'.E = l.E ∧ l'.virgin = l.virgin ∧
      l'.nCex = l.nCex ∧ (l.firstOpen ≠ none → l.S.length < l'.S.length) := by
  induction fuel with
  | zero =>
    intro l hl hfuel
    have hle := hl.length_le
    omega
  | succ fuel ih =>
    intro l hl hfuel
    rw [close]
    cases h : l.firstOpen with
    | none => exact ⟨l, rfl, ⟨hl, h⟩, .refl l, rfl, rfl, rfl, fun hne => absurd rfl hne⟩
    | some ua =>
      obtain ⟨l', h1, h2, h3, h4, h5, h6, -⟩ := ih (hl.promote h) (by
        show l.leaf.nStates + 1 < fuel + (l.S ++ [ua]).length
        rw [List.length_append, List.length_singleton]
        omega)
      have hpre : l.S ++ [ua] <+: l'.S := h3.words
      have hlen := hpre.length_le
      rw [List.length_append, List.length_singleton] at hlen
      refine ⟨l', h1, h2, ⟨h3.leaf, h3.virgin, (List.prefix_append _ _).trans hpre⟩, h4, h5, h6,
        fun _ => by omega⟩

/-- A new learner has the invariant. -/
theorem start_spec {fuel : Nat} {leaf : Lts} (hleaf : leaf.WF) (hfuel : leaf.nStates < fuel) :
    ∃ l, start fuel leaf = .ok l ∧ l.Ok ∧ l.leaf = leaf ∧ l.virgin = true := by
  have htab : Tabled { leaf := leaf, S := [[]], E := [[]], virgin := true, nCex := 0 } :=
    ⟨hleaf, rfl, by simp, by simp, by simp, by simp, by simp⟩
  obtain ⟨l, h1, h2, h3, -, h5, -⟩ := close_spec fuel htab (by
    show leaf.nStates + 1 < fuel + 1
    omega)
  exact ⟨l, h1, h2, h3.leaf, h5⟩

/-! ## The table -/

/-- The automaton of a closed table: a class is live when its access word fires,
and a letter leads to the class with the row of the extension. -/
structure Tabulates (l : Learner) (t : RawTable) : Prop where
  letters : t.nLetters = l.leaf.nLetters
  count : t.k = l.S.length
  live : ∀ c < l.S.length, t.isLive c = l.member (l.rep c)
  step : ∀ c < l.S.length, ∀ a < l.leaf.nLetters, t.step c a < l.S.length ∧
    l.row (l.rep (t.step c a)) = l.row (l.rep c ++ [a])

theorem classOf_spec {ua : List Nat} (h : ∃ s ∈ l.S, l.row s = l.row ua) :
    ∃ c, l.classOf ua = .ok c ∧ c < l.S.length ∧ l.row (l.rep c) = l.row ua := by
  unfold classOf
  cases hf : l.S.findIdx? fun s => l.row s = l.row ua with
  | none =>
    obtain ⟨s, hs, hrow⟩ := h
    have hnone := List.findIdx?_eq_none_iff.mp hf s hs
    simp [hrow] at hnone
  | some c =>
    obtain ⟨hlt, hrow, -⟩ := List.findIdx?_eq_some_iff_getElem.mp hf
    refine ⟨c, rfl, hlt, ?_⟩
    have hget : l.rep c = l.S[c] := by simp [rep, hlt]
    rw [hget]
    exact of_decide_eq_true hrow

/-- A closed table is tabulated: no extension is without a class. -/
theorem Ok.table (hl : l.Ok) : ∃ t, l.table = .ok t ∧ Tabulates l t := by
  have hopen := firstOpen_eq_none.mp hl.closed
  have hclass : ∀ ua ∈ l.extensions, ∃ c, l.classOf ua = .ok c := by
    intro ua hua
    simp only [extensions, List.mem_flatMap, List.mem_map, List.mem_range] at hua
    obtain ⟨s, hs, a, ha, rfl⟩ := hua
    obtain ⟨c, hc, -⟩ := classOf_spec (hopen s hs a ha)
    exact ⟨c, hc⟩
  obtain ⟨act, hact⟩ := exists_mapM_ok hclass
  refine ⟨⟨l.leaf.nLetters, l.S.length, act, l.S.map l.member⟩, ?_, ⟨rfl, rfl, ?_, ?_⟩⟩
  · unfold Learner.table
    rw [hact]
    rfl
  · intro c hc
    simp [RawTable.isLive, rep, hc]
  · intro c hc a ha
    have hall := mapM_eq_ok hact
    have hext : l.extensions[c * l.leaf.nLetters + a]? = some (l.rep c ++ [a]) := by
      rw [extensions, getElem?_flatMap_range (fun s a => s ++ [a]) l.S ha]
      simp [rep, hc]
    obtain ⟨hlt, hget⟩ := List.getElem?_eq_some_iff.mp hext
    have hlt' : c * l.leaf.nLetters + a < act.length := hall.length_eq ▸ hlt
    have hcls := hall.get hlt hlt'
    rw [List.get_eq_getElem, hget] at hcls
    obtain ⟨d, hd, hdlt, hrow⟩ := classOf_spec (hopen _ (rep_mem hc) a ha)
    have hstep : (⟨l.leaf.nLetters, l.S.length, act, l.S.map l.member⟩ : RawTable).step
        c a = d := by
      rw [hd] at hcls
      simp only [RawTable.step, List.getD_eq_getElem?_getD, List.getElem?_eq_getElem hlt']
      exact (Except.ok.inj hcls).symm
    rw [hstep]
    exact ⟨hdlt, hrow⟩

section Table

variable {t : RawTable} (hl : l.Ok) (ht : Tabulates l t)

include hl ht

theorem Tabulates.complete : t.Complete where
  pos := by
    rw [ht.count]
    exact hl.pos
  first := by
    rw [ht.live 0 hl.pos, hl.rep_zero]
    rfl
  target := by
    intro c hc a ha
    rw [ht.count] at hc ⊢
    rw [ht.letters] at ha
    exact (ht.step c hc a ha).1
  dead := by
    -- no word past a dead one fires, so the row stays the empty one
    intro c hc a ha hdead
    rw [ht.count] at hc
    rw [ht.letters] at ha
    obtain ⟨hlt, hrow⟩ := ht.step c hc a ha
    rw [ht.live c hc] at hdead
    refine hl.rep_inj hlt hc (hrow.trans (row_eq_iff.mpr fun e _ => ?_))
    have hnot : ∀ v, l.member (l.rep c ++ v) = false := by
      intro v
      cases hv : l.member (l.rep c ++ v) with
      | false => rfl
      | true => exact absurd (member_of_append hv) (by simp [hdead])
    rw [List.append_assoc, hnot, hnot]

theorem Tabulates.classify_lt {w : List Nat} (hw : ∀ a ∈ w, a < l.leaf.nLetters) :
    t.classify w < l.S.length := by
  have hlt := (ht.complete hl).foldl_lt (ht.complete hl).pos (ht.letters ▸ hw)
  rwa [ht.count] at hlt

/-- One more letter: the class has the row of the access word with the letter. -/
theorem Tabulates.row_snoc {w : List Nat} {a : Nat} (hw : ∀ x ∈ w, x < l.leaf.nLetters)
    (ha : a < l.leaf.nLetters) :
    l.row (l.rep (t.classify (w ++ [a]))) = l.row (l.rep (t.classify w) ++ [a]) := by
  have hsnoc : t.classify (w ++ [a]) = t.step (t.classify w) a := by simp [RawTable.classify]
  rw [hsnoc]
  exact (ht.step _ (ht.classify_lt hl hw) a ha).2

/-- An access word leads to its own class. By induction on the word, from its end. -/
theorem Tabulates.classify_rep {c : Nat} (hc : c < l.S.length) : t.classify (l.rep c) = c := by
  have hword : ∀ s : List Nat, ∀ c < l.S.length, l.rep c = s → t.classify s = c := by
    intro s
    induction s using List.reverseRecOn with
    | nil =>
      intro c hc hs
      refine hl.rep_inj hl.pos hc ?_
      show l.row (l.rep 0) = l.row (l.rep c)
      rw [hl.rep_zero, hs]
    | append_singleton s b ih =>
      intro c hc hs
      have hmem : s ++ [b] ∈ l.S := hs ▸ rep_mem hc
      have hletters := hl.letters hmem
      rcases hl.access _ hmem with h | ⟨s', hs', b', hb', h⟩
      · simp at h
      · obtain ⟨rfl, hbb⟩ := List.append_inj' h rfl
        obtain rfl := List.singleton_inj.mp hbb
        obtain ⟨d, hd, hds⟩ := exists_rep hs'
        have hdc := ih d hd hds
        refine hl.rep_inj (ht.classify_lt hl hletters) hc ?_
        rw [ht.row_snoc hl (fun x hx => hletters x (List.mem_append_left _ hx)) hb', hdc, hds, hs]
  exact hword _ c hc rfl

end Table

/-! ## Publication -/

/-- What a learner publishes: chaos first, then a presentation of its table. -/
structure Hypothesis (l : Learner) (h : Classifier) : Prop where
  pos : 0 < h.k
  target : ∀ c < h.k, ∀ a < l.leaf.nLetters, h.step c a < h.k
  size : h.k ≤ l.S.length
  chaos : l.virgin = true → h.k = 1 ∧ ∀ w, h.accepts w = true
  table : l.virgin = false → ∃ t, l.table = .ok t ∧ Tabulates l t ∧ Presents t h

theorem Ok.published (hl : l.Ok) : ∃ h, l.published = .ok h ∧ Hypothesis l h := by
  unfold Learner.published
  cases hv : l.virgin with
  | true =>
    refine ⟨_, if_pos rfl, Nat.one_pos, ?_, hl.pos, fun _ => ⟨rfl, ?_⟩,
      fun h => (by cases hv.symm.trans h)⟩
    · intro c hc a ha
      simp [Cegar.chaos, Classifier.step, List.getElem?_replicate]
      split <;> simp
    · intro w
      simp [Classifier.accepts, Classifier.live, Cegar.chaos]
  | false =>
    obtain ⟨t, ht, htab⟩ := hl.table
    have hpre := canonicalize_presents (htab.complete hl)
    refine ⟨canonicalize t, ?_, hpre.pos, ?_, ?_, fun h => (by cases hv.symm.trans h),
      fun _ => ⟨t, ht, htab, hpre⟩⟩
    · rw [ht]
      rfl
    · rw [← htab.letters]
      exact hpre.target
    · rw [← htab.count]
      exact hpre.size

theorem Hypothesis.accepts_nil {h : Classifier} (hl : l.Ok) (hh : Hypothesis l h) :
    h.accepts [] = true := by
  cases hv : l.virgin with
  | true => exact (hh.chaos hv).2 []
  | false =>
    obtain ⟨t, -, htab, hpre⟩ := hh.table hv
    rw [hpre.accepts [] (by simp)]
    exact (htab.complete hl).first

/-- A published hypothesis accepts the beginnings of what it accepts. -/
theorem Hypothesis.down {h : Classifier} (hl : l.Ok) (hh : Hypothesis l h) {w v : List Nat} :
    (∀ a ∈ w ++ v, a < l.leaf.nLetters) → h.accepts (w ++ v) = true → h.accepts w = true := by
  cases hv : l.virgin with
  | true => exact fun _ _ => (hh.chaos hv).2 w
  | false =>
    obtain ⟨t, -, htab, hpre⟩ := hh.table hv
    have hcomp := htab.complete hl
    induction v using List.reverseRecOn with
    | nil =>
      intro _ hacc
      rwa [List.append_nil] at hacc
    | append_singleton v a ih =>
      rw [← List.append_assoc]
      intro hletters hacc
      have hpref : ∀ x ∈ w ++ v, x < l.leaf.nLetters :=
        fun x hx => hletters x (List.mem_append_left _ hx)
      refine ih hpref ?_
      rw [hpre.accepts _ (htab.letters ▸ hpref)]
      rw [hpre.accepts _ (htab.letters ▸ hletters)] at hacc
      have hsnoc : t.classify (w ++ v ++ [a]) = t.step (t.classify (w ++ v)) a := by
        simp [RawTable.classify]
      rw [hsnoc] at hacc
      have hlt : t.classify (w ++ v) < t.k := hcomp.foldl_lt hcomp.pos (htab.letters ▸ hpref)
      cases hlive : t.isLive (t.classify (w ++ v)) with
      | true => rfl
      | false =>
        rw [hcomp.dead _ hlt a (htab.letters ▸ hletters a (by simp)) hlive, hlive] at hacc
        cases hacc

/-! ## A misclassified word -/

section Flip

variable {t : RawTable} {bad : List Nat} {a0 : Bool}

/-- The binary search ends at a flip. -/
theorem flip_spec (fuel : Nat) : ∀ {lo hi : Nat}, lo < hi → hi ≤ bad.length → hi - lo ≤ fuel + 1 →
    l.splice t bad lo = a0 → l.splice t bad hi ≠ a0 →
    l.flip t bad a0 fuel lo hi < bad.length ∧ l.splice t bad (l.flip t bad a0 fuel lo hi) = a0 ∧
      l.splice t bad (l.flip t bad a0 fuel lo hi + 1) ≠ a0 := by
  induction fuel with
  | zero =>
    intro lo hi hlt hle hfuel hlo hhi
    have hhi' : hi = lo + 1 := by omega
    subst hhi'
    exact ⟨by rw [flip]; omega, hlo, hhi⟩
  | succ fuel ih =>
    intro lo hi hlt hle hfuel hlo hhi
    rw [flip]
    split
    · have hhi' : hi = lo + 1 := by omega
      subst hhi'
      exact ⟨by omega, hlo, hhi⟩
    split
    · next hmid => exact ih (by omega) hle (by omega) hmid hhi
    · next hmid => exact ih (by omega) (by omega) (by omega) hlo hmid

end Flip

/-- The extension at a flip gets a row of its own by the new experiment. -/
theorem Ok.open_of_flip (hl : l.Ok) {t : RawTable} (ht : Tabulates l t) {bad : List Nat}
    (hbad : ∀ a ∈ bad, a < l.leaf.nLetters) {i : Nat} (hi : i < bad.length)
    (hflip : l.splice t bad i ≠ l.splice t bad (i + 1)) :
    bad.drop (i + 1) ∉ l.E ∧ Tabled { l with E := l.E ++ [bad.drop (i + 1)], virgin := false } ∧
      firstOpen { l with E := l.E ++ [bad.drop (i + 1)], virgin := false } ≠ none := by
  have hpre : ∀ x ∈ bad.take i, x < l.leaf.nLetters := fun x hx => hbad x (List.mem_of_mem_take hx)
  have hletter : bad[i] < l.leaf.nLetters := hbad _ (List.getElem_mem hi)
  have htake : bad.take (i + 1) = bad.take i ++ [bad[i]] := by
    rw [List.take_add_one, List.getElem?_eq_getElem hi]
    rfl
  have hdrop : bad.drop i = bad[i] :: bad.drop (i + 1) := List.drop_eq_getElem_cons hi
  have hlt : t.classify (bad.take (i + 1)) < l.S.length :=
    ht.classify_lt hl fun x hx => hbad x (List.mem_of_mem_take hx)
  -- the two sides of the flip agree on every old experiment and differ on the new one
  have hrow : l.row (l.rep (t.classify (bad.take (i + 1)))) =
      l.row (l.rep (t.classify (bad.take i)) ++ [bad[i]]) := by
    rw [htake]
    exact ht.row_snoc hl hpre hletter
  have hdiff : l.member (l.rep (t.classify (bad.take i)) ++ [bad[i]] ++ bad.drop (i + 1)) ≠
      l.member (l.rep (t.classify (bad.take (i + 1))) ++ bad.drop (i + 1)) := by
    have happ : l.rep (t.classify (bad.take i)) ++ [bad[i]] ++ bad.drop (i + 1) =
        l.rep (t.classify (bad.take i)) ++ bad.drop i := by
      rw [hdrop, List.append_assoc]
      rfl
    rw [happ]
    exact hflip
  have hrows : ∀ u v, row { l with E := l.E ++ [bad.drop (i + 1)], virgin := false } u =
      row { l with E := l.E ++ [bad.drop (i + 1)], virgin := false } v →
      l.row u = l.row v ∧ l.member (u ++ bad.drop (i + 1)) = l.member (v ++ bad.drop (i + 1)) := by
    intro u v h
    have hall := row_eq_iff.mp h
    exact ⟨row_eq_iff.mpr fun e he => hall e (List.mem_append_left _ he), hall _ (by simp)⟩
  refine ⟨fun hmem => hdiff (row_eq_iff.mp hrow _ hmem).symm, ?_, ?_⟩
  · refine ⟨hl.leaf, hl.first, List.mem_append_left _ hl.empty, ?_, ?_, hl.access, hl.count⟩
    · intro e he
      rcases List.mem_append.mp he with he | he
      · exact hl.experiments e he
      · rw [List.mem_singleton.mp he]
        exact fun a ha => hbad a (List.mem_of_mem_drop ha)
    refine List.Nodup.of_map (fun r => r.take l.E.length) ?_
    rw [List.map_map]
    have hcomp : (fun r : List Bool => r.take l.E.length) ∘
        row { l with E := l.E ++ [bad.drop (i + 1)], virgin := false } = l.row := by
      funext u
      simp [row, member]
    rw [hcomp]
    exact hl.rows
  · intro hnone
    obtain ⟨s, hs, hsrow⟩ := firstOpen_eq_none.mp hnone _
      (rep_mem (ht.classify_lt hl hpre)) bad[i] hletter
    obtain ⟨h1, h2⟩ := hrows _ _ hsrow
    obtain ⟨c, hc, rfl⟩ := exists_rep hs
    have hcls := hl.rep_inj hc hlt (h1.trans hrow.symm)
    rw [hcls] at h2
    exact hdiff h2.symm

/-- The progress of a learner: its access words, and whether it publishes them. -/
def rank (l : Learner) : Nat := l.S.length + if l.virgin then 0 else 1

theorem Ok.rank_le (hl : l.Ok) : l.rank ≤ l.leaf.nStates + 2 := by
  have hle := hl.length_le
  unfold rank
  split <;> omega

/-- A word the published hypothesis misclassifies is processed: no check fails, and
the learner either publishes its table for the first time or gets a new access
word. -/
theorem Ok.addCounterexample (hl : l.Ok) {h : Classifier} (hh : Hypothesis l h) {fuel : Nat}
    (hfuel : l.leaf.nStates < fuel) {w : List Nat} (hw : ∀ a ∈ w, a < l.leaf.nLetters)
    (hmis : h.accepts w ≠ l.member w) :
    ∃ l', l.addCounterexample fuel w = .ok l' ∧ l'.Ok ∧ Grown l l' ∧ l'.virgin = false ∧
      (l.virgin = true ∨ l.S.length < l'.S.length) := by
  obtain ⟨t, ht, htab⟩ := hl.table
  simp only [Learner.addCounterexample, ht, bind, Except.bind]
  cases hbad : l.misclassified t w with
  | none =>
    -- only chaos misclassifies a word the table has right
    have hall := List.find?_eq_none.mp hbad
    have hagree := hall w ((List.mem_inits _ _).mpr (List.prefix_refl w))
    have hlive : t.isLive (t.classify w) = l.member w := by simpa using hagree
    cases hv : l.virgin with
    | true =>
      refine ⟨{ l with virgin := false }, rfl, ⟨⟨hl.leaf, hl.first, hl.empty,
        hl.experiments, hl.rows,
        hl.access, hl.count⟩, hl.closed⟩, ⟨rfl, fun _ => hv, List.prefix_rfl⟩, rfl, Or.inl rfl⟩
    | false =>
      obtain ⟨t', ht', -, hpre⟩ := hh.table hv
      rw [ht] at ht'
      cases ht'
      rw [hpre.accepts w (htab.letters ▸ hw)] at hmis
      exact absurd hlive hmis
  | some bad =>
    have hsub : bad <+: w := (List.mem_inits _ _).mp (List.mem_of_find?_eq_some hbad)
    have hletters : ∀ a ∈ bad, a < l.leaf.nLetters := fun a ha => hw a (hsub.subset ha)
    have hwrong : t.isLive (t.classify bad) ≠ l.member bad := by
      simpa using List.find?_some hbad
    have hzero : l.splice t bad 0 = l.member bad := by
      show l.member (l.rep 0 ++ bad) = l.member bad
      rw [hl.rep_zero]
      rfl
    have hend : l.splice t bad bad.length = t.isLive (t.classify bad) := by
      unfold splice
      rw [List.take_length, List.drop_length, List.append_nil]
      exact (htab.live _ (htab.classify_lt hl hletters)).symm
    have hne : l.splice t bad 0 ≠ l.splice t bad bad.length := by
      rw [hzero, hend]
      exact hwrong.symm
    have hpos : 0 < bad.length := by
      rcases Nat.eq_zero_or_pos bad.length with h0 | h0
      · rw [h0] at hne
        exact absurd rfl hne
      · exact h0
    obtain ⟨hi, hlo, hhi⟩ := flip_spec bad.length hpos le_rfl (by omega) rfl hne.symm
    obtain ⟨hnew, htabled, hopen⟩ := hl.open_of_flip htab hletters hi (by
      rw [hlo]
      exact hhi.symm)
    obtain ⟨l', hclose, hok, hgrown, -, hvirgin, hcex, hlen⟩ := close_spec fuel htabled (by
      show l.leaf.nStates + 1 < fuel + l.S.length
      have hlpos := hl.pos
      omega)
    have hlt : l.S.length < l'.S.length := hlen hopen
    refine ⟨{ l' with nCex := l'.nCex + 1 }, ?_, ?_, ⟨hgrown.leaf, ?_, hgrown.words⟩, hvirgin,
      Or.inr hlt⟩
    · simp only
      rw [if_neg hne, if_neg hnew, hclose]
      show (if l'.S.length ≤ l.S.length then _ else _) = _
      rw [if_neg (Nat.not_le.mpr hlt)]
      rfl
    · refine ⟨⟨hok.leaf, hok.first, hok.empty, hok.experiments, hok.rows, hok.access, ?_⟩,
      hok.closed⟩
      show l'.nCex + 1 < l'.S.length
      have hcount : l.nCex < l.S.length := hl.count
      rw [hcex]
      show l.nCex + 1 < l'.S.length
      omega
    · intro hv
      rw [hvirgin] at hv
      cases hv

end Learner

end LibHSC.Cegar
