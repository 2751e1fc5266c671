import LibHSC.Cegar.Loop

/-!
The verdicts of the loop. Hypotheses are not monotone across rounds, so nothing
is kept of one but this: every classifier in use includes the traces of every
leaf that uses it. From it the abstract product simulates the concrete one.
-/

namespace LibHSC.Cegar

/-! ## Certified publication -/

/-- The learner publishes a classifier that includes the traces of the leaf. -/
def Learner.Certified (l : Learner) (leaf : Lts) : Prop :=
  ∃ h, l.published = .ok h ∧ Included leaf h

theorem close_virgin {fuel : Nat} {l l' : Learner} (h : Learner.close fuel l = .ok l') :
    l'.virgin = l.virgin ∧ l'.leaf = l.leaf := by
  induction fuel generalizing l with
  | zero => cases h
  | succ n ih =>
    unfold Learner.close at h
    split at h
    · cases h
      exact ⟨rfl, rfl⟩
    · next ua _ => exact ih (l := { l with S := l.S ++ [ua] }) h

/-- A new learner publishes chaos, which includes everything. -/
theorem start_certified {fuel : Nat} {leaf leaf' : Lts} {l : Learner}
    (h : Learner.start fuel leaf = .ok l) : l.Certified leaf' := by
  obtain ⟨hv, -⟩ := close_virgin h
  refine ⟨chaos l.leaf.nLetters, ?_, included_chaos leaf' _⟩
  unfold Learner.published
  rw [if_pos hv]

section Refine

variable {leaf : Lts} {leafBudget closeFuel : Nat}

theorem certifyLoop_certified {fuel : Nat} {l l' : Learner}
    (h : certifyLoop leaf leafBudget closeFuel fuel l = .ok l') : l'.Certified leaf := by
  induction fuel generalizing l with
  | zero => cases h
  | succ n ih =>
    obtain ⟨hyp, hpub, h⟩ := bind_eq_ok.mp h
    obtain ⟨c, hc, h⟩ := bind_eq_ok.mp h
    split at h
    · next hcert =>
      cases h
      exact ⟨hyp, hpub, included_of_certify hc hcert⟩
    split at h
    · cases h
    · obtain ⟨l₁, -, h⟩ := bind_eq_ok.mp h
      exact ih h

theorem refineUntilResolved_certified {u : List Nat} {fuel : Nat} {l l' : Learner}
    (h : refineUntilResolved leaf leafBudget closeFuel u fuel l = .ok l') :
    l'.Certified leaf := by
  induction fuel generalizing l with
  | zero => cases h
  | succ n ih =>
    unfold refineUntilResolved at h
    split at h
    · cases h
    obtain ⟨hyp, hpub, h⟩ := bind_eq_ok.mp h
    split at h
    · obtain ⟨l₁, -, h⟩ := bind_eq_ok.mp h
      obtain ⟨l₂, hl₂, h⟩ := bind_eq_ok.mp h
      obtain ⟨hyp', -, h⟩ := bind_eq_ok.mp h
      split at h
      · exact ih h
      · cases h
        exact certifyLoop_certified hl₂
    · obtain ⟨c, hc, h⟩ := bind_eq_ok.mp h
      split at h
      · next hcert =>
        cases h
        exact ⟨hyp, hpub, included_of_certify hc hcert⟩
      · obtain ⟨l₁, -, h⟩ := bind_eq_ok.mp h
        exact ih h

theorem driveExact_certified {fuel : Nat} {l l' : Learner}
    (h : driveExact leaf leafBudget closeFuel fuel l = .ok l') : l'.Certified leaf := by
  induction fuel generalizing l with
  | zero => cases h
  | succ n ih =>
    unfold driveExact at h
    split at h
    · cases h
    obtain ⟨hyp, hpub, h⟩ := bind_eq_ok.mp h
    obtain ⟨c, hc, h⟩ := bind_eq_ok.mp h
    split at h
    · next hcert =>
      obtain ⟨gap, -, h⟩ := bind_eq_ok.mp h
      cases gap with
      | none =>
        cases h
        exact ⟨hyp, hpub, included_of_certify hc hcert⟩
      | some gap =>
        obtain ⟨l₁, -, h⟩ := bind_eq_ok.mp h
        exact ih h
    · obtain ⟨l₁, -, h⟩ := bind_eq_ok.mp h
      exact ih h

theorem refineEntry_certified {jumpExact : Bool} {u : List Nat} {fuel : Nat} {l l' : Learner}
    (h : refineEntry leaf leafBudget closeFuel jumpExact u fuel l = .ok l') :
    l'.Certified leaf := by
  obtain ⟨l₁, hl₁, h⟩ := bind_eq_ok.mp h
  split at h
  · exact driveExact_certified h
  · cases h
    exact refineUntilResolved_certified hl₁

end Refine

/-! ## The profile invariant -/

/-- Inclusion is a property of the transition table. -/
theorem Included.congr {l l' : Lts} {h : Classifier} (hs : l.serialize = l'.serialize)
    (hi : Included l h) : Included l' h := by
  simp only [Lts.serialize, Prod.mk.injEq] at hs
  intro w hne hw hf
  refine hi w hne (hs.2.1 ▸ hw) ?_
  unfold Lts.fire Lts.step at hf ⊢
  rw [hs.2.1, hs.2.2]
  exact hf

/-- Every leaf that has an entry is certified by it, and the leaves of one entry
have one transition table. -/
structure Profile.Sound (m : Model) (p : Profile) : Prop where
  certified : ∀ i e : Nat, p.ofLeaf[i]? = some (some e) →
    ∃ l : Learner, p.entries[e]? = some l ∧ l.Certified (m.leaf i)
  shared : ∀ i j e : Nat, p.ofLeaf[i]? = some (some e) → p.ofLeaf[j]? = some (some e) →
    (m.leaf i).serialize = (m.leaf j).serialize
  owner : ∀ e j : Nat, p.entryLeaf[e]? = some j → p.ofLeaf[j]? = some (some e)
  count : p.entryLeaf.length = p.entries.length

theorem Profile.Sound.add {m : Model} {intern : Bool} {fuel i : Nat} {p p' : Profile}
    (hp : p.Sound m) (hi : p.ofLeaf.length = i) (h : Profile.add m intern fuel p i = .ok p') :
    p'.Sound m ∧ p'.ofLeaf.length = i + 1 := by
  unfold Profile.add at h
  split at h
  · -- a property leaf has no entry
    cases h
    refine ⟨⟨?_, ?_, ?_, hp.count⟩, by simp [hi]⟩
    · intro k e hk
      rcases getElem?_snoc_eq_some.mp hk with hk | ⟨-, hk⟩
      · exact hp.certified k e hk
      · cases hk
    · intro k j e hk hj
      rcases getElem?_snoc_eq_some.mp hk with hk | ⟨-, hk⟩
      · rcases getElem?_snoc_eq_some.mp hj with hj | ⟨-, hj⟩
        · exact hp.shared k j e hk hj
        · cases hj
      · cases hk
    · intro e j he
      exact getElem?_snoc_eq_some.mpr (Or.inl (hp.owner e j he))
  split at h
  · -- an interned leaf takes the entry of its table
    next e₀ he₀ =>
      cases h
      have hkey : ∀ k, p.ofLeaf[k]? = some (some e₀) →
          (m.leaf k).serialize = (m.leaf i).serialize := by
        intro k hk
        unfold Profile.shared at he₀
        split at he₀
        · obtain ⟨hlt, hj⟩ := List.findIdx?_eq_some_iff_getElem.mp he₀
          have hown := hp.owner e₀ _ (List.getElem?_eq_some_iff.mpr ⟨hlt, rfl⟩)
          exact (hp.shared k _ e₀ hk hown).trans (of_decide_eq_true hj.1)
        · cases he₀
      obtain ⟨j₀, hj₀⟩ : ∃ j, p.ofLeaf[j]? = some (some e₀) := by
        unfold Profile.shared at he₀
        split at he₀
        · obtain ⟨hlt, -⟩ := List.findIdx?_eq_some_iff_getElem.mp he₀
          exact ⟨_, hp.owner e₀ _ (List.getElem?_eq_some_iff.mpr ⟨hlt, rfl⟩)⟩
        · cases he₀
      refine ⟨⟨?_, ?_, ?_, hp.count⟩, by simp [hi]⟩
      · intro k e hk
        rcases getElem?_snoc_eq_some.mp hk with hk | ⟨hki, he⟩
        · exact hp.certified k e hk
        · cases he
          obtain ⟨l, hl, hyp, hpub, hinc⟩ := hp.certified j₀ e₀ hj₀
          rw [hki, hi]
          exact ⟨l, hl, hyp, hpub, hinc.congr (hkey j₀ hj₀)⟩
      · intro k j e hk hj
        rcases getElem?_snoc_eq_some.mp hk with hk | ⟨hki, hke⟩
        · rcases getElem?_snoc_eq_some.mp hj with hj | ⟨hji, hje⟩
          · exact hp.shared k j e hk hj
          · cases hje
            rw [hji, hi]
            exact hkey k hk
        · cases hke
          rcases getElem?_snoc_eq_some.mp hj with hj | ⟨hji, -⟩
          · rw [hki, hi]
            exact (hkey j hj).symm
          · rw [hki, hji]
      · intro e j he
        exact getElem?_snoc_eq_some.mpr (Or.inl (hp.owner e j he))
  · -- a new entry
    obtain ⟨l, hl, h⟩ := bind_eq_ok.mp h
    cases h
    have hold : ∀ k e : Nat, p.ofLeaf[k]? = some (some e) → e < p.entries.length := by
      intro k e hk
      obtain ⟨l', hl', -⟩ := hp.certified k e hk
      exact (List.getElem?_eq_some_iff.mp hl').1
    refine ⟨⟨?_, ?_, ?_, by simp [hp.count]⟩, by simp [hi]⟩
    · intro k e hk
      rcases getElem?_snoc_eq_some.mp hk with hk | ⟨-, hk⟩
      · obtain ⟨l', hl', hc⟩ := hp.certified k e hk
        exact ⟨l', getElem?_snoc_eq_some.mpr (Or.inl hl'), hc⟩
      · cases hk
        exact ⟨l, getElem?_snoc_eq_some.mpr (Or.inr ⟨rfl, rfl⟩), start_certified hl⟩
    · intro k j e hk hj
      rcases getElem?_snoc_eq_some.mp hk with hk | ⟨hki, hke⟩
      · rcases getElem?_snoc_eq_some.mp hj with hj | ⟨-, hje⟩
        · exact hp.shared k j e hk hj
        · cases hje
          exact absurd (hold k _ hk) (lt_irrefl _)
      · cases hke
        rcases getElem?_snoc_eq_some.mp hj with hj | ⟨hji, -⟩
        · exact absurd (hold j _ hj) (lt_irrefl _)
        · rw [hki, hji]
    · intro e j he
      rcases getElem?_snoc_eq_some.mp he with he | ⟨hek, hij⟩
      · exact getElem?_snoc_eq_some.mpr (Or.inl (hp.owner e j he))
      · refine getElem?_snoc_eq_some.mpr (Or.inr ⟨by rw [← hij, hi], ?_⟩)
        rw [hek, hp.count]

theorem build_sound {m : Model} {intern : Bool} {fuel : Nat} {p : Profile}
    (h : Profile.build m intern fuel = .ok p) : p.Sound m := by
  have hall : ∀ (n k : Nat) (q : Profile), q.Sound m → q.ofLeaf.length = k →
      Profile.addAll m intern fuel (List.range' k n) q = .ok p → p.Sound m := by
    intro n
    induction n with
    | zero =>
      intro k q hq _ h
      cases h
      exact hq
    | succ n ih =>
      intro k q hq hk h
      obtain ⟨q', hq', h⟩ := bind_eq_ok.mp h
      obtain ⟨h1, h2⟩ := hq.add hk hq'
      exact ih (k + 1) q' h1 h2 h
  have hempty : (⟨[], [], [], []⟩ : Profile).Sound m :=
    ⟨by simp, by simp, by simp, rfl⟩
  rw [Profile.build, List.range_eq_range'] at h
  exact hall _ 0 _ hempty rfl h

/-- Replacing an entry by a learner certified for one of its leaves. -/
theorem Profile.Sound.set {m : Model} {p : Profile} (hp : p.Sound m) {c e : Nat} {l : Learner}
    (hc : p.ofLeaf[c]? = some (some e)) (hl : l.Certified (m.leaf c)) :
    ({ p with entries := p.entries.set e l } : Profile).Sound m := by
  obtain ⟨hyp, hpub, hinc⟩ := hl
  refine ⟨?_, hp.shared, hp.owner, by simp [hp.count]⟩
  intro i e' hi
  obtain ⟨l', hl', hc'⟩ := hp.certified i e' hi
  have hlt := (List.getElem?_eq_some_iff.mp hl').1
  by_cases he : e = e'
  · subst he
    refine ⟨l, by simp [hlt], hyp, hpub, hinc.congr (hp.shared c i e hc hi)⟩
  · exact ⟨l', by simp [he, hl'], hc'⟩

theorem refineCulprits_sound {m : Model} {opt : Options} {fuel : Nat} {w : List Nat} :
    ∀ {cs done : List Nat} {p p' : Profile}, p.Sound m →
    refineCulprits m opt fuel w cs done p = .ok p' → p'.Sound m := by
  intro cs
  induction cs with
  | nil =>
    intro done p p' hp h
    cases h
    exact hp
  | cons c cs ih =>
    intro done p p' hp h
    unfold refineCulprits at h
    split at h
    · exact ih hp h
    · next e he =>
      split at h
      · exact ih hp h
      split at h
      · exact ih hp h
      · next l hl =>
        obtain ⟨l', hl', h⟩ := bind_eq_ok.mp h
        obtain ⟨hyp, -, h⟩ := bind_eq_ok.mp h
        split at h
        · cases h
        · have hc : p.ofLeaf[c]? = some (some e) := by
            rw [List.getD_eq_getElem?_getD] at he
            cases hof : p.ofLeaf[c]? with
            | none => rw [hof] at he; cases he
            | some o => rw [hof] at he; exact congrArg some he
          exact ih (hp.set hc (refineEntry_certified hl')) h

/-! ## The abstract product simulates the concrete one -/

/-- A trace of a leaf runs in the abstract product: its classes are live. By
induction on the word, from its end. -/
theorem run_abstractMove {l : Lts} {h : Nat → Option Classifier} {i : Nat}
    (hinc : ∀ H, h i = some H → Included l H) {u : List Nat} :
    (∀ a ∈ u, a < l.nLetters) → (l.fire u).isSome = true →
    ∃ c, Explore.run (abstractMove h i) 0 u = some c ∧ ∀ H, h i = some H → c = H.classify u := by
  induction u using List.reverseRecOn with
  | nil => exact fun _ _ => ⟨0, rfl, fun _ _ => rfl⟩
  | append_singleton u a ih =>
    intro hu hf
    have hfire : l.fire (u ++ [a]) = (l.fire u).bind fun q => l.step q a :=
      Explore.run_snoc 0 u a
    have hpre : (l.fire u).isSome = true := by
      rw [hfire] at hf
      cases hq : l.fire u with
      | none => rw [hq] at hf; cases hf
      | some q => rfl
    obtain ⟨c, hc, hcl⟩ := ih (fun x hx => hu x (List.mem_append_left _ hx)) hpre
    rw [Explore.run_snoc, hc]
    cases hh : h i with
    | none =>
      refine ⟨c, ?_, fun H hH => nomatch hH⟩
      simp [abstractMove, hh]
    | some H =>
      have hlive := hinc H hh (u ++ [a]) (by simp) hu hf
      rw [Classifier.accepts, classify_snoc, ← hcl H hh] at hlive
      refine ⟨H.step c a, ?_, ?_⟩
      · simp [abstractMove, hh, hlive]
      · intro H' hH'
        cases hH'
        rw [classify_snoc, ← hcl H hh]

theorem concrete_simulated {m : Model} (hm : m.WF) {h : Nat → Option Classifier}
    (hinc : ∀ i H, h i = some H → Included (m.leaf i) H) {w st : List Nat}
    (hw : ∀ e ∈ w, e ∈ m.eventIds)
    (hst : Explore.run m.concreteStep m.initial w = some st) :
    ∃ st', Explore.run (m.productStep (abstractMove h)) m.initial w = some st' ∧
      st'.getD 0 0 = st.getD 0 0 := by
  refine run_simulated hm (fun i _ u hu hf => ?_) hw hst
  obtain ⟨c, hc, -⟩ := run_abstractMove (hinc i) hu hf
  rw [hc]
  rfl

/-- A product walk that is not closed by a bad state says there is none. -/
theorem productWalk_closed {m : Model} {step : List Nat → Nat → Option (List Nat)} {cap : Int}
    {fuel : Nat} {st : List (List Nat × List Nat)}
    (h : productWalk m step cap fuel = some (.closed st)) {w s : List Nat}
    (hw : ∀ e ∈ w, e ∈ m.eventIds) (hs : Explore.run step m.initial w = some s) :
    m.isBad s = false := by
  unfold productWalk at h
  split at h
  · cases h
  · next hinit =>
    by_cases hne : w = []
    · subst hne
      cases hs
      simpa using hinit
    · exact (Explore.explore_closed h hw hs).2 hne

theorem productWalk_found {m : Model} {step : List Nat → Nat → Option (List Nat)} {cap : Int}
    {fuel : Nat} {w : List Nat} {st : List (List Nat × List Nat)}
    (h : productWalk m step cap fuel = some (.found w st)) :
    (∀ e ∈ w, e ∈ m.eventIds) ∧ ∃ s, Explore.run step m.initial w = some s ∧ m.isBad s = true := by
  unfold productWalk at h
  split at h
  · next hinit =>
    cases h
    exact ⟨by simp, m.initial, rfl, hinit⟩
  · obtain ⟨s, h1, h2, h3⟩ := Explore.explore_found h
    exact ⟨h3, s, h1, h2⟩

/-! ## Verdicts -/

theorem published_included {m : Model} {p : Profile} (hp : p.Sound m) {pubs : List Classifier}
    (h : p.published = .ok pubs) {i : Nat} {H : Classifier}
    (hH : p.classifierOf pubs i = some H) : Included (m.leaf i) H := by
  obtain ⟨e, he, hH⟩ := Option.bind_eq_some_iff.mp hH
  have hof : p.ofLeaf[i]? = some (some e) := by
    rw [List.getD_eq_getElem?_getD] at he
    cases ho : p.ofLeaf[i]? with
    | none => rw [ho] at he; cases he
    | some o => rw [ho] at he; exact congrArg some he
  obtain ⟨l, hl, hyp, hpub, hinc⟩ := hp.certified i e hof
  obtain ⟨hlt, hle⟩ := List.getElem?_eq_some_iff.mp hl
  obtain ⟨hlt', hHe⟩ := List.getElem?_eq_some_iff.mp hH
  have hget : (p.entries[e]).published = .ok (pubs[e]) := (mapM_eq_ok h).get hlt hlt'
  rw [hle, hHe, hpub] at hget
  cases hget
  exact hinc

/-- A replay without culprits fires every projection. -/
theorem replay_nil {m : Model} {w : List Nat} : ∀ {is : List Nat},
    replay m w is = .ok [] → ∀ i ∈ is, ((m.leaf i).fire (m.project w i)).isSome = true := by
  intro is
  induction is with
  | nil => simp
  | cons i is ih =>
    intro h
    unfold replay at h
    split at h
    · next hnil =>
      refine List.forall_mem_cons.mpr ⟨?_, ih h⟩
      rw [hnil]
      rfl
    split at h
    · next hfire => exact List.forall_mem_cons.mpr ⟨hfire, ih h⟩
    split at h
    · cases h
    · obtain ⟨cs, -, h⟩ := bind_eq_ok.mp h
      cases h

/-- What the loop promises of its result. -/
structure RunResult.Sound (m : Model) (r : RunResult) : Prop where
  holds : r.v.k = .holds → ∀ st, m.Reachable st → m.isBad st = false
  violation : r.v.k = .violation → (∀ e ∈ r.v.witness, e ∈ m.eventIds) ∧
    refire m r.v.witness = true ∧
    ∃ st, Explore.run m.concreteStep m.initial r.v.witness = some st ∧ m.isBad st = true ∧
      r.finalValues = (List.range m.leaves.length).map fun i =>
        (m.leaf i).valueOf.getD (st.getD (i + 1) 0) 0

theorem finish_eq_ok {m : Model} {p : Profile} {pubs : List Classifier} {rounds invSize : Nat}
    {v : Verdict} {certificate : String} {finalValues : List Int} {r : RunResult}
    (h : finish m p pubs rounds v invSize certificate finalValues = .ok r) :
    r.v = v ∧ r.finalValues = finalValues := by
  obtain ⟨counts, -, h⟩ := bind_eq_ok.mp h
  cases h
  exact ⟨rfl, rfl⟩

theorem violation_sound {m : Model} (hm : m.WF) {h : Nat → Option Classifier} {w : List Nat}
    (hw : ∀ e ∈ w, e ∈ m.eventIds) {s : List Nat}
    (hs : Explore.run (m.productStep (abstractMove h)) m.initial w = some s)
    (hbad : m.isBad s = true) (hre : replay m w (List.range m.leaves.length) = .ok [])
    {values : List Int}
    (hv : (List.range m.leaves.length).mapM (finalValue m w) = .ok values) :
    refire m w = true ∧
    ∃ st, Explore.run m.concreteStep m.initial w = some st ∧ m.isBad st = true ∧
      values = (List.range m.leaves.length).map fun i =>
        (m.leaf i).valueOf.getD (st.getD (i + 1) 0) 0 := by
  obtain ⟨hmon, -⟩ := (run_product hm hw (run_length hm hw hs)).mp hs
  have hfire : refire m w = true := by
    unfold refire
    rw [hmon]
    exact Bool.and_eq_true_iff.mpr ⟨hbad, List.all_eq_true.mpr (replay_nil hre)⟩
  obtain ⟨st, hst, hb⟩ := (refire_iff hm hw).mp hfire
  obtain ⟨-, hleaves⟩ := (run_product hm hw (run_length hm hw hst)).mp hst
  have hval := mapM_eq_ok hv
  refine ⟨hfire, st, hst, hb, List.ext_getElem (by simpa using hval.length_eq.symm) ?_⟩
  intro i hi hi'
  have hlt : i < m.leaves.length := by simpa using hi'
  have hrange : i < (List.range m.leaves.length).length := by simpa using hlt
  have hget : finalValue m w (List.range m.leaves.length)[i] = .ok values[i] :=
    hval.get hrange hi
  have hl : (m.leaf i).fire (m.project w i) = some (st.getD (i + 1) 0) := hleaves i hlt
  rw [List.getElem_range, finalValue, hl] at hget
  rw [List.getElem_map, List.getElem_range]
  exact (Except.ok.inj hget).symm

/-- The loop's invariant over its rounds: the profile stays sound, so the verdict
of whichever round ends it is. -/
theorem rounds_sound {m : Model} (hm : m.WF) {opt : Options} {fuel : Nat} {r : RunResult} :
    ∀ {n : Nat} {p : Profile} {lastIndex round : Nat}, p.Sound m →
    rounds m opt fuel n p lastIndex round = .ok r → r.Sound m := by
  intro n
  induction n with
  | zero =>
    intro p lastIndex round _ h
    cases h
  | succ n ih =>
    intro p lastIndex round hp h
    obtain ⟨pubs, hpubs, h⟩ := bind_eq_ok.mp h
    obtain ⟨o, ho, h⟩ := bind_eq_ok.mp h
    have hwalk : productWalk m (m.productStep (abstractMove (p.classifierOf pubs))) opt.cap fuel =
        some o := by
      unfold search at ho
      split at ho
      · cases ho
      · next heq =>
        cases ho
        exact heq
    cases o with
    | capped states =>
      obtain ⟨hv, -⟩ := finish_eq_ok h
      have hcap : r.v.k = .cap := by rw [hv]
      exact ⟨fun hk => absurd (hcap.symm.trans hk) (by decide),
        fun hk => absurd (hcap.symm.trans hk) (by decide)⟩
    | closed states =>
      obtain ⟨hv, -⟩ := finish_eq_ok h
      have hholds : r.v.k = .holds := by rw [hv]
      refine ⟨fun _ st hst => ?_, fun hk => absurd (hholds.symm.trans hk) (by decide)⟩
      obtain ⟨w, hw, hrun⟩ := hst
      obtain ⟨st', hst', heq⟩ :=
        concrete_simulated hm (fun i H hH => published_included hp hpubs hH) hw hrun
      have hgood := productWalk_closed hwalk hw hst'
      unfold Model.isBad at hgood ⊢
      rw [← heq]
      exact hgood
    | found w states =>
      obtain ⟨culprits, hre, h⟩ := bind_eq_ok.mp h
      split at h
      · next hnil =>
        subst hnil
        obtain ⟨values, hval, h⟩ := bind_eq_ok.mp h
        obtain ⟨hv, hfin⟩ := finish_eq_ok h
        have hviol : r.v.k = .violation := by rw [hv]
        refine ⟨fun hk => absurd (hviol.symm.trans hk) (by decide), fun _ => ?_⟩
        obtain ⟨hw, s, hs, hbad⟩ := productWalk_found hwalk
        rw [hv, hfin]
        exact ⟨hw, violation_sound hm hw hs hbad hre hval⟩
      · obtain ⟨next, hnext, h⟩ := bind_eq_ok.mp h
        obtain ⟨p', hp', hnext⟩ := bind_eq_ok.mp hnext
        obtain ⟨idx, -, hnext⟩ := bind_eq_ok.mp hnext
        split at hnext
        · cases hnext
        split at hnext
        · cases hnext
        · cases hnext
          exact ih (refineCulprits_sound hp hp') h

theorem mono_holds {m : Model} {cap : Int} {fuel : Nat} {v : Verdict}
    (h : mono m cap fuel = some v) (hk : v.k = .holds) :
    ∀ st, m.Reachable st → m.isBad st = false := by
  obtain ⟨o, ho, h⟩ := Option.map_eq_some_iff.mp h
  cases o with
  | found w states => subst h; cases hk
  | capped states => subst h; cases hk
  | closed states => exact fun st ⟨w, hw, hst⟩ => productWalk_closed ho hw hst

theorem mono_violation {m : Model} {cap : Int} {fuel : Nat} {v : Verdict}
    (h : mono m cap fuel = some v) (hk : v.k = .violation) :
    ∃ st, m.Reachable st ∧ m.isBad st = true := by
  obtain ⟨o, ho, h⟩ := Option.map_eq_some_iff.mp h
  cases o with
  | capped states => subst h; cases hk
  | closed states => subst h; cases hk
  | found w states =>
    obtain ⟨hw, s, hs, hbad⟩ := productWalk_found ho
    exact ⟨s, ⟨w, hw, hs⟩, hbad⟩

theorem run_sound {m : Model} (hm : m.WF) {opt : Options} {fuel : Nat} {r : RunResult}
    (h : run m opt fuel = .ok r) : r.Sound m := by
  obtain ⟨p, hp, h⟩ := bind_eq_ok.mp h
  obtain ⟨idx, -, h⟩ := bind_eq_ok.mp h
  exact rounds_sound hm (build_sound hp) h

/-- A counter whose only event needs a lock that never opens. -/
def lockedCounter : Model where
  leaves := [⟨2, 1, [some 1, none], [0, 1]⟩, ⟨1, 1, [none], [0]⟩]
  leafNames := ["x", "lock"]
  events := [⟨"go", [(0, 0), (1, 0)]⟩]
  mon := ⟨2, 1, [some 1, none], [false, true]⟩
  propLeaves := [0]
  monitorValues := [[0], [1]]
  propertyText := "(== x 1)"

theorem lockedCounter_wf : lockedCounter.WF where
  leaves := by
    refine List.forall_mem_cons.mpr ⟨?_, List.forall_mem_singleton.mpr ?_⟩
    · exact ⟨by decide, by decide, by simp, by decide⟩
    · exact ⟨by decide, by decide, by simp, by decide⟩
  events := List.forall_mem_singleton.mpr ⟨by decide, by decide, by decide⟩
  count := rfl
  props := by decide
  monitor := ⟨by decide, by simp [lockedCounter], by decide⟩
  exact := by
    refine ⟨[[0], [1]], rfl, rfl, ?_⟩
    decide

end LibHSC.Cegar
