import LibHSC.Cegar.Refine
import LibHSC.Library.Shortlex

/-!
What the two inclusion walks answer over any leaf and any classifier of its
letters. The walk of `certify` tests the pairs it enters, and never the one it
starts from: a classifier that rejects the empty word is noticed only by a leaf
that fires something.
-/

namespace LibHSC.Cegar

/-- A classifier as it is presented: a complete table, whose dead class absorbs. -/
structure Classifier.WF (h : Classifier) : Prop where
  pos : 0 < h.k
  size : h.act.length = h.k * h.nLetters
  target : ∀ c < h.k, ∀ a < h.nLetters, h.step c a < h.k
  dead : ∀ d, h.dead = some d → d < h.k ∧ ∀ a < h.nLetters, h.step d a = d

/-- A word over the letters of a leaf. -/
def Lts.IsWord (l : Lts) (w : List Nat) : Prop := ∀ a ∈ w, a < l.nLetters

/-- The traces of the leaf are words of the classifier. -/
def Lts.Within (l : Lts) (h : Classifier) : Prop :=
  ∀ w, l.IsWord w → (l.fire w).isSome = true → h.accepts w = true

/-- The words of the classifier are traces of the leaf. -/
def Classifier.Within (h : Classifier) (l : Lts) : Prop :=
  ∀ w, l.IsWord w → h.accepts w = true → (l.fire w).isSome = true

/-- Certified exactly when the traces are accepted, and otherwise a rejected trace. -/
def CertifyExact (l : Lts) (h : Classifier) : Prop :=
  ∃ r, certify l h = .ok r ∧ (r.certified = true ↔ l.Within h) ∧
    (r.certified = false → l.IsWord r.counterexample ∧
      (l.fire r.counterexample).isSome = true ∧ h.accepts r.counterexample = false)

/-- No gap exactly when the accepted words are traces, and otherwise an accepted word
that is none. -/
def ReverseGapExact (l : Lts) (h : Classifier) : Prop :=
  ∃ r, reverseGap l h = .ok r ∧ (r = none ↔ h.Within l) ∧
    ∀ w, r = some w → l.IsWord w ∧ h.accepts w = true ∧ l.fire w = none

section Words

variable {l : Lts} {h : Classifier}

theorem live_eq_false {c : Nat} : h.live c = false ↔ h.dead = some c := by
  rw [Classifier.live, decide_eq_false_iff_not, not_not]

/-- What is rejected stays rejected. -/
theorem accepts_snoc (hh : h.WF) {w : List Nat} {a : Nat} (ha : a < h.nLetters)
    (hw : h.accepts w = false) : h.accepts (w ++ [a]) = false := by
  have hdead : h.dead = some (h.classify w) := live_eq_false.mp hw
  rw [Classifier.accepts, classify_snoc, ((hh.dead _ hdead).2 a ha)]
  exact hw

/-- The beginnings of an accepted word are accepted. -/
theorem accepts_prefix (hh : h.WF) {w : List Nat} (hw : ∀ a ∈ w, a < h.nLetters)
    (hacc : h.accepts w = true) : ∀ u, u <+: w → h.accepts u = true := by
  induction w using List.reverseRecOn with
  | nil =>
    intro u hu
    rwa [List.prefix_nil.mp hu]
  | append_singleton w a ih =>
    intro u hu
    rcases List.prefix_concat_iff.mp hu with rfl | hu
    · exact hacc
    · refine ih (fun b hb => hw b (List.mem_append_left _ hb)) ?_ u hu
      by_contra hno
      have hrej := accepts_snoc hh (hw a (by simp)) (Bool.eq_false_iff.mpr hno)
      rw [hacc] at hrej
      cases hrej

theorem fire_singleton (a : Nat) : l.fire [a] = l.step 0 a := Explore.run_singleton 0 a

end Words

section Walks

variable {l : Lts} {h : Classifier}

theorem reverseGap_exact (hl : l.WF) (hh : h.WF) (hn : h.nLetters = l.nLetters) :
    ReverseGapExact l h := by
  have htarget : ∀ c < h.k, ∀ a < l.nLetters, h.step c a < h.k := hn ▸ hh.target
  obtain ⟨r, hr, hgap, hnone⟩ := reverseGap_spec hl hh.pos htarget
  refine ⟨r, hr, ⟨fun h0 w hw hacc => ?_, fun hin => ?_⟩, hgap⟩
  · have hall := accepts_prefix hh (fun a ha => hn ▸ hw a ha) hacc
    exact hnone h0 w hw fun u hu _ => hall u hu
  · cases r with
    | none => rfl
    | some w =>
      obtain ⟨hw, hacc, hfire⟩ := hgap w rfl
      have hsome := hin w hw hacc
      rw [hfire] at hsome
      cases hsome

/-- A run of `certify` without a counterexample has seen every trace but the empty one. -/
theorem certify_within {r : CertResult} (hr : certify l h = .ok r) (hc : r.certified = true)
    (hlive : h.live 0 = true) : l.Within h := by
  intro w hw hf
  cases w with
  | nil => exact hlive
  | cons a w => exact included_of_certify hr hc _ (List.cons_ne_nil a w) hw hf

theorem certify_exact (hl : l.WF) (hh : h.WF) (hn : h.nLetters = l.nLetters)
    (hwhen : h.live 0 = true ∨ ∃ a < l.nLetters, (l.step 0 a).isSome = true) :
    CertifyExact l h := by
  have htarget : ∀ c < h.k, ∀ a < l.nLetters, h.step c a < h.k := hn ▸ hh.target
  obtain ⟨r, hr, hcex⟩ := certify_spec hl hh.pos htarget
  refine ⟨r, hr, ⟨fun hc => ?_, fun hin => ?_⟩, hcex⟩
  · rcases hwhen with hlive | ⟨a, ha, hstep⟩
    · exact certify_within hr hc hlive
    · cases hlive : h.live 0 with
      | true => exact certify_within hr hc hlive
      | false =>
        -- the empty word is rejected, and with it the letter that fires
        have hacc : h.accepts [a] = true :=
          included_of_certify hr hc [a] (List.cons_ne_nil a []) (by simpa using ha)
            (by rwa [fire_singleton])
        have hrej : h.accepts ([] ++ [a]) = false := accepts_snoc hh (hn ▸ ha) hlive
        rw [List.nil_append, hacc] at hrej
        cases hrej
  · by_contra hno
    obtain ⟨hw, hf, hrej⟩ := hcex (Bool.eq_false_iff.mpr hno)
    rw [hin _ hw hf] at hrej
    cases hrej

/-- Where nothing fires the walk ends at once, whatever the class of the empty word. -/
theorem certify_stuck (hstuck : ∀ a < l.nLetters, l.step 0 a = none) :
    certify l h = .ok ⟨true, []⟩ := by
  have hnone : ∀ a ∈ List.range l.nLetters, pairStep l h (0, 0) a = none := by
    intro a ha
    rw [pairStep, hstuck a (List.mem_range.mp ha)]
    rfl
  unfold certify
  rw [Explore.explore_stuck hnone]

end Walks

/-- One state and no transition. -/
def stuckLeaf : Lts := ⟨1, 1, [none], [0]⟩

/-- The table of no word: its one class is dead. -/
def noWord : Classifier := ⟨1, 1, some 0, [0], [[]]⟩

/-- Letter 0 leads around three states, letter 1 back to the first. -/
def ringLeaf : Lts := ⟨3, 2, [some 1, none, some 2, some 0, some 0, none], [0, 1, 2]⟩

/-- The words where letter 0 does not come three times in a row. -/
def twiceAtMost : Classifier :=
  ⟨2, 4, some 3, [1, 0, 2, 0, 3, 0, 3, 3], [[], [0], [0, 0], [0, 0, 0]]⟩

theorem ringLeaf_wf : ringLeaf.WF where
  pos := by decide
  size := by decide
  target := by
    intro q hq
    have h : q = 1 ∨ q = 2 ∨ q = 0 := by simpa [ringLeaf] using hq
    show q < 3
    omega
  values := by decide

theorem twiceAtMost_wf : twiceAtMost.WF where
  pos := by decide
  size := by decide
  target := by decide
  dead := by
    intro d hd
    cases hd
    decide

end LibHSC.Cegar
