import Mathlib.Data.List.Basic
import Mathlib.Logic.Function.Basic

/-!
Breadth-first order. The states stand in the order they were found, the first
`h` of them are expanded, and `level` numbers them. `Layered` is what an
expansion keeps; when every state is expanded, the level of a state is its
distance.
-/

namespace Levels

section Reach

variable {σ : Type} (init : σ → Prop) (next : σ → σ → Prop)

/-- Reached in so many steps. -/
inductive ReachIn : Nat → σ → Prop
  | start {s : σ} : init s → ReachIn 0 s
  | step {n : Nat} {s t : σ} : ReachIn n s → next s t → ReachIn (n + 1) t

def Reachable (s : σ) : Prop := ∃ n, ReachIn init next n s

structure Layered (states : List σ) (h : Nat) (level : σ → Nat) : Prop where
  reach : ∀ s ∈ states, ReachIn init next (level s) s
  sorted : states.Pairwise fun a b => level a ≤ level b
  near : ∀ c, states[h]? = some c → ∀ s ∈ states, level s ≤ level c + 1
  closed : ∀ i < h, ∀ c, states[i]? = some c → ∀ t, next c t → t ∈ states ∧ level t ≤ level c + 1
  started : ∀ s, init s → s ∈ states ∧ level s = 0

end Reach

section Order

variable {σ : Type} {init : σ → Prop} {next : σ → σ → Prop} {states : List σ} {h : Nat}
  {level : σ → Nat}

/-- The states found at the start. -/
theorem layered_start (hs : ∀ s, s ∈ states ↔ init s) :
    Layered init next states 0 fun _ => 0 where
  reach s hmem := .start ((hs s).mp hmem)
  sorted := List.pairwise_of_forall fun _ _ => Nat.le_refl _
  near _ _ _ _ := Nat.zero_le _
  closed i hi := absurd hi (Nat.not_lt_zero i)
  started s hinit := ⟨(hs s).mpr hinit, rfl⟩

/-- A new successor of the state under expansion stands behind all others. -/
theorem Layered.found [DecidableEq σ] (hl : Layered init next states h level) {c t : σ}
    (hc : states[h]? = some c) (hnext : next c t) (ht : t ∉ states) :
    Layered init next (states ++ [t]) h (Function.update level t (level c + 1)) := by
  have hsame : ∀ s ∈ states, Function.update level t (level c + 1) s = level s := by
    intro s hs
    refine Function.update_of_ne ?_ _ _
    rintro rfl
    exact ht hs
  have hcmem := List.mem_of_getElem? hc
  have hlt : h < states.length := (List.getElem?_eq_some_iff.mp hc).1
  refine ⟨fun s hs => ?_, ?_, fun d hd s hs => ?_, fun i hi d hd u hu => ?_, fun s hs => ?_⟩
  · rcases List.mem_append.mp hs with hs | hs
    · rw [hsame s hs]
      exact hl.reach s hs
    · rw [List.mem_singleton.mp hs, Function.update_self]
      exact .step (hl.reach c hcmem) hnext
  · rw [List.pairwise_append]
    refine ⟨hl.sorted.imp_of_mem fun ha hb hab => ?_, List.pairwise_singleton _ _, ?_⟩
    · rw [hsame _ ha, hsame _ hb]
      exact hab
    · intro a ha b hb
      rw [List.mem_singleton.mp hb, hsame a ha, Function.update_self]
      exact hl.near c hc a ha
  · rw [List.getElem?_append_left hlt, hc] at hd
    cases hd
    rw [hsame c hcmem]
    rcases List.mem_append.mp hs with hs | hs
    · rw [hsame s hs]
      exact hl.near c hc s hs
    · have heq : s = t := List.mem_singleton.mp hs
      subst heq
      exact Nat.le_of_eq (Function.update_self ..)
  · rw [List.getElem?_append_left (by omega)] at hd
    obtain ⟨h1, h2⟩ := hl.closed i hi d hd u hu
    rw [hsame u h1, hsame d (List.mem_of_getElem? hd)]
    exact ⟨List.mem_append_left _ h1, h2⟩
  · obtain ⟨h1, h2⟩ := hl.started s hs
    exact ⟨List.mem_append_left _ h1, (hsame s h1).trans h2⟩

/-- A state whose successors are all found is expanded. -/
theorem Layered.expanded (hl : Layered init next states h level) {c : σ}
    (hc : states[h]? = some c) (hall : ∀ t, next c t → t ∈ states) :
    Layered init next states (h + 1) level := by
  refine ⟨hl.reach, hl.sorted, fun d hd s hs => ?_, fun i hi d hd t ht => ?_, hl.started⟩
  · have hle : level c ≤ level d := by
      obtain ⟨h1, h1'⟩ := List.getElem?_eq_some_iff.mp hc
      obtain ⟨h2, h2'⟩ := List.getElem?_eq_some_iff.mp hd
      have := List.pairwise_iff_getElem.mp hl.sorted h (h + 1) h1 h2 (by omega)
      rwa [h1', h2'] at this
    have := hl.near c hc s hs
    omega
  · rcases Nat.lt_succ_iff_lt_or_eq.mp hi with hlt | rfl
    · exact hl.closed i hlt d hd t ht
    · rw [hc] at hd
      cases hd
      exact ⟨hall t ht, hl.near c hc t (hall t ht)⟩

/-- With every state expanded the reachable states are found, each at a level no
higher than any way to it. -/
theorem Layered.complete (hl : Layered init next states states.length level) {n : Nat} {s : σ}
    (hs : ReachIn init next n s) : s ∈ states ∧ level s ≤ n := by
  induction hs with
  | start hinit =>
    obtain ⟨h1, h2⟩ := hl.started _ hinit
    exact ⟨h1, by omega⟩
  | @step n c t _ hnext ih =>
    obtain ⟨h1, h2⟩ := ih
    obtain ⟨i, hi, hc⟩ := List.getElem_of_mem h1
    obtain ⟨h3, h4⟩ := hl.closed i hi c (List.getElem?_eq_some_iff.mpr ⟨hi, hc⟩) t hnext
    exact ⟨h3, by omega⟩

theorem Layered.mem_iff (hl : Layered init next states states.length level) (s : σ) :
    s ∈ states ↔ Reachable init next s :=
  ⟨fun hs => ⟨_, hl.reach s hs⟩, fun ⟨_, hn⟩ => (hl.complete hn).1⟩

/-- The states stand in the order of their distances. -/
theorem Layered.ordered (hl : Layered init next states states.length level) :
    states.Pairwise fun a b => ∀ n, ReachIn init next n b → ∃ k ≤ n, ReachIn init next k a := by
  refine hl.sorted.imp_of_mem fun {a b} ha _ hab n hn => ?_
  exact ⟨level a, Nat.le_trans hab (hl.complete hn).2, hl.reach a ha⟩

end Order

section Distance

variable {σ : Type} (init : σ → Prop) (next : σ → σ → Prop)

/-- Reached in so many steps, and in no fewer. -/
def AtDistance (n : Nat) (s : σ) : Prop :=
  ReachIn init next n s ∧ ∀ m < n, ¬ ReachIn init next m s

variable {init next}

theorem reachIn_zero {s : σ} : ReachIn init next 0 s ↔ init s := by
  constructor
  · rintro (h | ⟨h, -⟩)
    exact h
  · exact .start

theorem reachIn_succ {n : Nat} {t : σ} :
    ReachIn init next (n + 1) t ↔ ∃ s, ReachIn init next n s ∧ next s t := by
  constructor
  · rintro (_ | ⟨h, hnext⟩)
    exact ⟨_, h, hnext⟩
  · rintro ⟨s, h, hnext⟩
    exact .step h hnext

theorem ReachIn.exists_atDistance {n : Nat} {s : σ} (h : ReachIn init next n s) :
    ∃ m ≤ n, AtDistance init next m s := by
  induction n using Nat.strongRecOn with
  | ind n ih =>
    by_cases hless : ∃ m < n, ReachIn init next m s
    · obtain ⟨m, hm, hr⟩ := hless
      obtain ⟨k, hk, hat⟩ := ih m hm hr
      exact ⟨k, by omega, hat⟩
    · exact ⟨n, Nat.le_refl n, h, fun m hm hr => hless ⟨m, hm, hr⟩⟩

theorem atDistance_zero {s : σ} : AtDistance init next 0 s ↔ init s :=
  ⟨fun h => reachIn_zero.mp h.1, fun h => ⟨.start h, fun m hm => absurd hm (Nat.not_lt_zero m)⟩⟩

/-- The next layer: a step from the last one, to where no layer has been. -/
theorem atDistance_succ {n : Nat} {t : σ} : AtDistance init next (n + 1) t ↔
    (∃ s, AtDistance init next n s ∧ next s t) ∧ ∀ m ≤ n, ¬ ReachIn init next m t := by
  constructor
  · rintro ⟨hr, hno⟩
    obtain ⟨s, hs, hnext⟩ := reachIn_succ.mp hr
    refine ⟨⟨s, ⟨hs, fun m hm hms => ?_⟩, hnext⟩, fun m hm => hno m (by omega)⟩
    exact hno (m + 1) (by omega) (.step hms hnext)
  · rintro ⟨⟨s, hs, hnext⟩, hno⟩
    exact ⟨.step hs.1 hnext, fun m hm => hno m (by omega)⟩

/-- An empty layer is the last one: all that is reached was reached before it. -/
theorem reachIn_before {n : Nat} (hempty : ∀ t, ¬ AtDistance init next (n + 1) t) {k : Nat}
    {t : σ} (h : ReachIn init next k t) : ∃ m ≤ n, ReachIn init next m t := by
  induction h with
  | start h => exact ⟨0, Nat.zero_le n, .start h⟩
  | @step k s t _ hnext ih =>
    obtain ⟨m, hm, hs⟩ := ih
    obtain ⟨d, hd, hat⟩ := hs.exists_atDistance
    by_cases hin : ∃ j ≤ n, ReachIn init next j t
    · exact hin
    · exfalso
      rcases Nat.lt_or_ge d n with hlt | hge
      · exact hin ⟨d + 1, hlt, .step hat.1 hnext⟩
      · obtain rfl : d = n := by omega
        exact hempty t (atDistance_succ.mpr ⟨⟨s, hat, hnext⟩, fun j hj hr => hin ⟨j, hj, hr⟩⟩)

end Distance

end Levels
