import LibHSC.Library.Explore
import Mathlib.Data.List.Shortlex
import Mathlib.Order.Defs.LinearOrder

/-!
The order of a breadth-first walk. With the labels in increasing order the states are
found in the shortlex order of their words, and each word is the least that leads to its
state.
-/

namespace Explore

section Order

variable {L : Type} [LinearOrder L]

/-- Shorter, or as long and before in the order of the letters. -/
abbrev Before (v w : List L) : Prop := List.Shortlex (· < ·) v w

/-- A word, or one before it. -/
def AtMost (v w : List L) : Prop := v = w ∨ Before v w

theorem lex_snoc {v w : List L} {a b : L} (hlen : v.length = w.length)
    (h : List.Lex (· < ·) v w) : List.Lex (· < ·) (v ++ [a]) (w ++ [b]) := by
  induction h with
  | nil => cases hlen
  | cons h ih => exact .cons (ih (Nat.succ.inj hlen))
  | rel h => exact .rel h

theorem lex_same {w : List L} {a b : L} (h : a < b) :
    List.Lex (· < ·) (w ++ [a]) (w ++ [b]) := by
  induction w with
  | nil => exact .rel h
  | cons x w ih => exact .cons ih

/-- One letter more on both sides. -/
theorem before_snoc {v w : List L} (a b : L) (h : Before v w) : Before (v ++ [a]) (w ++ [b]) := by
  rcases List.shortlex_def.mp h with hlt | ⟨hlen, hlex⟩
  · refine .of_length_lt ?_
    rw [List.length_append, List.length_append]
    exact Nat.add_lt_add_right hlt 1
  · refine .of_lex ?_ (lex_snoc hlen hlex)
    rw [List.length_append, List.length_append, hlen]
    rfl

theorem before_last {w : List L} {a b : L} (h : a < b) : Before (w ++ [a]) (w ++ [b]) :=
  .of_lex (by rw [List.length_append, List.length_append]; rfl) (lex_same h)

theorem nil_before (w : List L) (a : L) : Before [] (w ++ [a]) :=
  .of_length_lt (by rw [List.length_append]; exact Nat.succ_pos _)

theorem before_trans {u v w : List L} (h : Before u v) (h' : Before v w) : Before u w := by
  rcases List.shortlex_def.mp h with hlt | ⟨hlen, hlex⟩
  · refine .of_length_lt ?_
    rcases List.shortlex_def.mp h' with hlt' | ⟨hlen', -⟩
    · exact hlt.trans hlt'
    · exact hlen' ▸ hlt
  · rcases List.shortlex_def.mp h' with hlt' | ⟨hlen', hlex'⟩
    · exact .of_length_lt (hlen ▸ hlt')
    · exact .of_lex (hlen.trans hlen') (List.lex_trans (fun h h' => lt_trans h h') hlex hlex')

theorem before_irrefl (w : List L) : ¬ Before w w := fun h => asymm_of Before h h

theorem AtMost.trans {u v w : List L} (h : AtMost u v) (h' : AtMost v w) : AtMost u w := by
  rcases h with rfl | h
  · exact h'
  · rcases h' with rfl | h'
    · exact .inr h
    · exact .inr (before_trans h h')

theorem AtMost.snoc {v w : List L} (h : AtMost v w) (a : L) : AtMost (v ++ [a]) (w ++ [a]) := by
  rcases h with rfl | h
  · exact .inl rfl
  · exact .inr (before_snoc a a h)

theorem AtMost.antisymm {v w : List L} (h : AtMost v w) (h' : AtMost w v) : v = w := by
  rcases h with rfl | h
  · rfl
  · rcases h' with rfl | h'
    · rfl
    · exact absurd (before_trans h h') (before_irrefl v)

/-- A beginning comes before the whole. -/
theorem atMost_of_prefix {v w : List L} (h : v <+: w) : AtMost v w := by
  rcases h.length_le.lt_or_eq with hlt | hlen
  · exact .inr (.of_length_lt hlt)
  · exact .inl (h.eq_of_length hlen)

/-- Two lists of words in order that hold the same words are the same list. -/
theorem sorted_ext {v w : List (List L)} (hv : v.Pairwise Before) (hw : w.Pairwise Before)
    (h : ∀ u, u ∈ v ↔ u ∈ w) : v = w := by
  have hnv : v.Nodup := hv.imp fun hb => fun he => before_irrefl _ (he ▸ hb)
  have hnw : w.Nodup := hw.imp fun hb => fun he => before_irrefl _ (he ▸ hb)
  exact ((List.perm_ext_iff_of_nodup hnv hnw).mpr h).eq_of_pairwise
    (fun a b _ _ h h' => absurd (before_trans h h') (before_irrefl a)) hv hw

end Order

section Walk

variable {σ L : Type} [LinearOrder L] [DecidableEq σ] {step : σ → L → Option σ}
  {goal : σ → Bool} {limit : Nat → Bool} {labels : List L} {init : σ}

/-- What the words of a record say of a step: the state it leads to has a word no later. -/
def Led (states : List (σ × List L)) (s : σ) (w : List L) : Prop :=
  ∃ q ∈ states, q.1 = s ∧ AtMost q.2 w

omit [DecidableEq σ] in
theorem Led.mono {states states' : List (σ × List L)} {s : σ} {w : List L}
    (hsub : ∀ q ∈ states, q ∈ states') (h : Led states s w) : Led states' s w := by
  obtain ⟨q, hq, h⟩ := h
  exact ⟨q, hsub q hq, h⟩

omit [LinearOrder L] in
/-- Visiting only adds to the record. -/
theorem visit_prefix {s : σ} {w : List L} : ∀ {ls : List L} {states states' : List (σ × List L)},
    visit step goal limit s w ls states = .ok states' → ∃ ext, states' = states ++ ext := by
  intro ls
  induction ls with
  | nil =>
    intro states states' h
    cases h
    exact ⟨[], by simp⟩
  | cons l ls ih =>
    intro states states' h
    unfold visit at h
    split at h
    · exact ih h
    split at h
    · cases h
    split at h
    · exact ih h
    split at h
    · cases h
    · obtain ⟨ext, rfl⟩ := ih h
      exact ⟨_ :: ext, List.append_assoc _ _ _⟩

/-- Visiting one state: what is recorded before it comes before its successors, and these
stand in the order of their letters. -/
theorem visit_ordered {s : σ} {w : List L} : ∀ {ls : List L} {states states' : List (σ × List L)},
    ls.Pairwise (· < ·) → (states.map Prod.snd).Pairwise Before →
    (∀ q ∈ states, ∀ l ∈ ls, Before q.2 (w ++ [l])) →
    visit step goal limit s w ls states = .ok states' →
    (states'.map Prod.snd).Pairwise Before ∧
      (∀ q ∈ states', q ∈ states ∨ ∃ l ∈ ls, q.2 = w ++ [l]) ∧
      ∀ l ∈ ls, ∀ s', step s l = some s' → Led states' s' (w ++ [l]) := by
  intro ls
  induction ls with
  | nil =>
    intro states states' _ hsorted _ h
    cases h
    exact ⟨hsorted, fun q hq => .inl hq, fun l hl => nomatch hl⟩
  | cons l ls ih =>
    intro states states' hls hsorted hbefore h
    obtain ⟨hl, hls⟩ := List.pairwise_cons.mp hls
    have hrest : ∀ q ∈ states, ∀ l' ∈ ls, Before q.2 (w ++ [l']) :=
      fun q hq l' hl' => hbefore q hq l' (List.mem_cons_of_mem _ hl')
    have hkeep : ∀ {st st' : List (σ × List L)}, (∀ q ∈ st', q ∈ st ∨ ∃ l' ∈ ls, q.2 = w ++ [l']) →
        ∀ q ∈ st', q ∈ st ∨ ∃ l' ∈ l :: ls, q.2 = w ++ [l'] := by
      intro st st' hst q hq
      rcases hst q hq with hq | ⟨l', hl', he⟩
      · exact .inl hq
      · exact .inr ⟨l', List.mem_cons_of_mem _ hl', he⟩
    unfold visit at h
    split at h
    · next hnone =>
      obtain ⟨h1, h2, h3⟩ := ih hls hsorted hrest h
      refine ⟨h1, hkeep h2, List.forall_mem_cons.mpr ⟨fun s' hs' => ?_, h3⟩⟩
      rw [hnone] at hs'
      cases hs'
    · next s' hs' =>
      split at h
      · cases h
      split at h
      · next hseen =>
        obtain ⟨h1, h2, h3⟩ := ih hls hsorted hrest h
        refine ⟨h1, hkeep h2, List.forall_mem_cons.mpr ⟨fun s'' hs'' => ?_, h3⟩⟩
        rw [hs'] at hs''
        cases hs''
        obtain ⟨q, hq, he⟩ := List.mem_map.mp hseen
        obtain ⟨ext, rfl⟩ := visit_prefix h
        exact ⟨q, List.mem_append_left _ hq, he, .inr (hbefore q hq l List.mem_cons_self)⟩
      split at h
      · cases h
      · have hsorted' : ((states ++ [(s', w ++ [l])]).map Prod.snd).Pairwise Before := by
          rw [List.map_append, List.pairwise_append]
          refine ⟨hsorted, List.pairwise_singleton _ _, ?_⟩
          intro v hv v' hv'
          obtain ⟨q, hq, rfl⟩ := List.mem_map.mp hv
          obtain rfl := List.mem_singleton.mp hv'
          exact hbefore q hq l List.mem_cons_self
        have hbefore' : ∀ q ∈ states ++ [(s', w ++ [l])], ∀ l' ∈ ls, Before q.2 (w ++ [l']) := by
          intro q hq l' hl'
          rcases List.mem_append.mp hq with hq | hq
          · exact hrest q hq l' hl'
          · obtain rfl := List.mem_singleton.mp hq
            exact before_last (hl l' hl')
        obtain ⟨h1, h2, h3⟩ := ih hls hsorted' hbefore' h
        obtain ⟨ext, hext⟩ := visit_prefix h
        refine ⟨h1, fun q hq => ?_, List.forall_mem_cons.mpr ⟨fun s'' hs'' => ?_, h3⟩⟩
        · rcases hkeep h2 q hq with hq | hq
          · rcases List.mem_append.mp hq with hq | hq
            · exact .inl hq
            · obtain rfl := List.mem_singleton.mp hq
              exact .inr ⟨l, List.mem_cons_self, rfl⟩
          · exact .inr hq
        · rw [hs'] at hs''
          cases hs''
          rw [hext]
          exact ⟨(s', w ++ [l]), by simp, rfl, .inl rfl⟩

/-- The invariant of the walk on the words: they stand in order, every one but the first
extends one of a state already visited, and the steps of these lead no later. -/
structure Ordered (step : σ → L → Option σ) (labels : List L) (head : Nat)
    (states : List (σ × List L)) : Prop where
  sorted : (states.map Prod.snd).Pairwise Before
  born : ∀ q ∈ states, q.2 = [] ∨ ∃ i < head, ∃ p, states[i]? = some p ∧ ∃ l, q.2 = p.2 ++ [l]
  led : ∀ i < head, ∀ p, states[i]? = some p → ∀ l ∈ labels, ∀ s', step p.1 l = some s' →
    Led states s' (p.2 ++ [l])

omit [DecidableEq σ] in
theorem Ordered.before {head : Nat} {states : List (σ × List L)} {p : σ × List L}
    (h : Ordered step labels head states) (hp : states[head]? = some p) :
    ∀ q ∈ states, ∀ l, Before q.2 (p.2 ++ [l]) := by
  intro q hq l
  rcases h.born q hq with he | ⟨i, hi, r, hr, l', he⟩
  · rw [he]
    exact nil_before p.2 l
  · rw [he]
    refine before_snoc l' l ?_
    have hri : (states.map Prod.snd)[i]? = some r.2 := by rw [List.getElem?_map, hr]; rfl
    have hph : (states.map Prod.snd)[head]? = some p.2 := by rw [List.getElem?_map, hp]; rfl
    obtain ⟨hlt, hri⟩ := List.getElem?_eq_some_iff.mp hri
    obtain ⟨hlt', hph⟩ := List.getElem?_eq_some_iff.mp hph
    rw [← hri, ← hph]
    exact List.pairwise_iff_getElem.mp h.sorted i head hlt hlt' hi

theorem Ordered.visit {head : Nat} {states states' : List (σ × List L)} {p : σ × List L}
    (hlabels : labels.Pairwise (· < ·)) (h : Ordered step labels head states)
    (hp : states[head]? = some p)
    (hv : visit step goal limit p.1 p.2 labels states = .ok states') :
    Ordered step labels (head + 1) states' := by
  obtain ⟨h1, h2, h3⟩ := visit_ordered hlabels h.sorted (fun q hq l _ => h.before hp q hq l) hv
  obtain ⟨ext, rfl⟩ := visit_prefix hv
  have hget : ∀ {i : Nat} {q : σ × List L}, states[i]? = some q → (states ++ ext)[i]? = some q := by
    intro i q hq
    rw [List.getElem?_append_left (List.getElem?_eq_some_iff.mp hq).1, hq]
  refine ⟨h1, fun q hq => ?_, fun i hi q hq l hl s' hs' => ?_⟩
  · rcases h2 q hq with hq | ⟨l, -, he⟩
    · rcases h.born q hq with he | ⟨i, hi, r, hr, l, he⟩
      · exact .inl he
      · exact .inr ⟨i, Nat.lt_succ_of_lt hi, r, hget hr, l, he⟩
    · exact .inr ⟨head, Nat.lt_succ_self head, p, hget hp, l, he⟩
  · have hlen := (List.getElem?_eq_some_iff.mp hp).1
    rw [List.getElem?_append_left (by omega)] at hq
    by_cases he : i = head
    · subst he
      rw [hp] at hq
      cases hq
      exact h3 l hl s' hs'
    · exact (h.led i (by omega) q hq l hl s' hs').mono
        fun q hq => List.mem_append_left _ hq

theorem walk_ordered (hlabels : labels.Pairwise (· < ·)) {fuel : Nat} :
    ∀ {head : Nat} {states st : List (σ × List L)}, Ordered step labels head states →
    walk step goal limit labels fuel head states = some (.closed st) →
    Ordered step labels st.length st := by
  induction fuel with
  | zero =>
    intro head states st _ h
    cases h
  | succ n ih =>
    intro head states st ho h
    unfold walk at h
    split at h
    · next hnone =>
      cases h
      have hlen := List.getElem?_eq_none_iff.mp hnone
      refine ⟨ho.sorted, fun q hq => ?_, fun i hi => ho.led i (by omega)⟩
      rcases ho.born q hq with he | ⟨i, -, r, hr, l, he⟩
      · exact .inl he
      · exact .inr ⟨i, (List.getElem?_eq_some_iff.mp hr).1, r, hr, l, he⟩
    · next p hp =>
      split at h
      · next o hv =>
        cases h
        exact absurd hv visit_not_closed
      · next states' hv => exact ih (ho.visit hlabels hp hv) h

/-- The words of a closed walk stand in shortlex order, and a state that some word leads
to has one no later. By induction on the word, from its end. -/
theorem explore_least (hlabels : labels.Pairwise (· < ·)) {fuel : Nat} {st : List (σ × List L)}
    (h : explore step goal limit labels fuel init = some (.closed st)) :
    (st.map Prod.snd).Pairwise Before ∧ ∀ {w : List L} {s : σ}, (∀ l ∈ w, l ∈ labels) →
      run step init w = some s → Led st s w := by
  have hstart : Ordered step labels 0 [(init, [])] := by
    refine ⟨List.pairwise_singleton _ _, fun q hq => ?_, fun i hi => absurd hi (Nat.not_lt_zero i)⟩
    obtain rfl := List.mem_singleton.mp hq
    exact .inl rfl
  have ho := walk_ordered hlabels hstart h
  obtain ⟨hfirst, -⟩ := explore_complete h
  refine ⟨ho.sorted, fun {w} => ?_⟩
  induction w using List.reverseRecOn with
  | nil =>
    intro s _ hs
    cases hs
    exact ⟨_, List.mem_of_getElem? hfirst, rfl, .inl rfl⟩
  | append_singleton w l ih =>
    intro s hw hs
    rw [run_snoc] at hs
    obtain ⟨s₀, hs₀, hs⟩ := Option.bind_eq_some_iff.mp hs
    obtain ⟨p, hp, rfl, hle⟩ := ih (fun x hx => hw x (List.mem_append_left _ hx)) hs₀
    obtain ⟨i, hi, hpi⟩ := List.mem_iff_getElem.mp hp
    obtain ⟨q, hq, hqs, hqle⟩ := ho.led i hi p (List.getElem?_eq_some_iff.mpr ⟨hi, hpi⟩) l
      (hw l (by simp)) s hs
    exact ⟨q, hq, hqs, hqle.trans (hle.snoc l)⟩

omit [LinearOrder L] in
/-- A walk that cannot leave its first state. -/
theorem explore_stuck {labels : List L} {init : σ} (h : ∀ l ∈ labels, step init l = none)
    (goal : σ → Bool) (limit : Nat → Bool) (fuel : Nat) :
    explore step goal limit labels (fuel + 2) init = some (.closed [(init, [])]) := by
  have hvisit : ∀ ls : List L, (∀ l ∈ ls, l ∈ labels) →
      visit step goal limit init [] ls [(init, [])] = .ok [(init, [])] := by
    intro ls hls
    induction ls with
    | nil => rfl
    | cons l ls ih =>
      obtain ⟨hl, hls⟩ := List.forall_mem_cons.mp hls
      unfold visit
      rw [h l hl]
      exact ih hls
  unfold explore walk
  simp only [List.getElem?_cons_zero, hvisit labels fun _ hl => hl]
  unfold walk
  rfl

omit [LinearOrder L] in
/-- Steps that agree on the labels are walked alike. -/
theorem explore_congr {step step' : σ → L → Option σ} {labels : List L}
    (h : ∀ s, ∀ l ∈ labels, step s l = step' s l) (goal : σ → Bool) (limit : Nat → Bool)
    (fuel : Nat) (init : σ) :
    explore step goal limit labels fuel init = explore step' goal limit labels fuel init := by
  have hvisit : ∀ (ls : List L), (∀ l ∈ ls, l ∈ labels) → ∀ s w states,
      visit step goal limit s w ls states = visit step' goal limit s w ls states := by
    intro ls hls s w
    induction ls with
    | nil => exact fun _ => rfl
    | cons l ls ih =>
      obtain ⟨hl, hls⟩ := List.forall_mem_cons.mp hls
      intro states
      unfold visit
      rw [h s l hl]
      simp only [ih hls]
  have hwalk : ∀ fuel head states, walk step goal limit labels fuel head states =
      walk step' goal limit labels fuel head states := by
    intro fuel
    induction fuel with
    | zero => exact fun _ _ => rfl
    | succ n ih =>
      intro head states
      unfold walk
      simp only [hvisit labels (fun _ hl => hl), ih]
  exact hwalk fuel 0 _

omit [LinearOrder L] in
/-- The words recorded lead to the states they stand beside. -/
theorem explore_traced {fuel : Nat} {st : List (σ × List L)}
    (h : explore step goal limit labels fuel init = some (.closed st)) :
    Traced step labels init st := (walk_closed invariant_init h).traced

end Walk

end Explore
