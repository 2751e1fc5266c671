import Mathlib.Data.List.Induction

/-!
Breadth-first exploration of a partial deterministic transition system. The
states found stand in the order of discovery, each with the word it was first
reached by; the walk ends at the first goal, at a limit on the states, or with
every state explored.
-/

namespace Explore

/-- How a walk ends. -/
inductive Outcome (σ L : Type) where
  | found (word : List L) (states : List (σ × List L))
  | capped (states : List (σ × List L))
  | closed (states : List (σ × List L))

section Walk

variable {σ L : Type} (step : σ → L → Option σ)

/-- The state a word leads to, if every step of it is defined. -/
def run : σ → List L → Option σ
  | s, [] => some s
  | s, l :: w =>
    match step s l with
    | none => none
    | some s' => run s' w

variable [DecidableEq σ] (goal : σ → Bool) (limit : Nat → Bool)

/-- The successors of one state, by the labels in order: a goal ends the walk, a
state seen before is skipped, a new one is recorded. -/
def visit (s : σ) (w : List L) :
    List L → List (σ × List L) → Except (Outcome σ L) (List (σ × List L))
  | [], states => .ok states
  | l :: ls, states =>
    match step s l with
    | none => visit s w ls states
    | some s' =>
      if goal s' then .error (.found (w ++ [l]) (states ++ [(s', w ++ [l])]))
      else if s' ∈ states.map Prod.fst then visit s w ls states
      else if limit (states.length + 1) then .error (.capped (states ++ [(s', w ++ [l])]))
      else visit s w ls (states ++ [(s', w ++ [l])])

/-- The walk from position `head` of the states on; `none` is out of fuel. -/
def walk (labels : List L) : Nat → Nat → List (σ × List L) → Option (Outcome σ L)
  | 0, _, _ => none
  | fuel + 1, head, states =>
    match states[head]? with
    | none => some (.closed states)
    | some p =>
      match visit step goal limit p.1 p.2 labels states with
      | .error o => some o
      | .ok states' => walk labels fuel (head + 1) states'

def explore (labels : List L) (fuel : Nat) (init : σ) : Option (Outcome σ L) :=
  walk step goal limit labels fuel 0 [(init, [])]

end Walk

section Correctness

variable {σ L : Type} {step : σ → L → Option σ}

theorem run_cons (s : σ) (l : L) (w : List L) :
    run step s (l :: w) = (step s l).bind fun s' => run step s' w := by
  rw [run]
  cases step s l with
  | none => rfl
  | some s' => rfl

theorem run_singleton (s : σ) (l : L) : run step s [l] = step s l := by
  rw [run_cons]
  cases step s l with
  | none => rfl
  | some s' => rfl

theorem run_append (s : σ) (w v : List L) :
    run step s (w ++ v) = (run step s w).bind fun s' => run step s' v := by
  induction w generalizing s with
  | nil => rfl
  | cons l w ih =>
    rw [List.cons_append, run_cons, run_cons]
    cases step s l with
    | none => rfl
    | some s' => exact ih s'

theorem run_snoc (s : σ) (w : List L) (l : L) :
    run step s (w ++ [l]) = (run step s w).bind fun s' => step s' l := by
  rw [run_append]
  congr 1
  funext s'
  exact run_singleton s' l

/-- Every recorded word is over the labels and leads to its state. -/
def Traced (step : σ → L → Option σ) (labels : List L) (init : σ)
    (states : List (σ × List L)) : Prop :=
  ∀ p ∈ states, run step init p.2 = some p.1 ∧ ∀ l ∈ p.2, l ∈ labels

variable [DecidableEq σ] {goal : σ → Bool} {limit : Nat → Bool} {labels : List L} {init : σ}

omit [DecidableEq σ] in
theorem Traced.snoc {states : List (σ × List L)} {s s' : σ} {w : List L} {l : L}
    (ht : Traced step labels init states) (hp : (s, w) ∈ states) (hl : l ∈ labels)
    (hs : step s l = some s') : Traced step labels init (states ++ [(s', w ++ [l])]) := by
  intro p hp'
  rcases List.mem_append.mp hp' with hp' | hp'
  · exact ht p hp'
  · obtain rfl := List.mem_singleton.mp hp'
    obtain ⟨h1, h2⟩ := ht (s, w) hp
    refine ⟨?_, ?_⟩
    · show run step init (w ++ [l]) = some s'
      rw [run_snoc, h1]
      exact hs
    · intro x hx
      rcases List.mem_append.mp hx with hx | hx
      · exact h2 x hx
      · rw [List.mem_singleton.mp hx]
        exact hl

/-- What visiting one state does: it extends the record, until none of its
successors is missing; and none of them is a goal. -/
theorem visit_ok {s : σ} {w : List L} : ∀ {ls : List L} {states states' : List (σ × List L)},
    Traced step labels init states → (s, w) ∈ states → (∀ l ∈ ls, l ∈ labels) →
    visit step goal limit s w ls states = .ok states' →
    Traced step labels init states' ∧ (∃ ext, states' = states ++ ext) ∧
      ∀ l ∈ ls, ∀ s', step s l = some s' → s' ∈ states'.map Prod.fst ∧ goal s' = false := by
  intro ls
  induction ls with
  | nil =>
    intro states states' ht _ _ h
    cases h
    exact ⟨ht, ⟨[], by simp⟩, by simp⟩
  | cons l ls ih =>
    intro states states' ht hp hls h
    obtain ⟨hl, hls⟩ := List.forall_mem_cons.mp hls
    unfold visit at h
    split at h
    · next hnone =>
      obtain ⟨h1, h2, h3⟩ := ih ht hp hls h
      refine ⟨h1, h2, List.forall_mem_cons.mpr ⟨fun s' hs' => ?_, h3⟩⟩
      rw [hnone] at hs'
      cases hs'
    · next s' hs' =>
      split at h
      · cases h
      next hgoal =>
      split at h
      · next hseen =>
        obtain ⟨h1, ⟨ext, rfl⟩, h3⟩ := ih ht hp hls h
        refine ⟨h1, ⟨ext, rfl⟩, List.forall_mem_cons.mpr ⟨fun s'' hs'' => ?_, h3⟩⟩
        rw [hs'] at hs''
        cases hs''
        rw [List.map_append]
        exact ⟨List.mem_append_left _ hseen, by simpa using hgoal⟩
      split at h
      · cases h
      · obtain ⟨h1, ⟨ext, rfl⟩, h3⟩ :=
          ih (ht.snoc hp hl hs') (List.mem_append_left _ hp) hls h
        refine ⟨h1, ⟨(s', w ++ [l]) :: ext, by simp⟩,
          List.forall_mem_cons.mpr ⟨fun s'' hs'' => ?_, h3⟩⟩
        rw [hs'] at hs''
        cases hs''
        exact ⟨by simp, by simpa using hgoal⟩

theorem visit_found {s : σ} {w v : List L} {st : List (σ × List L)} :
    ∀ {ls : List L} {states : List (σ × List L)},
    Traced step labels init states → (s, w) ∈ states → (∀ l ∈ ls, l ∈ labels) →
    visit step goal limit s w ls states = .error (.found v st) →
    ∃ s', run step init v = some s' ∧ goal s' = true ∧ ∀ l ∈ v, l ∈ labels := by
  intro ls
  induction ls with
  | nil =>
    intro states _ _ _ h
    cases h
  | cons l ls ih =>
    intro states ht hp hls h
    obtain ⟨hl, hls⟩ := List.forall_mem_cons.mp hls
    unfold visit at h
    split at h
    · exact ih ht hp hls h
    · next s' hs' =>
      split at h
      · next hgoal =>
        cases h
        obtain ⟨h1, h2⟩ := ht.snoc hp hl hs' (s', w ++ [l]) (by simp)
        exact ⟨s', h1, hgoal, h2⟩
      split at h
      · exact ih ht hp hls h
      split at h
      · cases h
      · exact ih (ht.snoc hp hl hs') (List.mem_append_left _ hp) hls h

theorem visit_not_closed {s : σ} {w : List L} {st : List (σ × List L)} :
    ∀ {ls : List L} {states : List (σ × List L)},
    visit step goal limit s w ls states ≠ .error (.closed st) := by
  intro ls
  induction ls with
  | nil =>
    intro states h
    cases h
  | cons l ls ih =>
    intro states h
    unfold visit at h
    split at h
    · exact ih h
    split at h
    · cases h
    split at h
    · exact ih h
    split at h
    · cases h
    · exact ih h

/-- The successors of the states before `head` are all recorded, and no goals. -/
def Explored (step : σ → L → Option σ) (goal : σ → Bool) (labels : List L) (head : Nat)
    (states : List (σ × List L)) : Prop :=
  ∀ i < head, ∀ p, states[i]? = some p → ∀ l ∈ labels, ∀ s', step p.1 l = some s' →
    s' ∈ states.map Prod.fst ∧ goal s' = false

/-- The invariant of the walk: words are traces, and the states before `head` are
explored. -/
structure Invariant (step : σ → L → Option σ) (goal : σ → Bool) (labels : List L) (init : σ)
    (head : Nat) (states : List (σ × List L)) : Prop where
  traced : Traced step labels init states
  first : states[0]? = some (init, [])
  explored : Explored step goal labels head states

omit [DecidableEq σ] in
theorem invariant_init : Invariant step goal labels init 0 [(init, [])] where
  traced := by
    intro p hp
    obtain rfl := List.mem_singleton.mp hp
    exact ⟨rfl, by simp⟩
  first := rfl
  explored := fun i hi => absurd hi (Nat.not_lt_zero i)

theorem Invariant.visit {head : Nat} {states states' : List (σ × List L)} {p : σ × List L}
    (hi : Invariant step goal labels init head states) (hp : states[head]? = some p)
    (h : visit step goal limit p.1 p.2 labels states = .ok states') :
    Invariant step goal labels init (head + 1) states' := by
  have hmem : (p.1, p.2) ∈ states := List.mem_of_getElem? hp
  obtain ⟨h1, ⟨ext, rfl⟩, h3⟩ := visit_ok hi.traced hmem (fun _ hl => hl) h
  have hlen : head < states.length := (List.getElem?_eq_some_iff.mp hp).1
  refine ⟨h1, ?_, ?_⟩
  · rw [List.getElem?_append_left (by omega)]
    exact hi.first
  · intro i hlt q hq l hl s' hs'
    rw [List.getElem?_append_left (by omega)] at hq
    by_cases he : i = head
    · subst he
      rw [hp] at hq
      cases hq
      exact h3 l hl s' hs'
    · obtain ⟨h4, h5⟩ := hi.explored i (by omega) q hq l hl s' hs'
      rw [List.map_append]
      exact ⟨List.mem_append_left _ h4, h5⟩

theorem walk_found {fuel head : Nat} {states st : List (σ × List L)} {v : List L}
    (hi : Invariant step goal labels init head states)
    (h : walk step goal limit labels fuel head states = some (.found v st)) :
    ∃ s, run step init v = some s ∧ goal s = true ∧ ∀ l ∈ v, l ∈ labels := by
  induction fuel generalizing head states with
  | zero => cases h
  | succ n ih =>
    unfold walk at h
    split at h
    · cases h
    · next p hp =>
      split at h
      · next o ho =>
        cases h
        exact visit_found hi.traced (List.mem_of_getElem? hp) (fun _ hl => hl) ho
      · next states' hv => exact ih (hi.visit hp hv) h

theorem walk_closed {fuel head : Nat} {states st : List (σ × List L)}
    (hi : Invariant step goal labels init head states)
    (h : walk step goal limit labels fuel head states = some (.closed st)) :
    Invariant step goal labels init st.length st := by
  induction fuel generalizing head states with
  | zero => cases h
  | succ n ih =>
    unfold walk at h
    split at h
    · next hnone =>
      cases h
      have hlen := List.getElem?_eq_none_iff.mp hnone
      exact ⟨hi.traced, hi.first, fun i hlt => hi.explored i (by omega)⟩
    · next p hp =>
      split at h
      · next o ho =>
        cases h
        exact absurd ho visit_not_closed
      · next states' hv => exact ih (hi.visit hp hv) h

/-- A goal that is found is reached by its word. -/
theorem explore_found {fuel : Nat} {v : List L} {st : List (σ × List L)}
    (h : explore step goal limit labels fuel init = some (.found v st)) :
    ∃ s, run step init v = some s ∧ goal s = true ∧ ∀ l ∈ v, l ∈ labels :=
  walk_found invariant_init h

/-- A closed walk records every state a word over the labels leads to, and none
past the first is a goal. By induction on the word, from its end. -/
theorem explore_closed {fuel : Nat} {st : List (σ × List L)}
    (h : explore step goal limit labels fuel init = some (.closed st)) :
    ∀ {w : List L} {s : σ}, (∀ l ∈ w, l ∈ labels) → run step init w = some s →
      s ∈ st.map Prod.fst ∧ (w ≠ [] → goal s = false) := by
  have hi := walk_closed invariant_init h
  intro w
  induction w using List.reverseRecOn with
  | nil =>
    intro s _ hs
    cases hs
    exact ⟨List.mem_map.mpr ⟨_, List.mem_of_getElem? hi.first, rfl⟩, fun hne => absurd rfl hne⟩
  | append_singleton w l ih =>
    intro s hl hs
    rw [run_snoc] at hs
    obtain ⟨s₀, hs₀, hs⟩ := Option.bind_eq_some_iff.mp hs
    obtain ⟨p, hp, rfl⟩ := List.mem_map.mp (ih (fun x hx => hl x (List.mem_append_left _ hx)) hs₀).1
    obtain ⟨i, hi', hpi⟩ := List.mem_iff_getElem.mp hp
    obtain ⟨h1, h2⟩ := hi.explored i hi' p (List.getElem?_eq_some_iff.mpr ⟨hi', hpi⟩) l
      (hl l (by simp)) s hs
    exact ⟨h1, fun _ => h2⟩

theorem visit_not_capped (hlimit : ∀ n, limit n = false) {s : σ} {w : List L}
    {st : List (σ × List L)} : ∀ {ls : List L} {states : List (σ × List L)},
    visit step goal limit s w ls states ≠ .error (.capped st) := by
  intro ls
  induction ls with
  | nil =>
    intro states h
    cases h
  | cons l ls ih =>
    intro states h
    unfold visit at h
    split at h
    · exact ih h
    split at h
    · cases h
    split at h
    · exact ih h
    · rw [hlimit] at h
      exact ih h

/-- A walk without a limit is never capped. -/
theorem explore_not_capped (hlimit : ∀ n, limit n = false) {fuel : Nat}
    {st : List (σ × List L)} :
    explore step goal limit labels fuel init ≠ some (.capped st) := by
  have hwalk : ∀ (fuel head : Nat) (states : List (σ × List L)),
      walk step goal limit labels fuel head states ≠ some (.capped st) := by
    intro fuel
    induction fuel with
    | zero =>
      intro head states h
      cases h
    | succ n ih =>
      intro head states h
      unfold walk at h
      split at h
      · cases h
      split at h
      · next ho =>
        cases h
        exact visit_not_capped hlimit ho
      · exact ih _ _ h
  exact hwalk fuel 0 _

/-- The states recorded are distinct states of `dom`. -/
def Inside (dom : List σ) (states : List (σ × List L)) : Prop :=
  (states.map Prod.fst).Nodup ∧ ∀ s ∈ states.map Prod.fst, s ∈ dom

theorem visit_inside {dom : List σ} {s : σ} {w : List L} (hs : ∀ l s', step s l = some s' →
    l ∈ labels → s' ∈ dom) : ∀ {ls : List L} {states states' : List (σ × List L)},
    (∀ l ∈ ls, l ∈ labels) → Inside dom states →
    visit step goal limit s w ls states = .ok states' →
    Inside dom states' ∧ states.length ≤ states'.length := by
  intro ls
  induction ls with
  | nil =>
    intro states states' _ hin h
    cases h
    exact ⟨hin, Nat.le_refl _⟩
  | cons l ls ih =>
    intro states states' hls hin h
    obtain ⟨hl, hls⟩ := List.forall_mem_cons.mp hls
    unfold visit at h
    split at h
    · exact ih hls hin h
    · next s' hs' =>
      split at h
      · cases h
      split at h
      · exact ih hls hin h
      next hnew =>
      split at h
      · cases h
      · have hin' : Inside dom (states ++ [(s', w ++ [l])]) := by
          unfold Inside
          rw [List.map_append]
          refine ⟨List.nodup_append.mpr ⟨hin.1, by simp, ?_⟩, ?_⟩
          · rintro a ha b hb rfl
            obtain rfl := List.mem_singleton.mp hb
            exact hnew ha
          · intro x hx
            rcases List.mem_append.mp hx with hx | hx
            · exact hin.2 x hx
            · obtain rfl := List.mem_singleton.mp hx
              exact hs l _ hs' hl
        obtain ⟨h1, h2⟩ := ih hls hin' h
        rw [List.length_append] at h2
        exact ⟨h1, by omega⟩

theorem walk_isSome {dom : List σ}
    (hstep : ∀ s ∈ dom, ∀ l s', step s l = some s' → l ∈ labels → s' ∈ dom) {fuel head : Nat}
    {states : List (σ × List L)} (hin : Inside dom states) (hhead : head ≤ states.length)
    (hfuel : dom.length < fuel + head) :
    (walk step goal limit labels fuel head states).isSome = true := by
  induction fuel generalizing head states with
  | zero =>
    have hle := List.Nodup.length_le_of_subset hin.1 hin.2
    rw [List.length_map] at hle
    omega
  | succ n ih =>
    unfold walk
    split
    · rfl
    · next p hp =>
      split
      · rfl
      · next states' hv =>
        have hmem : p.1 ∈ dom := hin.2 _ (List.mem_map_of_mem (List.mem_of_getElem? hp))
        obtain ⟨h1, h2⟩ := visit_inside (hstep p.1 hmem) (fun _ hl => hl) hin hv
        have hlt := (List.getElem?_eq_some_iff.mp hp).1
        exact ih h1 (by omega) (by omega)

theorem walk_inside {dom : List σ}
    (hstep : ∀ s ∈ dom, ∀ l s', step s l = some s' → l ∈ labels → s' ∈ dom) {fuel head : Nat}
    {states st : List (σ × List L)} (hin : Inside dom states)
    (h : walk step goal limit labels fuel head states = some (.closed st)) : Inside dom st := by
  induction fuel generalizing head states with
  | zero => cases h
  | succ n ih =>
    unfold walk at h
    split at h
    · cases h
      exact hin
    · next p hp =>
      split at h
      · next o ho =>
        cases h
        exact absurd ho visit_not_closed
      · next states' hv =>
        have hmem : p.1 ∈ dom := hin.2 _ (List.mem_map_of_mem (List.mem_of_getElem? hp))
        exact ih (visit_inside (hstep p.1 hmem) (fun _ hl => hl) hin hv).1 h

/-- A closed walk records distinct states of any set that is closed under the steps. -/
theorem explore_inside {dom : List σ} (hinit : init ∈ dom)
    (hstep : ∀ s ∈ dom, ∀ l s', step s l = some s' → l ∈ labels → s' ∈ dom) {fuel : Nat}
    {st : List (σ × List L)}
    (h : explore step goal limit labels fuel init = some (.closed st)) : Inside dom st :=
  walk_inside hstep ⟨by simp, by simpa using hinit⟩ h

/-- A closed walk starts with the first state and records every successor of a
recorded one. -/
theorem explore_complete {fuel : Nat} {st : List (σ × List L)}
    (h : explore step goal limit labels fuel init = some (.closed st)) :
    st[0]? = some (init, []) ∧ ∀ s ∈ st.map Prod.fst, ∀ l ∈ labels, ∀ s', step s l = some s' →
        s' ∈ st.map Prod.fst := by
  have hi := walk_closed invariant_init h
  refine ⟨hi.first, ?_⟩
  intro s hs l hl s' hs'
  obtain ⟨p, hp, rfl⟩ := List.mem_map.mp hs
  obtain ⟨i, hi', hpi⟩ := List.mem_iff_getElem.mp hp
  exact (hi.explored i hi' p (List.getElem?_eq_some_iff.mpr ⟨hi', hpi⟩) l hl s' hs').1

/-- More fuel than states is enough for the walk to end. -/
theorem explore_isSome {dom : List σ} (hinit : init ∈ dom)
    (hstep : ∀ s ∈ dom, ∀ l s', step s l = some s' → l ∈ labels → s' ∈ dom) {fuel : Nat}
    (hfuel : dom.length < fuel) :
    (explore step goal limit labels fuel init).isSome = true :=
  walk_isSome hstep ⟨by simp, by simpa using hinit⟩ (Nat.zero_le _) (by omega)

end Correctness

end Explore
