import LibHSC.Mem.InternInv
import Mathlib.Algebra.BigOperators.Group.Finset.Basic

/-!
References and collection. Marking follows the cited ids from the referenced ones;
the sweep keeps what is marked and frees the rest, provided its counter does not
wrap around.
-/

namespace LibHSC.Mem

namespace Intern

open OpenTable

variable {T : Type} {idBound : Nat} {hash : T → Nat} {children : T → List Nat} {st : Intern T}

/-! ## References -/

section References

theorem refCount_eq (st : Intern T) (id : Nat) :
    st.refCount id = (st.refs.getD id none).getD 0 := by
  unfold refCount
  split
  · rfl
  · rw [List.getD_eq_getElem?_getD, List.getElem?_eq_none (by omega)]
    rfl

/-- The count of an id, as it is stored. -/
theorem Ok.refs_eq (h : Ok idBound hash children st) (id : Nat) :
    st.refs.getD id none = if st.refCount id = 0 then none else some (st.refCount id) := by
  rw [refCount_eq]
  cases hr : st.refs.getD id none with
  | none => rfl
  | some count =>
    have := (h.refs id count hr).2.1
    rw [Option.getD_some, if_neg (by omega)]

theorem getD_resize (refs : List (Option Nat)) (n j : Nat) :
    (refs ++ List.replicate n none).getD j none = refs.getD j none := by
  rw [List.getD_eq_getElem?_getD, List.getD_eq_getElem?_getD, List.getElem?_append]
  split
  · rfl
  · rw [List.getElem?_eq_none (l := refs) (by omega), List.getElem?_replicate]
    split <;> rfl

theorem getD_set_some {refs : List (Option Nat)} {id : Nat} (hid : id < refs.length)
    (x : Option Nat) (j : Nat) :
    (refs.set id x).getD j none = if j = id then x else refs.getD j none := by
  rw [List.getD_eq_getElem?_getD, List.getElem?_set]
  by_cases hj : j = id
  · subst hj
    rw [if_pos rfl, if_pos rfl, if_pos hid]
    rfl
  · rw [if_neg hj, if_neg fun h => hj h.symm, ← List.getD_eq_getElem?_getD]

/-- A state with other references, all of them to values. -/
theorem Ok.with_refs (h : Ok idBound hash children st) (refs : List (Option Nat))
    (hrefs : ∀ id count, refs.getD id none = some count →
      st.Live id ∧ 0 < count ∧ count < counterBound) :
    Ok idBound hash children { st with refs := refs } :=
  { h with refs := hrefs, table := h.table }

theorem ref_spec (h : Ok idBound hash children st) {id : Nat} (hl : st.Live id)
    (hfit : st.refCount id + 1 < counterBound) : Ok idBound hash children (st.ref id) ∧
      ∀ j, (st.ref id).refCount j = if j = id then st.refCount id + 1 else st.refCount j := by
  unfold ref
  generalize hrefs : (if st.refs.length ≤ id
    then st.refs ++ List.replicate (3 * id / 2 + 8 - st.refs.length) none else st.refs) = refs
  have hget : ∀ j, refs.getD j none = st.refs.getD j none := by
    intro j
    rw [← hrefs]
    split
    · exact getD_resize ..
    · rfl
  have hlen : id < refs.length := by
    rw [← hrefs]
    split
    · rw [List.length_append, List.length_replicate]
      omega
    · omega
  dsimp only
  have hcount : bump (refs.getD id none) = st.refCount id + 1 := by
    rw [hget, refCount_eq]
    rw [refCount_eq] at hfit
    cases hr : st.refs.getD id none with
    | none => rfl
    | some count =>
      rw [hr] at hfit
      exact Nat.mod_eq_of_lt hfit
  have hset : ∀ j, (refs.set id (some (bump (refs.getD id none)))).getD j none =
      if j = id then some (st.refCount id + 1) else st.refs.getD j none := by
    intro j
    rw [getD_set_some hlen, hget j, hcount]
  refine ⟨h.with_refs _ fun j count hj => ?_, fun j => ?_⟩
  · rw [hset] at hj
    split at hj
    · next hji =>
      obtain rfl := Option.some.inj hj
      subst hji
      exact ⟨hl, by omega, by omega⟩
    · exact h.refs j count hj
  · rw [refCount_eq]
    dsimp only
    rw [hset]
    split
    · rfl
    · rw [refCount_eq]

theorem deref_spec (h : Ok idBound hash children st) {id : Nat} (hpos : 0 < st.refCount id) :
    ∃ st', st.deref id = some st' ∧ Ok idBound hash children st' ∧
      st' = { st with refs := st'.refs } ∧
      ∀ j, st'.refCount j = if j = id then st.refCount id - 1 else st.refCount j := by
  have hstored := h.refs_eq id
  rw [if_neg (by omega)] at hstored
  obtain ⟨hl, -, hlt⟩ := h.refs id _ hstored
  have hlen : id < st.refs.length := by
    by_contra hge
    rw [List.getD_eq_getElem?_getD, List.getElem?_eq_none (by omega)] at hstored
    cases hstored
  unfold deref
  rw [hstored]
  dsimp only
  by_cases hone : st.refCount id = 1
  · rw [if_pos hone]
    refine ⟨_, rfl, h.with_refs _ fun j count hj => ?_, rfl, fun j => ?_⟩
    · rw [getD_set_some hlen] at hj
      split at hj
      · cases hj
      · exact h.refs j count hj
    · rw [refCount_eq]
      dsimp only
      rw [getD_set_some hlen]
      split
      · rw [hone]
        rfl
      · rw [refCount_eq]
  · rw [if_neg hone]
    have hmod : (st.refCount id + counterBound - 1) % counterBound = st.refCount id - 1 := by
      rw [show st.refCount id + counterBound - 1 = st.refCount id - 1 + counterBound by omega,
        Nat.add_mod_right, Nat.mod_eq_of_lt (by omega)]
    rw [hmod]
    refine ⟨_, rfl, h.with_refs _ fun j count hj => ?_, rfl, fun j => ?_⟩
    · rw [getD_set_some hlen] at hj
      split at hj
      · next hji =>
        obtain rfl := Option.some.inj hj
        subst hji
        exact ⟨hl, by omega, by omega⟩
      · exact h.refs j count hj
    · rw [refCount_eq]
      dsimp only
      rw [getD_set_some hlen]
      split
      · rfl
      · rw [refCount_eq]

end References

/-! ## Marking -/

section Marking

theorem mem_push {marks : List Bool} {c : Nat} : ∀ {ids work : List Nat},
    c ∈ push marks ids work ↔ c ∈ work ∨ (c ∈ ids ∧ c ≠ 0 ∧ marks.getD c false = false) := by
  intro ids
  induction ids with
  | nil =>
    intro work
    simp [push]
  | cons id ids ih =>
    intro work
    rw [push, ih, List.mem_cons]
    by_cases hid : id ≠ 0 ∧ marks.getD id false = false
    · rw [if_pos hid, List.mem_cons]
      constructor
      · rintro ((rfl | hw) | hc)
        · exact .inr ⟨.inl rfl, hid⟩
        · exact .inl hw
        · exact .inr ⟨.inr hc.1, hc.2⟩
      · rintro (hw | ⟨rfl | hc, h2⟩)
        · exact .inl (.inr hw)
        · exact .inl (.inl rfl)
        · exact .inr ⟨hc, h2⟩
    · rw [if_neg hid]
      constructor
      · rintro (hw | hc)
        · exact .inl hw
        · exact .inr ⟨.inr hc.1, hc.2⟩
      · rintro (hw | ⟨rfl | hc, h2⟩)
        · exact .inl hw
        · exact absurd h2 hid
        · exact .inr ⟨hc, h2⟩

theorem length_push (marks : List Bool) : ∀ (ids work : List Nat),
    (push marks ids work).length ≤ work.length + ids.length := by
  intro ids
  induction ids with
  | nil => exact fun _ => Nat.le_refl _
  | cons id ids ih =>
    intro work
    rw [push, List.length_cons]
    split
    · have := ih (id :: work)
      rw [List.length_cons] at this
      omega
    · have := ih work
      omega

/-- Between two turns of the marking: what is marked cites what is marked or on the
work list. -/
structure MarkInv (children : T → List Nat) (st₀ : Intern T) (work : List Nat) (st : Intern T) :
    Prop where
  same : st = { st₀ with marks := st.marks }
  length : st.marks.length = st₀.marks.length
  live : ∀ id, st.marks.getD id false = true → st₀.Live id
  workLive : ∀ id ∈ work, st₀.Live id
  closed : ∀ id x, st.marks.getD id false = true → st₀.resolve id = some x →
    ∀ c ∈ children x, c ≠ 0 → st.marks.getD c false = true ∨ c ∈ work
  rooted : ∀ id, (st₀.refs.getD id none).isSome → st.marks.getD id false = true ∨ id ∈ work

theorem getD_set_true {marks : List Bool} {id : Nat} (hid : id < marks.length) (j : Nat) :
    (marks.set id true).getD j false = if j = id then true else marks.getD j false := by
  rw [List.getD_eq_getElem?_getD, List.getElem?_set]
  by_cases hj : j = id
  · subst hj
    rw [if_pos rfl, if_pos rfl, if_pos hid]
    rfl
  · rw [if_neg hj, if_neg fun h => hj h.symm, ← List.getD_eq_getElem?_getD]

/-- An id that is marked already is dropped from the work list. -/
theorem MarkInv.skip {st₀ : Intern T} {id : Nat} {work : List Nat}
    (h : MarkInv children st₀ (id :: work) st) (hid : st.marks.getD id false = true) :
    MarkInv children st₀ work st := by
  refine ⟨h.same, h.length, h.live, fun j hj => h.workLive j (List.mem_cons_of_mem _ hj),
    fun j x hj hx c hc h0 => ?_, fun j hj => ?_⟩
  · rcases h.closed j x hj hx c hc h0 with hm | hw
    · exact .inl hm
    · rcases List.mem_cons.mp hw with rfl | hw
      · exact .inl hid
      · exact .inr hw
  · rcases h.rooted j hj with hm | hw
    · exact .inl hm
    · rcases List.mem_cons.mp hw with rfl | hw
      · exact .inl hid
      · exact .inr hw

/-- An id is marked, what it cites is pushed. -/
theorem MarkInv.visit {st₀ : Intern T} (hok : Ok idBound hash children st₀) {id : Nat}
    {work : List Nat} (h : MarkInv children st₀ (id :: work) st) {x : T}
    (hx : st₀.resolve id = some x) :
    MarkInv children st₀ (push (st.marks.set id true) (children x) work)
      { st with marks := st.marks.set id true } := by
  have hlt : id < st.marks.length := by
    rw [h.length, hok.marks]
    exact (live_of_resolve hx).lt
  have hset := getD_set_true hlt
  refine ⟨?_, ?_, fun j hj => ?_, fun j hj => ?_, fun j y hj hy c hc h0 => ?_, fun j hj => ?_⟩
  · rw [h.same]
  · dsimp only
    rw [List.length_set, h.length]
  · dsimp only at hj
    rw [hset] at hj
    split at hj
    · next hji =>
      subst hji
      exact live_of_resolve hx
    · exact h.live j hj
  · rcases mem_push.mp hj with hw | ⟨hc, h0, -⟩
    · exact h.workLive j (List.mem_cons_of_mem _ hw)
    · exact hok.cites id x hx j hc h0
  · dsimp only at hj ⊢
    rw [mem_push]
    cases hm : (st.marks.set id true).getD c false with
    | true => exact .inl rfl
    | false =>
      right
      rw [hset] at hj
      split at hj
      · next hji =>
        subst hji
        obtain rfl := Option.some.inj (hx.symm.trans hy)
        exact .inr ⟨hc, h0, rfl⟩
      · rcases h.closed j y hj hy c hc h0 with hcm | hw
        · rw [hset] at hm
          split at hm
          · cases hm
          · rw [hcm] at hm
            cases hm
        · rcases List.mem_cons.mp hw with rfl | hw
          · rw [hset, if_pos rfl] at hm
            cases hm
          · exact .inl hw
  · dsimp only
    rw [hset, mem_push]
    split
    · exact .inl rfl
    · next hne =>
      rcases h.rooted j hj with hm | hw
      · exact .inl hm
      · rcases List.mem_cons.mp hw with rfl | hw
        · exact absurd rfl hne
        · exact .inr (.inl hw)

theorem MarkInv.resolve {st₀ : Intern T} {work : List Nat} (h : MarkInv children st₀ work st)
    (id : Nat) : st.resolve id = st₀.resolve id := by
  rw [h.same]
  rfl

theorem mark_spec {st₀ : Intern T} (hok : Ok idBound hash children st₀) : ∀ {fuel : Nat}
    {work : List Nat} {st st' : Intern T}, MarkInv children st₀ work st →
    mark children fuel work st = some st' → MarkInv children st₀ [] st' := by
  intro fuel
  induction fuel with
  | zero =>
    intro work st st' _ heq
    cases heq
  | succ fuel ih =>
    intro work st st' h heq
    cases work with
    | nil =>
      obtain rfl := Option.some.inj heq
      exact h
    | cons id work =>
      rw [mark] at heq
      split at heq
      · next hm => exact ih (h.skip hm) heq
      · obtain ⟨x, hx⟩ := (h.workLive id List.mem_cons_self).exists
        rw [h.resolve, hx] at heq
        exact ih (h.visit hok hx) heq

/-- How many ids the unmarked values cite. -/
def unmarkedCites (children : T → List Nat) (st₀ : Intern T) (marks : List Bool) : Nat :=
  ∑ id ∈ Finset.range st₀.index.length,
    if marks.getD id false then 0
    else ((st₀.resolve id).map fun x => (children x).length).getD 0

theorem unmarkedCites_set (children : T → List Nat) {st₀ : Intern T} {marks : List Bool}
    (hlen : marks.length = st₀.index.length) {id : Nat} {x : T}
    (hm : marks.getD id false = false) (hx : st₀.resolve id = some x) :
    unmarkedCites children st₀ marks =
      (children x).length + unmarkedCites children st₀ (marks.set id true) := by
  have hlt := (live_of_resolve hx).lt
  have hset := getD_set_true (hlen ▸ hlt : id < marks.length)
  have hmem : id ∈ Finset.range st₀.index.length := Finset.mem_range.mpr hlt
  unfold unmarkedCites
  rw [← Finset.add_sum_erase _ _ hmem, ← Finset.add_sum_erase _ (fun j =>
    if (marks.set id true).getD j false then 0
    else ((st₀.resolve j).map fun x => (children x).length).getD 0) hmem]
  have hrest : ∀ j ∈ (Finset.range st₀.index.length).erase id, (if marks.getD j false then 0
        else ((st₀.resolve j).map fun x => (children x).length).getD 0) =
      if (marks.set id true).getD j false then 0
        else ((st₀.resolve j).map fun x => (children x).length).getD 0 := by
    intro j hj
    rw [hset, if_neg (Finset.ne_of_mem_erase hj)]
  rw [Finset.sum_congr rfl hrest, hset, if_pos rfl, hm, hx]
  simp

/-- Marking comes to its end: every turn drops a work item or uses up citations. -/
theorem mark_total {st₀ : Intern T} (hok : Ok idBound hash children st₀) : ∀ {fuel : Nat}
    {work : List Nat} {st : Intern T}, MarkInv children st₀ work st →
    work.length + unmarkedCites children st₀ st.marks < fuel →
    ∃ st', mark children fuel work st = some st' := by
  intro fuel
  induction fuel with
  | zero =>
    intro work st _ hlt
    exact absurd hlt (Nat.not_lt_zero _)
  | succ fuel ih =>
    intro work st h hlt
    cases work with
    | nil => exact ⟨st, rfl⟩
    | cons id work =>
      rw [mark]
      rw [List.length_cons] at hlt
      split
      · next hm => exact ih (h.skip hm) (by omega)
      · next hm =>
        obtain ⟨x, hx⟩ := (h.workLive id List.mem_cons_self).exists
        rw [h.resolve, hx]
        refine ih (h.visit hok hx) ?_
        have hsum := unmarkedCites_set children
          (h.length.trans hok.marks) (Bool.eq_false_iff.mpr hm) hx
        have hpush := length_push (st.marks.set id true) (children x) work
        dsimp only
        omega

theorem mem_roots {id : Nat} : id ∈ st.roots ↔ (st.refs.getD id none).isSome := by
  unfold roots
  rw [List.mem_filter, List.mem_range]
  refine and_iff_right_of_imp fun h => ?_
  by_contra hge
  rw [List.getD_eq_getElem?_getD, List.getElem?_eq_none (by omega)] at h
  cases h

/-- Where the marking starts. -/
theorem markInv_start (h : Ok idBound hash children st) :
    MarkInv children st st.roots.reverse st := by
  refine ⟨rfl, rfl, fun id hm => ?_, fun id hid => ?_, fun id x hm => ?_, fun id hid => ?_⟩
  · rw [h.unmarked] at hm
    cases hm
  · obtain ⟨count, hcount⟩ := Option.isSome_iff_exists.mp
      (mem_roots.mp (List.mem_reverse.mp hid))
    exact (h.refs id count hcount).1
  · rw [h.unmarked] at hm
    cases hm
  · exact .inr (List.mem_reverse.mpr (mem_roots.mpr hid))

end Marking

/-! ## The sweep -/

section Sweep

/-- Before the id `i` of the sweep: the ids below are done, the others as they were. -/
structure SweepInv (st₀ : Intern T) (i : Nat) (survivors : List Nat) (st : Intern T) : Prop where
  length : st.index.length = st₀.index.length
  absent : st.index.head? = some none
  generationsLength : st.generations.length = st₀.generations.length
  marksLength : st.marks.length = st₀.marks.length
  resolve : ∀ id, st.resolve id =
    if id < i ∧ st₀.marks.getD id false = false then none else st₀.resolve id
  marks : ∀ id, st.marks.getD id false = if id < i then false else st₀.marks.getD id false
  generations : ∀ id, st.generations.getD id 0 =
    if id < i ∧ st₀.marks.getD id false = false ∧ st₀.Live id
    then (st₀.generations.getD id 0 + 1) % counterBound else st₀.generations.getD id 0
  freeNodup : st.free.Nodup
  freeIff : ∀ id, id ∈ st.free ↔
    id ∈ st₀.free ∨ (id < i ∧ st₀.marks.getD id false = false ∧ st₀.Live id)
  survivorsIff : ∀ id, id ∈ survivors ↔ id < i ∧ st₀.marks.getD id false = true
  survivorsNodup : survivors.Nodup
  refs : st.refs = st₀.refs

/-- What the marking leaves for the sweep. -/
structure Sweepable (idBound : Nat) (st₀ : Intern T) : Prop where
  absent : st₀.index.head? = some none
  bound : st₀.index.length ≤ idBound
  generations : st₀.generations.length = st₀.index.length
  marks : st₀.marks.length = st₀.index.length
  live : ∀ id, st₀.marks.getD id false = true → st₀.Live id
  freeNodup : st₀.free.Nodup
  freeIff : ∀ id, id ∈ st₀.free ↔ 0 < id ∧ id < st₀.index.length ∧ st₀.resolve id = none

theorem Sweepable.not_live_zero {st₀ : Intern T} (h : Sweepable idBound st₀) :
    ¬ st₀.Live 0 := by
  have := h.absent
  unfold Live resolve
  cases hi : st₀.index with
  | nil => exact Bool.false_ne_true
  | cons x xs =>
    rw [hi] at this
    rw [show (x :: xs).getD 0 none = x from rfl, Option.some.inj this]
    exact Bool.false_ne_true

theorem sweepInv_start {st₀ : Intern T} (h : Sweepable idBound st₀) : SweepInv st₀ 1 [] st₀ := by
  have hzero := h.not_live_zero
  have hmark : st₀.marks.getD 0 false = false := by
    cases hm : st₀.marks.getD 0 false with
    | false => rfl
    | true => exact absurd (h.live 0 hm) hzero
  have hnone : st₀.resolve 0 = none := Option.not_isSome_iff_eq_none.mp hzero
  refine ⟨rfl, h.absent, rfl, rfl, fun id => ?_, fun id => ?_, fun id => ?_, h.freeNodup,
    fun id => ?_, fun id => ?_, List.nodup_nil, rfl⟩
  · split
    · next hc =>
      obtain rfl : id = 0 := by omega
      exact hnone
    · rfl
  · split
    · next hc =>
      obtain rfl : id = 0 := by omega
      exact hmark
    · rfl
  · rw [if_neg]
    rintro ⟨hlt, -, hl⟩
    obtain rfl : id = 0 := by omega
    exact hzero hl
  · refine (or_iff_left ?_).symm
    rintro ⟨hlt, -, hl⟩
    obtain rfl : id = 0 := by omega
    exact hzero hl
  · refine iff_of_false List.not_mem_nil ?_
    rintro ⟨hlt, hm⟩
    obtain rfl : id = 0 := by omega
    rw [hmark] at hm
    cases hm

theorem getD_set_any {α : Type} {l : List α} {i : Nat} (hi : i < l.length) (x d : α) (j : Nat) :
    (l.set i x).getD j d = if j = i then x else l.getD j d := by
  rw [List.getD_eq_getElem?_getD, List.getElem?_set]
  by_cases hj : j = i
  · subst hj
    rw [if_pos rfl, if_pos rfl, if_pos hi]
    rfl
  · rw [if_neg hj, if_neg fun h => hj h.symm, ← List.getD_eq_getElem?_getD]

/-- One id of the sweep is done. -/
theorem sweepId_inv {st₀ : Intern T} (h₀ : Sweepable idBound st₀) {i : Nat} (hi : 1 ≤ i)
    (hlt : i < st₀.index.length) {survivors : List Nat} (h : SweepInv st₀ i survivors st) :
    SweepInv st₀ (i + 1) (sweepId i survivors st).1 (sweepId i survivors st).2 := by
  have hres : st.resolve i = st₀.resolve i := by
    rw [h.resolve, if_neg fun hc => Nat.lt_irrefl i hc.1]
  have hmark : st.marks.getD i false = st₀.marks.getD i false := by
    rw [h.marks, if_neg (Nat.lt_irrefl i)]
  have hsplit : ∀ id, id < i + 1 ↔ id < i ∨ id = i := fun id => Nat.lt_succ_iff_lt_or_eq
  unfold sweepId
  rw [hres]
  cases hx : st₀.resolve i with
  | none =>
    have hnot : ¬ st₀.Live i := by
      unfold Live
      rw [hx]
      exact Bool.false_ne_true
    have hm0 : st₀.marks.getD i false = false := by
      cases hm : st₀.marks.getD i false with
      | false => rfl
      | true => exact absurd (h₀.live i hm) hnot
    refine ⟨h.length, h.absent, h.generationsLength, h.marksLength, fun id => ?_, fun id => ?_,
      fun id => ?_, h.freeNodup, fun id => ?_, fun id => ?_, h.survivorsNodup, h.refs⟩
    · by_cases hid : id = i
      · subst hid
        refine Eq.trans ?_ (if_pos ⟨Nat.lt_succ_self _, hm0⟩).symm
        exact hres.trans hx
      · rw [h.resolve]
        simp only [hsplit, hid, or_false]
    · by_cases hid : id = i
      · subst hid
        rw [if_pos (Nat.lt_succ_self _), hmark, hm0]
      · rw [h.marks]
        simp only [hsplit, hid, or_false]
    · by_cases hid : id = i
      · subst hid
        rw [h.generations, if_neg fun hc => Nat.lt_irrefl _ hc.1, if_neg fun hc => hnot hc.2.2]
      · rw [h.generations]
        simp only [hsplit, hid, or_false]
    · rw [h.freeIff]
      by_cases hid : id = i
      · subst hid
        exact or_congr_right (iff_of_false (fun hc => hnot hc.2.2) fun hc => hnot hc.2.2)
      · simp only [hsplit, hid, or_false]
    · rw [h.survivorsIff]
      by_cases hid : id = i
      · subst hid
        rw [hm0]
        exact iff_of_false (fun hc => Bool.false_ne_true hc.2) fun hc => Bool.false_ne_true hc.2
      · simp only [hsplit, hid, or_false]
  | some x =>
    have hl : st₀.Live i := live_of_resolve hx
    dsimp only
    rw [hmark]
    cases hm : st₀.marks.getD i false with
    | true =>
      rw [if_pos rfl]
      have hmset := getD_set_any (l := st.marks) (i := i)
        (by rw [h.marksLength, h₀.marks]; exact hlt) false false
      refine ⟨h.length, h.absent, h.generationsLength, ?_, fun id => ?_, fun id => ?_,
        fun id => ?_, h.freeNodup, fun id => ?_, fun id => ?_, ?_, h.refs⟩
      · dsimp only
        rw [List.length_set, h.marksLength]
      · refine (h.resolve id).trans ?_
        by_cases hid : id = i
        · subst hid
          rw [hm]
          simp only [Bool.true_eq_false, and_false]
        · simp only [hsplit, hid, or_false]
      · dsimp only
        rw [hmset, h.marks]
        by_cases hid : id = i
        · rw [if_pos hid, if_pos (by omega)]
        · rw [if_neg hid]
          simp only [hsplit, hid, or_false]
      · refine (h.generations id).trans ?_
        by_cases hid : id = i
        · subst hid
          rw [hm]
          simp only [Bool.true_eq_false, false_and, and_false]
        · simp only [hsplit, hid, or_false]
      · refine (h.freeIff id).trans ?_
        by_cases hid : id = i
        · subst hid
          rw [hm]
          simp only [Bool.true_eq_false, false_and, and_false]
        · simp only [hsplit, hid, or_false]
      · dsimp only
        rw [List.mem_append, List.mem_singleton, h.survivorsIff]
        by_cases hid : id = i
        · subst hid
          exact iff_of_true (.inr rfl) ⟨Nat.lt_succ_self _, hm⟩
        · simp only [hsplit, hid, or_false]
      · refine List.nodup_append.mpr ⟨h.survivorsNodup, List.nodup_singleton _, ?_⟩
        intro a ha b hb hab
        obtain rfl := List.mem_singleton.mp hb
        subst hab
        exact Nat.lt_irrefl _ ((h.survivorsIff a).mp ha).1
    | false =>
      rw [if_neg Bool.false_ne_true]
      have hiset := getD_set_any (l := st.index) (i := i) (by rw [h.length]; exact hlt) none none
      have hgset := getD_set_any (l := st.generations) (i := i)
        (by rw [h.generationsLength, h₀.generations]; exact hlt)
        ((st.generations.getD i 0 + 1) % counterBound) 0
      have hgi : st.generations.getD i 0 = st₀.generations.getD i 0 := by
        rw [h.generations, if_neg fun hc => Nat.lt_irrefl i hc.1]
      have hnew : i ∉ st.free := by
        rw [h.freeIff, h₀.freeIff]
        rintro (hc | hc)
        · rw [hx] at hc
          cases hc.2.2
        · exact Nat.lt_irrefl i hc.1
      refine ⟨?_, ?_, ?_, h.marksLength, fun id => ?_, fun id => ?_,
        fun id => ?_, List.nodup_cons.mpr ⟨hnew, h.freeNodup⟩, fun id => ?_, fun id => ?_,
        h.survivorsNodup, h.refs⟩
      · dsimp only
        rw [List.length_set, h.length]
      · dsimp only
        have habsent := h.absent
        cases hi' : st.index with
        | nil =>
          rw [hi'] at habsent
          cases habsent
        | cons y ys =>
          rw [hi'] at habsent
          obtain ⟨n, rfl⟩ := Nat.exists_eq_add_of_le' hi
          exact habsent
      · dsimp only
        rw [List.length_set, h.generationsLength]
      · refine (hiset id).trans ?_
        by_cases hid : id = i
        · subst hid
          rw [if_pos rfl, if_pos ⟨Nat.lt_succ_self _, hm⟩]
        · rw [if_neg hid]
          refine (h.resolve id).trans ?_
          simp only [hsplit, hid, or_false]
      · refine (h.marks id).trans ?_
        by_cases hid : id = i
        · subst hid
          rw [if_neg (Nat.lt_irrefl _), if_pos (Nat.lt_succ_self _), hm]
        · simp only [hsplit, hid, or_false]
      · refine (hgset id).trans ?_
        by_cases hid : id = i
        · subst hid
          rw [if_pos rfl, if_pos ⟨Nat.lt_succ_self _, hm, hl⟩, hgi]
        · rw [if_neg hid]
          refine (h.generations id).trans ?_
          simp only [hsplit, hid, or_false]
      · dsimp only
        rw [List.mem_cons, h.freeIff]
        by_cases hid : id = i
        · subst hid
          exact iff_of_true (.inl rfl) (.inr ⟨Nat.lt_succ_self _, hm, hl⟩)
        · simp only [hsplit, hid, or_false, false_or]
      · refine (h.survivorsIff id).trans ?_
        by_cases hid : id = i
        · subst hid
          rw [hm]
          simp only [Bool.false_eq_true, and_false]
        · simp only [hsplit, hid, or_false]

/-- The sweep of an index that leaves an id unused ends behind the last id. -/
theorem sweep_spec {st₀ : Intern T} (h₀ : Sweepable idBound st₀)
    (hroom : st₀.index.length < idBound) : ∀ {fuel i : Nat} {survivors : List Nat}
    {st : Intern T} {r : List Nat × Intern T}, 1 ≤ i → i ≤ st₀.index.length →
    SweepInv st₀ i survivors st → sweep idBound fuel i survivors st = some r →
    SweepInv st₀ st₀.index.length r.1 r.2 := by
  intro fuel
  induction fuel with
  | zero =>
    intro i survivors st r _ _ _ heq
    cases heq
  | succ fuel ih =>
    intro i survivors st r hi hle h heq
    rw [sweep, h.length] at heq
    split at heq
    · next hlt =>
      rw [Nat.mod_eq_of_lt (by omega)] at heq
      exact ih (by omega) (by omega) (sweepId_inv h₀ hi hlt h) heq
    · next hge =>
      obtain rfl := Option.some.inj heq
      obtain rfl : i = st₀.index.length := by omega
      exact h

theorem sweep_total {st₀ : Intern T} (h₀ : Sweepable idBound st₀)
    (hroom : st₀.index.length < idBound) : ∀ {fuel i : Nat} {survivors : List Nat}
    {st : Intern T}, 1 ≤ i → st₀.index.length < fuel + i → SweepInv st₀ i survivors st →
    i ≤ st₀.index.length → ∃ r, sweep idBound fuel i survivors st = some r := by
  intro fuel
  induction fuel with
  | zero =>
    intro i survivors st _ hlt _ hle
    omega
  | succ fuel ih =>
    intro i survivors st hi hfuel h hle
    rw [sweep, h.length]
    split
    · next hlt =>
      rw [Nat.mod_eq_of_lt (by omega)]
      exact ih (by omega) (by omega) (sweepId_inv h₀ hi hlt h) (by omega)
    · exact ⟨_, rfl⟩

/-- Sweeping takes no id out of the index. -/
theorem sweepId_length (id : Nat) (survivors : List Nat) (st : Intern T) :
    (sweepId id survivors st).2.index.length = st.index.length := by
  unfold sweepId
  split
  · rfl
  · split
    · rfl
    · exact List.length_set ..

/-- The sweep of an index that uses every id never ends: its counter wraps around. -/
theorem sweep_diverges (hfull : st.index.length = idBound) (hpos : 0 < idBound) :
    ∀ (fuel : Nat) {id : Nat} (survivors : List Nat), id < idBound →
    sweep idBound fuel id survivors st = none := by
  intro fuel
  induction fuel generalizing st with
  | zero => exact fun _ _ => rfl
  | succ fuel ih =>
    intro id survivors hid
    rw [sweep, hfull, if_pos hid]
    exact ih ((sweepId_length ..).trans hfull) _ (Nat.mod_lt _ hpos)

/-- The loop of the sweep after so many turns. -/
def sweepAfter (idBound : Nat) : Nat → Nat → List Nat → Intern T → Nat × List Nat × Intern T
  | 0, id, survivors, st => (id, survivors, st)
  | n + 1, id, survivors, st =>
    sweepAfter idBound n ((id + 1) % idBound) (sweepId id survivors st).1
      (sweepId id survivors st).2

theorem sweepAfter_add (idBound m n : Nat) : ∀ (id : Nat) (survivors : List Nat) (st : Intern T),
    sweepAfter idBound (m + n) id survivors st =
      sweepAfter idBound n (sweepAfter idBound m id survivors st).1
        (sweepAfter idBound m id survivors st).2.1 (sweepAfter idBound m id survivors st).2.2 := by
  induction m with
  | zero =>
    intro id survivors st
    rw [Nat.zero_add]
    rfl
  | succ m ih =>
    intro id survivors st
    rw [show m + 1 + n = m + n + 1 by omega, sweepAfter, ih]
    rfl

/-- The first time around, the sweep of a full index does what it should; then its
counter is 0. -/
theorem sweepAfter_once {st₀ : Intern T} (h₀ : Sweepable idBound st₀)
    (hfull : st₀.index.length = idBound) : ∀ {k i : Nat} {survivors : List Nat} {st : Intern T},
    1 ≤ i → i + (k + 1) = idBound → SweepInv st₀ i survivors st →
    ∃ survivors' st', sweepAfter idBound (k + 1) i survivors st = (0, survivors', st') ∧
      SweepInv st₀ idBound survivors' st' := by
  intro k
  induction k with
  | zero =>
    intro i survivors st hi hk h
    have hstep := sweepId_inv h₀ hi (by omega) h
    refine ⟨_, _, ?_, hk ▸ hstep⟩
    rw [sweepAfter, sweepAfter, show i + 1 = idBound by omega, Nat.mod_self]
  | succ k ih =>
    intro i survivors st hi hk h
    rw [sweepAfter, Nat.mod_eq_of_lt (by omega)]
    exact ih (by omega) (by omega) (sweepId_inv h₀ hi (by omega) h)

theorem sweepId_unmarked {id : Nat} {survivors : List Nat}
    (h : ∀ j, st.marks.getD j false = false) :
    (∀ j, (sweepId id survivors st).2.marks.getD j false = false) ∧
      (id < st.index.length → (sweepId id survivors st).2.resolve id = none) := by
  unfold sweepId
  cases hx : st.resolve id with
  | none => exact ⟨h, fun _ => hx⟩
  | some x =>
    dsimp only
    rw [h id, if_neg Bool.false_ne_true]
    refine ⟨h, fun hlt => ?_⟩
    exact (getD_set_any hlt none none id).trans (if_pos rfl)

/-- Without marks every value the sweep comes to is freed. -/
theorem sweepAfter_frees {i : Nat} (hi : i < idBound) : ∀ {k id : Nat} {survivors : List Nat}
    {st : Intern T}, (∀ j, st.marks.getD j false = false) → st.index.length = idBound →
    id + k = i → (sweepAfter idBound (k + 1) id survivors st).2.2.resolve i = none := by
  intro k
  induction k with
  | zero =>
    rintro id survivors st h hlen rfl
    exact (sweepId_unmarked h).2 (by omega)
  | succ k ih =>
    intro id survivors st h hlen hk
    rw [sweepAfter, Nat.mod_eq_of_lt (by omega)]
    exact ih (sweepId_unmarked h).1 ((sweepId_length ..).trans hlen) (by omega)

/-- In an index that uses every id, the sweep comes to free every value. -/
theorem sweepAfter_full {st₀ : Intern T} (h₀ : Sweepable idBound st₀)
    (hfull : st₀.index.length = idBound) (hb : 2 ≤ idBound) {i : Nat} (hi : i < idBound) :
    ∃ n, (sweepAfter idBound n 1 [] st₀).2.2.resolve i = none := by
  obtain ⟨survivors, st, heq, h⟩ := sweepAfter_once h₀ hfull (k := idBound - 2) (Nat.le_refl 1)
    (by omega) (sweepInv_start h₀)
  have hmarks : ∀ j, st.marks.getD j false = false := by
    intro j
    rw [h.marks]
    split
    · rfl
    · next hge =>
      rw [List.getD_eq_getElem?_getD, List.getElem?_eq_none]
      · rfl
      · rw [h₀.marks]
        omega
  refine ⟨idBound - 2 + 1 + (i + 1), ?_⟩
  rw [sweepAfter_add, heq]
  exact sweepAfter_frees hi hmarks (h.length.trans hfull) (Nat.zero_add i)

end Sweep

/-! ## Collection -/

section Collection

theorem MarkInv.sweepable {st₀ : Intern T} (h₀ : Ok idBound hash children st₀)
    (h : MarkInv children st₀ [] st) : Sweepable idBound st := by
  have hsame := h.same
  refine ⟨?_, ?_, ?_, ?_, fun id hm => ?_, ?_, fun id => ?_⟩
  · rw [hsame]
    exact h₀.absent
  · rw [hsame]
    exact h₀.bound
  · rw [hsame]
    exact h₀.generations
  · rw [h.length, h₀.marks, hsame]
  · have hl := h.live id hm
    unfold Live at hl ⊢
    rwa [h.resolve]
  · rw [hsame]
    exact h₀.freeNodup
  · rw [h.resolve, show st.free = st₀.free by rw [hsame],
      show st.index = st₀.index by rw [hsame]]
    exact h₀.freeIff id

/-- What a collection does. -/
structure Collected (st st' : Intern T) : Prop where
  length : st'.index.length = st.index.length
  refs : st'.refs = st.refs
  resolve : ∀ id, st'.resolve id = st.resolve id ∨ st'.resolve id = none
  held : ∀ id, 0 < st.refCount id → st'.resolve id = st.resolve id
  generations : ∀ id, st'.generations.getD id 0 =
    if st.Live id ∧ ¬ st'.Live id then (st.generations.getD id 0 + 1) % counterBound
    else st.generations.getD id 0

theorem collect_ok (h : Ok idBound hash children st) {st₁ st₂ : Intern T}
    {survivors : List Nat} (h₁ : MarkInv children st [] st₁)
    (h₂ : SweepInv st₁ st₁.index.length survivors st₂) :
    let st₃ : Intern T := { st₂ with table := .rebuild survivors (st₂.hashOf hash) }
    Ok idBound hash children st₃ ∧ Collected st st₃ := by
  intro st₃
  have hs := h₁.sweepable h
  have hindex : st₁.index = st.index := by rw [h₁.same]
  have hgen : st₁.generations = st.generations := by rw [h₁.same]
  have hfree : st₁.free = st.free := by rw [h₁.same]
  have hrefs : st₁.refs = st.refs := by rw [h₁.same]
  have hlive₁ : ∀ id, st₁.Live id ↔ st.Live id := fun id => by
    unfold Live
    rw [h₁.resolve]
  -- a value stays when its id is marked
  have hres : ∀ id, st₃.resolve id =
      if st.Live id ∧ st₁.marks.getD id false = false then none else st.resolve id := by
    intro id
    refine (h₂.resolve id).trans ?_
    rw [h₁.resolve, hindex]
    by_cases hl : st.Live id
    · simp only [hl.lt, hl, true_and]
    · have hnone : st.resolve id = none := Option.not_isSome_iff_eq_none.mp hl
      rw [hnone]
      split <;> split <;> rfl
  have hmarked : ∀ id, st₁.marks.getD id false = true → st₃.resolve id = st.resolve id := by
    intro id hm
    rw [hres, if_neg]
    rintro ⟨-, hf⟩
    rw [hm] at hf
    cases hf
  have hmlive : ∀ id, st₁.marks.getD id false = true → st₃.Live id := by
    intro id hm
    have hl := h₁.live id hm
    unfold Live at hl ⊢
    rwa [hmarked id hm]
  have hlive : ∀ id, st₃.Live id ↔ st₁.marks.getD id false = true := by
    intro id
    refine ⟨fun hl => ?_, hmlive id⟩
    unfold Live at hl
    rw [hres] at hl
    split at hl
    · cases hl
    · next hc =>
      by_contra hm
      exact hc ⟨hl, Bool.eq_false_iff.mpr hm⟩
  have hsub : ∀ id x, st₃.resolve id = some x →
      st.resolve id = some x ∧ st₁.marks.getD id false = true := by
    intro id x hx
    have hm := (hlive id).mp (live_of_resolve hx)
    rw [hmarked id hm] at hx
    exact ⟨hx, hm⟩
  have hroot : ∀ id, (st.refs.getD id none).isSome → st₁.marks.getD id false = true := by
    intro id hr
    rcases h₁.rooted id hr with hm | hw
    · exact hm
    · cases hw
  have hlen : st₃.index.length = st.index.length := h₂.length.trans (by rw [hindex])
  refine ⟨⟨h₂.absent, ?_, ?_, ?_, fun id => ?_, h₂.freeNodup, fun id => ?_,
    fun i j x hi hj => ?_, ?_, fun id count hc => ?_, fun id x hx c hc h0 => ?_⟩,
    hlen, ?_, fun id => ?_, fun id hc => ?_, fun id => ?_⟩
  · rw [hlen]
    exact h.bound
  · rw [hlen, ← h.generations, ← hgen]
    exact h₂.generationsLength
  · rw [hlen, ← h.marks, ← h₁.length]
    exact h₂.marksLength
  · refine (h₂.marks id).trans ?_
    split
    · rfl
    · next hge =>
      rw [List.getD_eq_getElem?_getD, List.getElem?_eq_none]
      · rfl
      · rw [hs.marks]
        omega
  · refine (h₂.freeIff id).trans ?_
    rw [hlen, hres, hlive₁, hfree, h.freeIff, hindex]
    by_cases hl : st.Live id
    · have hne := h.live_ne_zero hl
      obtain ⟨x, hx⟩ := hl.exists
      simp only [hl, hl.lt, hx, true_and, and_true, reduceCtorEq, and_false, false_or]
      constructor
      · intro hm
        exact ⟨by omega, by rw [if_pos hm]⟩
      · rintro ⟨-, hnone⟩
        by_contra hm
        rw [if_neg hm] at hnone
        cases hnone
    · simp only [hl, and_false, or_false, false_and, if_false]
  · exact h.distinct i j x (hsub i x hi).1 (hsub j x hj).1
  · have hn : survivors.countP (fun id => decide (id ≠ 0)) ≤ survivors.length :=
      List.countP_le_length
    have hle := le_roundUp (survivors.length * 2 + 8)
    have hfit : survivors.countP (fun id => decide (id ≠ 0)) * 10 <
        roundUp (survivors.length * 2 + 8) * 7 := by omega
    obtain ⟨hholds, -⟩ := IdTable.fill_holds (st₂.hashOf hash) hfit
    refine ⟨hholds.filled.congr fun v => ?_, hholds.load, hholds.big⟩
    rw [h₂.survivorsIff, hlive]
    refine and_iff_right_of_imp fun hm => ?_
    exact ((hlive₁ _).mpr (h₁.live _ hm)).lt
  · rw [show st₃.refs = st₂.refs from rfl, h₂.refs, hrefs] at hc
    have hsome : (st.refs.getD id none).isSome := by
      rw [hc]
      rfl
    exact ⟨hmlive id (hroot id hsome), (h.refs id count hc).2⟩
  · obtain ⟨hx, hm⟩ := hsub id x hx
    rcases h₁.closed id x hm hx c hc h0 with hcm | hw
    · exact hmlive c hcm
    · cases hw
  · exact h₂.refs.trans hrefs
  · rw [hres]
    split
    · exact .inr rfl
    · exact .inl rfl
  · refine hmarked id (hroot id ?_)
    have := h.refs_eq id
    rw [if_neg (by omega)] at this
    rw [this]
    rfl
  · refine (h₂.generations id).trans ?_
    rw [hgen]
    refine if_congr ?_ rfl rfl
    rw [hlive, hlive₁, hindex]
    by_cases hl : st.Live id
    · simp only [hl.lt, hl, true_and, and_true, Bool.not_eq_true]
    · simp only [hl, and_false, false_and]

/-- A collection of an index that leaves an id unused returns, having freed no value
that is referenced. -/
theorem collect_spec (h : Ok idBound hash children st) (hroom : st.index.length < idBound) :
    (∃ fuel st', collect idBound hash children fuel st = some st') ∧
      ∀ fuel st', collect idBound hash children fuel st = some st' →
        Ok idBound hash children st' ∧ Collected st st' := by
  have hstart := markInv_start h
  constructor
  · generalize hfuel : st.roots.reverse.length + unmarkedCites children st st.marks +
      st.index.length + 1 = fuel
    have hmarks : st.roots.reverse.length + unmarkedCites children st st.marks < fuel := by omega
    obtain ⟨st₁, hmark⟩ := mark_total h hstart hmarks
    have h₁ := mark_spec h hstart hmark
    have hlen : st₁.index.length = st.index.length := by rw [h₁.same]
    have hs := h₁.sweepable h
    have hpos := h.length_pos
    have hsweeps : st₁.index.length < fuel + 1 := by omega
    obtain ⟨r, hsweep⟩ := sweep_total hs (by omega) (Nat.le_refl 1) hsweeps
      (sweepInv_start hs) (by omega)
    refine ⟨fuel, { r.2 with table := .rebuild r.1 (r.2.hashOf hash) }, ?_⟩
    unfold collect
    rw [hmark, Option.bind_eq_bind, Option.bind_some, hsweep]
    rfl
  · intro fuel st' heq
    unfold collect at heq
    obtain ⟨st₁, hmark, heq⟩ := Option.bind_eq_some_iff.mp heq
    obtain ⟨⟨survivors, st₂⟩, hsweep, heq⟩ := Option.bind_eq_some_iff.mp heq
    obtain rfl := Option.some.inj heq
    have h₁ := mark_spec h hstart hmark
    have hlen : st₁.index.length = st.index.length := by rw [h₁.same]
    have hs := h₁.sweepable h
    have hpos := h.length_pos
    exact collect_ok h h₁ (sweep_spec hs (by omega) (Nat.le_refl 1) (by omega)
      (sweepInv_start hs) hsweep)

end Collection

end Intern

end LibHSC.Mem
