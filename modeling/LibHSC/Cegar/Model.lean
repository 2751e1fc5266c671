import LibHSC.Library.Explore
import Mathlib.Data.List.Sort
import Mathlib.Algebra.GroupWithZero.Nat

/-!
Finite leaves synchronized by product-shaped events under a safety monitor: the
input of the certified-abstraction loop, the monolithic walk of the concrete
product, and the concrete replay of an event word.

A table is flat, one row per state; a source entry `-1` is `none`.
-/

namespace LibHSC.Cegar

/-- A leaf: a partial deterministic transition table, state 0 initial. A letter has 16 bits in
the source, so that there are at most 65536. -/
structure Lts where
  nStates : Nat
  nLetters : Nat
  delta : List (Option Nat)
  valueOf : List Int
  deriving DecidableEq, Repr

/-- An event: at most one letter per leaf. -/
structure Event where
  name : String
  support : List (Nat × Nat)
  deriving DecidableEq, Repr

/-- The safety monitor over events; `none` is a blocked event. -/
structure Monitor where
  nStates : Nat
  nEvents : Nat
  delta : List (Option Nat)
  bad : List Bool
  deriving DecidableEq, Repr

structure Model where
  leaves : List Lts
  leafNames : List String
  events : List Event
  mon : Monitor
  propLeaves : List Nat
  monitorValues : List (List Int)
  propertyText : String
  deriving DecidableEq, Repr

/-- The entry of a flat table with `width` columns. -/
def entry (table : List (Option Nat)) (width row col : Nat) : Option Nat :=
  (table[row * width + col]?).join

namespace Lts

def step (l : Lts) (q a : Nat) : Option Nat := entry l.delta l.nLetters q a

/-- Membership: the state reached, if every step is defined. -/
def fire (l : Lts) (w : List Nat) : Option Nat := Explore.run l.step 0 w

/-- The interning key: the header and the table, not the values. -/
def serialize (l : Lts) : Nat × Nat × List (Option Nat) := (l.nStates, l.nLetters, l.delta)

end Lts

/-- The letter an event gives a leaf, if it supports it. -/
def Event.letterFor (e : Event) (leaf : Nat) : Option Nat :=
  (e.support.find? fun p => p.1 = leaf).map Prod.snd

def Monitor.step (mon : Monitor) (m e : Nat) : Option Nat := entry mon.delta mon.nEvents m e

def Monitor.isBad (mon : Monitor) (m : Nat) : Bool := mon.bad.getD m false

namespace Model

variable (m : Model)

def event (e : Nat) : Event := m.events.getD e ⟨"", []⟩

def leaf (i : Nat) : Lts := m.leaves.getD i ⟨1, 0, [], []⟩

/-- The projection of an event word onto a leaf. -/
def project (w : List Nat) (leaf : Nat) : List Nat :=
  w.filterMap fun e => (m.event e).letterFor leaf

def isProp (leaf : Nat) : Bool := m.propLeaves.contains leaf

/-- The states of a product: the monitor's, then one per leaf. -/
def initial : List Nat := List.replicate (m.leaves.length + 1) 0

/-- The leaves an event touches step by `local`; the first that refuses blocks
the event. -/
def moveLeaves (move : Nat → Nat → Nat → Option Nat) (cur : List Nat) :
    List (Nat × Nat) → List Nat → Option (List Nat)
  | [], nxt => some nxt
  | (l, a) :: rest, nxt =>
    match move l (cur.getD (l + 1) 0) a with
    | none => none
    | some q => moveLeaves move cur rest (nxt.set (l + 1) q)

/-- One event of a product whose leaves move by `move`: the monitor first. -/
def productStep (move : Nat → Nat → Nat → Option Nat) (cur : List Nat) (e : Nat) :
    Option (List Nat) :=
  match m.mon.step (cur.getD 0 0) e with
  | none => none
  | some mm => moveLeaves move cur (m.event e).support (cur.set 0 mm)

def isBad (cur : List Nat) : Bool := m.mon.isBad (cur.getD 0 0)

/-- The concrete product. -/
def concreteStep : List Nat → Nat → Option (List Nat) :=
  m.productStep fun l q a => (m.leaf l).step q a

def eventIds : List Nat := List.range m.mon.nEvents

/-- A state the concrete product reaches. -/
def Reachable (st : List Nat) : Prop :=
  ∃ w, (∀ e ∈ w, e ∈ m.eventIds) ∧ Explore.run m.concreteStep m.initial w = some st

end Model

inductive Kind where
  | holds
  | violation
  | cap
  deriving DecidableEq, Repr

/-- The verdict of a walk, monolithic or abstract. -/
structure Verdict where
  k : Kind
  witness : List Nat
  statesWalked : Nat
  deriving DecidableEq, Repr

/-- The walk of a product, for a bad monitor state. -/
def productWalk (m : Model) (step : List Nat → Nat → Option (List Nat)) (cap : Int) (fuel : Nat) :
    Option (Explore.Outcome (List Nat) Nat) :=
  if m.isBad m.initial then some (.found [] [(m.initial, [])])
  else Explore.explore step m.isBad (fun size => decide ((size : Int) > cap)) m.eventIds fuel
    m.initial

/-- The monolithic oracle: the walk of the concrete product. -/
def mono (m : Model) (cap : Int) (fuel : Nat) : Option Verdict :=
  (productWalk m m.concreteStep cap fuel).map fun o =>
    match o with
    | .found w states => ⟨.violation, w, states.length⟩
    | .capped states => ⟨.cap, [], states.length⟩
    | .closed states => ⟨.holds, [], states.length⟩

/-- Concrete replay: no monitor step blocks, the monitor ends bad, and every
projection fires. -/
def refire (m : Model) (w : List Nat) : Bool :=
  match Explore.run m.mon.step 0 w with
  | none => false
  | some mm => m.mon.isBad mm &&
      (List.range m.leaves.length).all fun i => ((m.leaf i).fire (m.project w i)).isSome

/-! ## Well-formed models -/

/-- A complete table whose entries are states. -/
structure Lts.WF (l : Lts) : Prop where
  pos : 0 < l.nStates
  size : l.delta.length = l.nStates * l.nLetters
  target : ∀ q, some q ∈ l.delta → q < l.nStates
  values : l.valueOf.length = l.nStates

/-- At most one letter per leaf, each of the leaf's alphabet. -/
structure Event.WF (m : Model) (e : Event) : Prop where
  nodup : (e.support.map Prod.fst).Nodup
  leaf : ∀ p ∈ e.support, p.1 < m.leaves.length
  letter : ∀ p ∈ e.support, p.2 < (m.leaf p.1).nLetters

/-- The property leaves' own step on an event; `none` when one of them blocks. -/
def Model.tupleStep (m : Model) (e : Nat) (tuple : List Nat) : Option (List Nat) :=
  (m.propLeaves.zip tuple).mapM fun p =>
    match (m.event e).letterFor p.1 with
    | none => some p.2
    | some a => (m.leaf p.1).step p.2 a

/-- The monitor is the sub-product of the property leaves: its states are tuples of
theirs and it steps as they do. -/
structure Model.Exact (m : Model) (tuples : List (List Nat)) : Prop where
  count : tuples.length = m.mon.nStates
  first : tuples[0]? = some (List.replicate m.propLeaves.length 0)
  step : ∀ t < m.mon.nStates, ∀ e < m.mon.nEvents,
    (m.mon.step t e).bind (fun t' => tuples[t']?) = m.tupleStep e (tuples.getD t [])

structure Model.WF (m : Model) : Prop where
  leaves : ∀ l ∈ m.leaves, l.WF
  events : ∀ e ∈ m.events, e.WF m
  count : m.events.length = m.mon.nEvents
  props : m.propLeaves.Pairwise (· < ·) ∧ ∀ i ∈ m.propLeaves, i < m.leaves.length
  monitor : m.mon.delta.length = m.mon.nStates * m.mon.nEvents ∧
    (∀ q, some q ∈ m.mon.delta → q < m.mon.nStates) ∧ m.mon.bad.length = m.mon.nStates
  exact : ∃ tuples, m.Exact tuples

theorem mem_of_entry {table : List (Option Nat)} {width row col q : Nat}
    (h : entry table width row col = some q) : some q ∈ table :=
  List.mem_of_getElem? (Option.join_eq_some_iff.mp h)

theorem Lts.WF.step_lt {l : Lts} (hl : l.WF) {q a q' : Nat} (h : l.step q a = some q') :
    q' < l.nStates := hl.target q' (mem_of_entry h)

/-! ## A product run is a run of every component -/

section Product

variable {m : Model}

theorem Event.letterFor_cons (l a i : Nat) (rest : List (Nat × Nat)) (name : String) :
    Event.letterFor ⟨name, (l, a) :: rest⟩ i =
      if l = i then some a else Event.letterFor ⟨name, rest⟩ i := by
  unfold Event.letterFor
  by_cases h : l = i
  · simp [h]
  · simp [h]

/-- A leaf the support does not name gets no letter. -/
theorem letterFor_eq_none {n : String} {support : List (Nat × Nat)} {i : Nat}
    (h : i ∉ support.map Prod.fst) : Event.letterFor ⟨n, support⟩ i = none := by
  unfold Event.letterFor
  rw [Option.map_eq_none_iff, List.find?_eq_none]
  intro p hp
  simp only [decide_eq_true_eq]
  rintro rfl
  exact h (List.mem_map_of_mem hp)

theorem getD_set {l : List Nat} {i j q : Nat} (hi : i < l.length) :
    (l.set i q).getD j 0 = if i = j then q else l.getD j 0 := by
  simp only [List.getD_eq_getElem?_getD, List.getElem?_set]
  split
  · rfl
  · rfl

theorem ext_getD {l k : List Nat} (hlen : l.length = k.length)
    (h : ∀ i < l.length, l.getD i 0 = k.getD i 0) : l = k := by
  refine List.ext_getElem hlen fun i hi hi' => ?_
  simpa [hi, hi'] using h i hi

/-- The leaves of one event: each runs the letter the event has for it, if any. -/
theorem moveLeaves_eq_some {move : Nat → Nat → Nat → Option Nat} {n : String}
    {cur : List Nat} : ∀ {support : List (Nat × Nat)} {nxt st : List Nat},
    (support.map Prod.fst).Nodup → (∀ p ∈ support, p.1 + 1 < nxt.length) →
    (∀ i, i ∈ support.map Prod.fst → nxt.getD (i + 1) 0 = cur.getD (i + 1) 0) →
    (Model.moveLeaves move cur support nxt = some st ↔ st.length = nxt.length ∧
      st.getD 0 0 = nxt.getD 0 0 ∧ ∀ i, Explore.run (move i) (nxt.getD (i + 1) 0)
        (Event.letterFor ⟨n, support⟩ i).toList = some (st.getD (i + 1) 0)) := by
  intro support
  induction support with
  | nil =>
    intro nxt st _ _ _
    rw [Model.moveLeaves, Option.some.injEq]
    constructor
    · rintro rfl
      exact ⟨rfl, rfl, fun _ => rfl⟩
    · rintro ⟨h1, h2, h3⟩
      refine ext_getD h1.symm fun i _ => ?_
      cases i with
      | zero => exact h2.symm
      | succ i => exact Option.some.inj (h3 i)
  | cons p rest ih =>
    obtain ⟨l, a⟩ := p
    intro nxt st hnd hlt hcur
    obtain ⟨hl, hnd⟩ := List.nodup_cons.mp hnd
    obtain ⟨hlen, hlt⟩ := List.forall_mem_cons.mp hlt
    obtain ⟨hcl, hcur⟩ := List.forall_mem_cons.mp hcur
    have hl' : Event.letterFor ⟨n, rest⟩ l = none := letterFor_eq_none hl
    rw [Model.moveLeaves]
    cases hq : move l (cur.getD (l + 1) 0) a with
    | none =>
      refine iff_of_false (by simp) ?_
      rintro ⟨-, -, h3⟩
      have hrun := h3 l
      rw [Event.letterFor_cons, if_pos rfl, hcl, Option.toList_some,
        Explore.run_singleton, hq] at hrun
      cases hrun
    | some q =>
      have hset : ∀ i, i ∈ rest.map Prod.fst →
          (nxt.set (l + 1) q).getD (i + 1) 0 = cur.getD (i + 1) 0 := by
        intro i hi
        rw [getD_set hlen, if_neg, hcur i hi]
        intro he
        exact hl ((Nat.succ.inj he) ▸ hi)
      simp only
      rw [ih hnd (by simpa using hlt) hset, List.length_set, getD_set hlen]
      refine and_congr_right fun _ => and_congr (by simp) (forall_congr' fun i => ?_)
      rw [Event.letterFor_cons, getD_set hlen]
      by_cases hi : l = i
      · subst hi
        rw [hl', if_pos rfl, if_pos rfl, hcl, Option.toList_some, Explore.run_singleton, hq]
        rfl
      · rw [if_neg hi, if_neg (by omega)]

variable (hm : m.WF)

include hm

theorem Model.WF.event {e : Nat} (he : e ∈ m.eventIds) : (m.event e).WF m := by
  have hlt : e < m.events.length := by
    rw [hm.count]
    exact List.mem_range.mp he
  have hget : m.event e = m.events[e] := by simp [Model.event, hlt]
  rw [hget]
  exact hm.events _ (List.getElem_mem hlt)

theorem productStep_eq_some {move : Nat → Nat → Nat → Option Nat} {cur st : List Nat} {e : Nat}
    (he : e ∈ m.eventIds) (hcur : cur.length = m.leaves.length + 1) :
    m.productStep move cur e = some st ↔ st.length = cur.length ∧
      m.mon.step (cur.getD 0 0) e = some (st.getD 0 0) ∧
      ∀ i, Explore.run (move i) (cur.getD (i + 1) 0) ((m.event e).letterFor i).toList =
        some (st.getD (i + 1) 0) := by
  have hev := hm.event he
  unfold Model.productStep
  cases hmon : m.mon.step (cur.getD 0 0) e with
  | none => simp
  | some mm =>
    have hpos : 0 < cur.length := by omega
    have hset : ∀ i, (cur.set 0 mm).getD (i + 1) 0 = cur.getD (i + 1) 0 := by
      intro i
      rw [getD_set hpos, if_neg (by omega)]
    simp only
    rw [moveLeaves_eq_some (n := (m.event e).name) hev.nodup
      (fun p hp => by simpa [hcur] using hev.leaf p hp) (fun i _ => hset i)]
    rw [List.length_set, getD_set hpos, if_pos rfl, Option.some.injEq]
    refine and_congr_right fun _ => and_congr eq_comm (forall_congr' fun i => ?_)
    rw [hset]

theorem run_length {move : Nat → Nat → Nat → Option Nat} {w : List Nat} :
    ∀ {st : List Nat}, (∀ e ∈ w, e ∈ m.eventIds) →
      Explore.run (m.productStep move) m.initial w = some st →
      st.length = m.leaves.length + 1 := by
  induction w using List.reverseRecOn with
  | nil =>
    intro st _ h
    cases h
    simp [Model.initial]
  | append_singleton w e ih =>
    intro st hw h
    rw [Explore.run_snoc] at h
    obtain ⟨cur, hcur, h⟩ := Option.bind_eq_some_iff.mp h
    have hlen := ih (fun x hx => hw x (List.mem_append_left _ hx)) hcur
    rw [← hlen]
    exact ((productStep_eq_some hm (hw e (by simp)) hlen).mp h).1

omit hm in
theorem project_snoc (w : List Nat) (e i : Nat) :
    m.project (w ++ [e]) i = m.project w i ++ ((m.event e).letterFor i).toList := by
  unfold Model.project
  rw [List.filterMap_append]
  cases h : (m.event e).letterFor i with
  | none => simp [h]
  | some a => simp [h]

/-- A product runs a word exactly when the monitor runs it and every leaf runs its
projection. By induction on the word, from its end. -/
theorem run_product {move : Nat → Nat → Nat → Option Nat} {w st : List Nat}
    (hw : ∀ e ∈ w, e ∈ m.eventIds) (hst : st.length = m.leaves.length + 1) :
    Explore.run (m.productStep move) m.initial w = some st ↔
      Explore.run m.mon.step 0 w = some (st.getD 0 0) ∧
      ∀ i < m.leaves.length, Explore.run (move i) 0 (m.project w i) = some (st.getD (i + 1) 0) := by
  induction w using List.reverseRecOn generalizing st with
  | nil =>
    have hzero : ∀ i, m.initial.getD i 0 = 0 := by
      intro i
      rw [List.getD_eq_getElem?_getD, Model.initial, List.getElem?_replicate]
      split
      · rfl
      · rfl
    constructor
    · intro h
      cases h
      exact ⟨congrArg some (hzero 0).symm, fun i _ => congrArg some (hzero (i + 1)).symm⟩
    · rintro ⟨h1, h2⟩
      refine congrArg some (ext_getD (by simp [Model.initial, hst]) fun i hi => ?_)
      rw [hzero]
      cases i with
      | zero => exact Option.some.inj h1
      | succ i =>
        have hlt : i < m.leaves.length := by
          simp only [Model.initial, List.length_replicate] at hi
          omega
        exact Option.some.inj (h2 i hlt)
  | append_singleton w e ih =>
    have hw' : ∀ x ∈ w, x ∈ m.eventIds := fun x hx => hw x (List.mem_append_left _ hx)
    have he : e ∈ m.eventIds := hw e (by simp)
    rw [Explore.run_snoc, Explore.run_snoc]
    constructor
    · intro h
      obtain ⟨cur, hcur, h⟩ := Option.bind_eq_some_iff.mp h
      have hlen := run_length hm hw' hcur
      obtain ⟨h1, h2⟩ := (ih hw' hlen).mp hcur
      obtain ⟨-, h3, h4⟩ := (productStep_eq_some hm he hlen).mp h
      refine ⟨by rw [h1]; exact h3, fun i hi => ?_⟩
      rw [project_snoc, Explore.run_append, h2 i hi]
      exact h4 i
    · rintro ⟨h1, h2⟩
      obtain ⟨mm, hmm, h1⟩ := Option.bind_eq_some_iff.mp h1
      have hpre : ∀ i < m.leaves.length, ∃ q, Explore.run (move i) 0 (m.project w i) = some q ∧
          Explore.run (move i) q ((m.event e).letterFor i).toList = some (st.getD (i + 1) 0) := by
        intro i hi
        have hrun := h2 i hi
        rw [project_snoc, Explore.run_append] at hrun
        exact Option.bind_eq_some_iff.mp hrun
      -- the state before the last event, read off the components
      let cur : List Nat := mm :: (List.range m.leaves.length).map fun i =>
        (Explore.run (move i) 0 (m.project w i)).getD 0
      have hlen : cur.length = m.leaves.length + 1 := by simp [cur]
      have hcur : ∀ i < m.leaves.length,
          Explore.run (move i) 0 (m.project w i) = some (cur.getD (i + 1) 0) := by
        intro i hi
        obtain ⟨q, hq, -⟩ := hpre i hi
        simp [cur, hi, hq]
      refine Option.bind_eq_some_iff.mpr ⟨cur, (ih hw' hlen).mpr ⟨hmm, hcur⟩, ?_⟩
      refine (productStep_eq_some hm he hlen).mpr ⟨by omega, h1, fun i => ?_⟩
      by_cases hi : i < m.leaves.length
      · obtain ⟨q, hq, hq'⟩ := hpre i hi
        rw [hcur i hi] at hq
        exact Option.some.inj hq ▸ hq'
      · have hnone : (m.event e).letterFor i = none := by
          refine letterFor_eq_none (n := (m.event e).name) fun hmem => ?_
          obtain ⟨p, hp, rfl⟩ := List.mem_map.mp hmem
          exact hi ((hm.event he).leaf p hp)
        rw [hnone, List.getD_eq_getElem?_getD, List.getD_eq_getElem?_getD,
          List.getElem?_eq_none (by omega), List.getElem?_eq_none (by omega)]
        rfl

/-- Refiring a word is reaching a bad state by it in the concrete product. -/
theorem refire_iff {w : List Nat} (hw : ∀ e ∈ w, e ∈ m.eventIds) :
    refire m w = true ↔
      ∃ st, Explore.run m.concreteStep m.initial w = some st ∧ m.isBad st = true := by
  unfold refire
  constructor
  · intro h
    split at h
    · cases h
    · next mm hmm =>
      obtain ⟨hbad, hfire⟩ := Bool.and_eq_true_iff.mp h
      have hf : ∀ i < m.leaves.length, ∃ q, (m.leaf i).fire (m.project w i) = some q :=
        fun i hi => Option.isSome_iff_exists.mp
          (List.all_eq_true.mp hfire i (List.mem_range.mpr hi))
      let st : List Nat := mm :: (List.range m.leaves.length).map fun i =>
        ((m.leaf i).fire (m.project w i)).getD 0
      have hlen : st.length = m.leaves.length + 1 := by simp [st]
      refine ⟨st, (run_product hm hw hlen).mpr ⟨hmm, fun i hi => ?_⟩, hbad⟩
      obtain ⟨q, hq⟩ := hf i hi
      have hget : st.getD (i + 1) 0 = q := by simp [st, hi, hq]
      rw [hget]
      exact hq
  · rintro ⟨st, hst, hbad⟩
    obtain ⟨h1, h2⟩ := (run_product hm hw (run_length hm hw hst)).mp hst
    rw [h1]
    refine Bool.and_eq_true_iff.mpr ⟨hbad, List.all_eq_true.mpr fun i hi => ?_⟩
    have hf : (m.leaf i).fire (m.project w i) = some (st.getD (i + 1) 0) :=
      h2 i (List.mem_range.mp hi)
    rw [hf]
    rfl

omit hm in
theorem mem_of_letterFor {e : Event} {i a : Nat} (h : e.letterFor i = some a) :
    (i, a) ∈ e.support := by
  obtain ⟨p, hp, rfl⟩ := Option.map_eq_some_iff.mp h
  have hi := List.find?_some hp
  simp only [decide_eq_true_eq] at hi
  exact hi ▸ List.mem_of_find?_eq_some hp

theorem project_letters {w : List Nat} (hw : ∀ e ∈ w, e ∈ m.eventIds)
    (i : Nat) : ∀ a ∈ m.project w i, a < (m.leaf i).nLetters := by
  intro a ha
  obtain ⟨e, he, hl⟩ := List.mem_filterMap.mp ha
  exact (hm.event (hw e he)).letter _ (mem_of_letterFor hl)

/-- Leaves that run every trace of the concrete ones run every word the concrete
product does, to the same monitor state. -/
theorem run_simulated {move : Nat → Nat → Nat → Option Nat}
    (hmove : ∀ i < m.leaves.length, ∀ u, (∀ a ∈ u, a < (m.leaf i).nLetters) →
      ((m.leaf i).fire u).isSome = true → (Explore.run (move i) 0 u).isSome = true)
    {w st : List Nat}
    (hw : ∀ e ∈ w, e ∈ m.eventIds)
    (hst : Explore.run m.concreteStep m.initial w = some st) :
    ∃ st', Explore.run (m.productStep move) m.initial w = some st' ∧
      st'.getD 0 0 = st.getD 0 0 := by
  obtain ⟨h1, h2⟩ := (run_product hm hw (run_length hm hw hst)).mp hst
  let st' : List Nat := st.getD 0 0 :: (List.range m.leaves.length).map fun i =>
    (Explore.run (move i) 0 (m.project w i)).getD 0
  refine ⟨st', (run_product hm hw (by simp [st'])).mpr ⟨h1, fun i hi => ?_⟩, rfl⟩
  have hf : (m.leaf i).fire (m.project w i) = some (st.getD (i + 1) 0) := h2 i hi
  obtain ⟨c, hc⟩ := Option.isSome_iff_exists.mp
    (hmove i hi _ (project_letters hm hw i) (by rw [hf]; rfl))
  simp [st', hi, hc]

end Product

end LibHSC.Cegar
