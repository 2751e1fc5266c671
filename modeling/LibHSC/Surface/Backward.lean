import LibHSC.Ctl.Verdict
import LibHSC.Linear.Dead
import LibHSC.Surface.SpecRead

/-!
Steps within a bound set: `(backward NAME X SET [steps K] [writing LEAF*])` searches back from
a target by layers, `(support NAME SET [alive D] [rounds K])` removes the states that no
firing inside the set supports. A code stands for the finite set of states it denotes, an
event for the successors it gives each state.

The first backward layer is restricted to the events recorded as writing a listed leaf. The
record has the targets named by an atom and no others. A session keeps the converses of a set
from the first form that needs them, and events declared later have none among them:
`backward_right_iff` says when both are enough.
-/

namespace LibHSC.Surface

open Ctl (Halt Inverter applyTerm image mem_applyTerm mem_image mem_successors)
open Linear (Reached)

/-! ## The default system -/

/-- The leaves written, as named in the `do` clauses: `(OP LEAF …)` each, with the direction
of the move. -/
def actionWrite (a : Datum) : Option (String × Int) :=
  if a.isAtom = false ∧ 2 ≤ a.items.length ∧ (a.item 1).isAtom = true then
    some ((a.item 1).text, if a.head = "+=" then 1 else if a.head = "-=" then -1 else 0)
  else none

/-- The actions of the `do` clauses of an event, in order. -/
def actions (body : List Datum) : List Datum :=
  (body.filter fun clause => !clause.isAtom && !clause.items.isEmpty && clause.head = "do").flatMap
    fun clause => clause.items.tail

def eventWrites (body : List Datum) : List (String × Int) := (actions body).filterMap actionWrite

/-- The events and what was recorded of their writes, which may be a shorter list. -/
structure DefaultSystem (σ : Type) where
  events : List (σ → Finset σ)
  eventWrites : List (List (String × Int))

/-- What a declaration compiles to: a dead event, the identity, or a term that steps. -/
inductive CompiledTerm (σ : Type)
  | dead
  | id
  | steps (term : σ → Finset σ)

/-- What adds a term to the default system. -/
inductive Declared (σ : Type)
  | event (body : List Datum) (compiled : CompiledTerm σ)
  | family (compiled : CompiledTerm σ)

namespace DefaultSystem

variable {σ : Type}

/-- The record is brought to the length of the events, and the new one stands at its end. A
declaration that does not step is named, and the default system stays as it is. -/
def declare (E : DefaultSystem σ) : Declared σ → DefaultSystem σ
  | .event body (.steps term) => {
      events := E.events ++ [term]
      eventWrites := E.eventWrites ++ List.replicate (E.events.length - E.eventWrites.length) []
        ++ [Surface.eventWrites body] }
  | .family (.steps term) => { E with events := E.events ++ [term] }
  | _ => E

/-- The events come one after the other. -/
theorem declare_events (E : DefaultSystem σ) (d : Declared σ) :
    ∃ l, (E.declare d).events = E.events ++ l := by
  rcases d with ⟨body, _ | _ | term⟩ | ⟨_ | _ | term⟩ <;>
    first | exact ⟨[term], rfl⟩ | exact ⟨[], (List.append_nil _).symm⟩

/-- The recorded writes of an event; there are none when they are unknown. -/
def writesOf (E : DefaultSystem σ) (i : Nat) : List (String × Int) := (E.eventWrites[i]?).getD []

/-- The events that write one of the leaves. An event whose writes are unknown is kept. -/
def eventsWriting (E : DefaultSystem σ) (leaves : List String) : List Nat :=
  (List.range E.events.length).filter fun i =>
    leaves.isEmpty || (E.writesOf i).isEmpty || (E.writesOf i).any fun w => leaves.contains w.1

/-- The events a dead result left alive; all of them when none is named. -/
def eventsAlive (E : DefaultSystem σ) (live : Option (List Bool)) : List Nat :=
  (List.range E.events.length).filter fun u =>
    match live with
    | none => true
    | some l => l[u]? == some true

end DefaultSystem

/-! ## The commands -/

section Commands

variable {σ : Type} [DecidableEq σ]

/-- The images of `x` under the listed terms, each met with the set before the join. No result
is a stop: the deadline is polled before every term. -/
def within (terms : List (σ → Finset σ)) (stopping : Nat → Bool) (x set : Finset σ) :
    List Nat → Nat → Finset σ → Option (Finset σ × Nat)
  | [], clock, acc => some (acc, clock)
  | i :: which, clock, acc =>
    if stopping clock then none
    else
      let p := applyTerm ((terms[i]?).getD fun _ => ∅) x ∩ set
      within terms stopping x set which (clock + 1) (if p = ∅ then acc else acc ∪ p)

/-- What ends a backward form without a result: an event with no converse, a fuel that is
out, and a read past the end of the converses. -/
inductive Fault
  | refused
  | stopped
  | undefinedBehaviour
deriving DecidableEq, Repr

/-- `pre(X) ∩ set` under the listed converses. An index past their end is read after the
deadline is polled. -/
def preWithin (conv : List (σ → Finset σ)) (stopping : Nat → Bool) (x set : Finset σ)
    (which : List Nat) (clock : Nat) : Except Fault (Option (Finset σ × Nat)) :=
  let there := which.takeWhile fun i => i < conv.length
  match within conv stopping x set there clock ∅ with
  | none => .ok none
  | some (pre, clock') =>
    if there = which then .ok (some (pre, clock'))
    else if stopping clock' then .ok none
    else .error .undefinedBehaviour

/-- `post(X) ∩ set` under the listed events. -/
def postWithin (events : List (σ → Finset σ)) (stopping : Nat → Bool) (x set : Finset σ)
    (which : List Nat) (clock : Nat) : Option (Finset σ × Nat) :=
  within events stopping x set which clock ∅

/-- The word a search prints: `init`, `open`, `closed` and `partial`. -/
inductive Ending
  | init
  | opened
  | closed
  | cut
deriving DecidableEq, Repr

structure Search (σ : Type) where
  how : Ending
  layers : Nat
  result : Finset σ

variable (seed : Finset σ) (stopping : Nat → Bool)

/-- The layers of the backward search, the first one by its own events. -/
def backwardLoop (conv : List (σ → Finset σ)) (first all : List Nat) (set : Finset σ)
    (steps : Nat) : Nat → Nat → Nat → Finset σ → Finset σ → Except Fault (Search σ)
  | 0, _, _, _, _ => .error .stopped
  | fuel + 1, k, clock, seen, frontier =>
    if frontier ∩ seed ≠ ∅ then .ok ⟨.init, k, seen⟩
    else if steps ≠ 0 ∧ steps ≤ k then .ok ⟨.opened, k, seen⟩
    else
      match preWithin conv stopping frontier set (if k = 0 then first else all) clock with
      | .error e => .error e
      | .ok none => .ok ⟨.cut, k, seen⟩
      | .ok (some (pre, clock')) =>
        let fresh := if pre = ∅ then ∅ else pre \ seen
        if fresh = ∅ then .ok ⟨.closed, k + 1, seen⟩
        else backwardLoop conv first all set steps fuel (k + 1) clock' (seen ∪ fresh) fresh

/-- The raw converses of the events against the set; none when one has none. -/
def invertAll (inv : Inverter σ) (potential : Finset σ) (events : List (σ → Finset σ)) :
    Option (List (σ → Finset σ)) :=
  events.mapM fun ev => inv.run ev potential

/-- What a session keeps: the default system, and the converses found for each set. -/
structure BackSession (σ : Type) where
  system : DefaultSystem σ
  converses : Finset σ → Option (List (σ → Finset σ))

namespace BackSession

/-- The converses kept for the set, or those of the events there are, kept from now on. -/
def conversesAgainst (S : BackSession σ) (inv : Inverter σ) (potential : Finset σ) :
    Option (List (σ → Finset σ) × BackSession σ) :=
  match S.converses potential with
  | some conv => some (conv, S)
  | none => do
    let conv ← invertAll inv potential S.system.events
    return (conv, { S with converses := Function.update S.converses potential (some conv) })

/-- The forms of a session that change what it keeps: a declaration, and a form that steps back
within a set. -/
inductive Form (σ : Type)
  | declare (d : Declared σ)
  | stepsBack (set : Finset σ)

def step (inv : Inverter σ) (S : BackSession σ) : Form σ → BackSession σ
  | .declare d => { S with system := S.system.declare d }
  | .stepsBack set => ((S.conversesAgainst inv set).map Prod.snd).getD S

def run (inv : Inverter σ) (forms : List (Form σ)) : BackSession σ :=
  forms.foldl (step inv) ⟨⟨[], []⟩, fun _ => none⟩

/-- How many events have a converse kept for the set: all of them when none is kept yet. -/
def inverted (S : BackSession σ) (set : Finset σ) : Nat :=
  match S.converses set with
  | some conv => conv.length
  | none => S.system.events.length

end BackSession

def doBackward (fuel : Nat) (S : BackSession σ) (inv : Inverter σ) (x set : Finset σ) (steps : Nat)
    (writing : List String) : Except Fault (Search σ) :=
  match S.conversesAgainst inv set with
  | none => .error .refused
  | some (conv, _) =>
    backwardLoop seed stopping conv (S.system.eventsWriting writing) (S.system.eventsWriting [])
      set steps fuel 0 0 (x ∩ set) (x ∩ set)

/-- The rounds of the support: what neither is initial nor has a supporting predecessor goes. -/
def supportLoop (events : List (σ → Finset σ)) (which : List Nat) (rounds : Nat) :
    Nat → Nat → Nat → Finset σ → Except Halt (Search σ)
  | 0, _, _, _ => .error .stopped
  | fuel + 1, k, clock, cur =>
    if rounds ≠ 0 ∧ rounds ≤ k then .ok ⟨.opened, k, cur⟩
    else
      match postWithin events stopping cur cur which clock with
      | none => .ok ⟨.cut, k, cur⟩
      | some (img, clock') =>
        let next := cur ∩ (if img = ∅ then seed else img ∪ seed)
        if stopping clock' then .ok ⟨.cut, k, cur⟩
        else if next = cur then .ok ⟨.closed, k + 1, cur⟩
        else supportLoop events which rounds fuel (k + 1) (clock' + 1) next

def doSupport (fuel : Nat) (E : DefaultSystem σ) (set : Finset σ) (live : Option (List Bool))
    (rounds : Nat) : Except Halt (Search σ) :=
  supportLoop seed stopping E.events (E.eventsAlive live) rounds fuel 0 0 set

end Commands

/-! ## Images within a set -/

section Within

variable {σ : Type} [DecidableEq σ] {terms : List (σ → Finset σ)} {stopping : Nat → Bool}
  {x set : Finset σ}

/-- One of the listed terms leads from the state to the other. -/
def Listed (terms : List (σ → Finset σ)) (which : List Nat) (s t : σ) : Prop :=
  ∃ i ∈ which, ∃ e, terms[i]? = some e ∧ t ∈ e s

theorem mem_applyTerm_getD {i : Nat} {y : σ} :
    y ∈ applyTerm ((terms[i]?).getD fun _ => ∅) x ↔ ∃ e, terms[i]? = some e ∧ ∃ s ∈ x, y ∈ e s := by
  rw [mem_applyTerm]
  cases h : terms[i]? <;> simp

theorem mem_within : ∀ {which : List Nat} {clock clock' : Nat} {acc r : Finset σ},
    within terms stopping x set which clock acc = some (r, clock') →
      ∀ y, y ∈ r ↔ y ∈ acc ∨ (y ∈ set ∧ ∃ s ∈ x, Listed terms which s y) := by
  intro which
  induction which with
  | nil =>
    intro clock clock' acc r h y
    cases h
    simp [Listed]
  | cons i which ih =>
    intro clock clock' acc r h y
    rw [within] at h
    split at h
    · cases h
    · have hacc : ∀ p : Finset σ, (if p = ∅ then acc else acc ∪ p) = acc ∪ p := by
        intro p
        split
        · next hp => rw [hp, Finset.union_empty]
        · rfl
      simp only [hacc] at h
      rw [ih h y, Finset.mem_union, Finset.mem_inter, mem_applyTerm_getD]
      constructor
      · rintro ((hy | ⟨⟨e, he, s, hs, hy⟩, hset⟩) | ⟨hset, s, hs, j, hj, e, he, hy⟩)
        · exact .inl hy
        · exact .inr ⟨hset, s, hs, i, List.mem_cons_self, e, he, hy⟩
        · exact .inr ⟨hset, s, hs, j, List.mem_cons_of_mem _ hj, e, he, hy⟩
      · rintro (hy | ⟨hset, s, hs, j, hj, e, he, hy⟩)
        · exact .inl (.inl hy)
        · rcases List.mem_cons.mp hj with rfl | hj
          · exact .inl (.inr ⟨⟨e, he, s, hs, hy⟩, hset⟩)
          · exact .inr ⟨hset, s, hs, j, hj, e, he, hy⟩

end Within

/-! ## The support -/

section Support

variable {σ : Type} [DecidableEq σ] {E : DefaultSystem σ} {seed set : Finset σ}
  {live : Option (List Bool)} {stopping : Nat → Bool}

/-- The events a dead result left out are enabled at no reachable state. -/
def SoundAlive (E : DefaultSystem σ) (seed : Finset σ) (live : Option (List Bool)) : Prop :=
  ∀ i e, E.events[i]? = some e → i ∉ E.eventsAlive live → ∀ s, Reached seed E.events s → e s = ∅

omit [DecidableEq σ] in
/-- A sound report is one to run on. -/
theorem soundAlive_of_dead (r : Linear.DeadReport E.events.length)
    (hr : ∀ i, (r.verdicts i).dead → ∀ s, Reached seed E.events s → E.events[i] s = ∅) :
    SoundAlive E seed (some r.live) := by
  intro i e hi hout s hs
  obtain ⟨hlt, rfl⟩ := List.getElem?_eq_some_iff.mp hi
  refine hr ⟨i, hlt⟩ ?_ s hs
  by_contra hlive
  refine hout (List.mem_filter.mpr ⟨List.mem_range.mpr hlt, ?_⟩)
  simp [Linear.DeadReport.live, hlt, hlive]

/-- What `X` is held up by: the initial states, and its images under the events left alive. -/
def supported (E : DefaultSystem σ) (seed : Finset σ) (live : Option (List Bool))
    (X : Finset σ) : Set σ :=
  {t | t ∈ seed ∨ ∃ s ∈ X, Listed E.events (E.eventsAlive live) s t}

omit [DecidableEq σ] in
theorem supported_mono {X Y : Finset σ} (h : X ⊆ Y) :
    supported E seed live X ⊆ supported E seed live Y := by
  rintro t (ht | ⟨s, hs, hst⟩)
  · exact .inl ht
  · exact .inr ⟨s, h hs, hst⟩

/-- A round: the states of the set that it supports itself. -/
theorem mem_round {cur img : Finset σ} {clock clock' : Nat}
    (h : postWithin E.events stopping cur cur (E.eventsAlive live) clock = some (img, clock'))
    (t : σ) : t ∈ cur ∩ (if img = ∅ then seed else img ∪ seed) ↔
      t ∈ cur ∧ t ∈ supported E seed live cur := by
  have himg := mem_within h t
  simp only [Finset.notMem_empty, false_or] at himg
  have hjoin : (if img = ∅ then seed else img ∪ seed) = img ∪ seed := by
    split
    · next hn => rw [hn, Finset.empty_union]
    · rfl
  rw [hjoin, Finset.mem_inter, Finset.mem_union, himg]
  constructor
  · rintro ⟨hc, ⟨-, hs⟩ | hs⟩
    · exact ⟨hc, .inr hs⟩
    · exact ⟨hc, .inl hs⟩
  · rintro ⟨hc, hs | hs⟩
    · exact ⟨hc, .inr hs⟩
    · exact ⟨hc, .inl ⟨hc, hs⟩⟩

omit [DecidableEq σ] in
/-- Reachable states are supported by reachable states. -/
theorem reached_supported (hlive : SoundAlive E seed live) {X : Finset σ}
    (hX : ∀ s, Reached seed E.events s → s ∈ X) {t : σ} (ht : Reached seed E.events t) :
    t ∈ supported E seed live X := by
  obtain ⟨n, hn⟩ := ht
  cases hn with
  | start h => exact .inl h
  | @step n s t hs hst =>
    obtain ⟨e, he, hte⟩ := hst
    obtain ⟨i, hi⟩ := List.mem_iff_getElem?.mp he
    refine .inr ⟨s, hX s ⟨n, hs⟩, i, ?_, e, hi, hte⟩
    by_contra hdead
    rw [hlive i e hi hdead s ⟨n, hs⟩] at hte
    exact Finset.notMem_empty t hte

/-- What a round keeps. -/
structure Kept (E : DefaultSystem σ) (seed set : Finset σ) (live : Option (List Bool))
    (cur : Finset σ) : Prop where
  below : cur ⊆ set
  reach : ∀ s, Reached seed E.events s → s ∈ cur
  great : ∀ X : Finset σ, X ⊆ set → ↑X ⊆ supported E seed live X → X ⊆ cur

omit [DecidableEq σ] in
/-- The step lemma. -/
theorem Kept.round (hlive : SoundAlive E seed live) {cur next : Finset σ}
    (h : Kept E seed set live cur)
    (hnext : ∀ t, t ∈ next ↔ t ∈ cur ∧ t ∈ supported E seed live cur) :
    Kept E seed set live next where
  below t ht := h.below ((hnext t).mp ht).1
  reach t ht := (hnext t).mpr ⟨h.reach t ht, reached_supported hlive h.reach ht⟩
  great X hX hsup t ht :=
    (hnext t).mpr ⟨h.great X hX hsup ht, supported_mono (h.great X hX hsup) (hsup ht)⟩

/-- The rounds end, since each but the last removes a state; whatever is bound is kept, and
when the search closes it supports itself. -/
theorem supportLoop_kept (stopping : Nat → Bool) (hlive : SoundAlive E seed live) (rounds : Nat) :
    ∀ (b k clock : Nat) (cur : Finset σ), cur.card ≤ b → Kept E seed set live cur →
      ∃ r, (∀ fuel, b < fuel → supportLoop seed stopping E.events (E.eventsAlive live) rounds fuel k
          clock cur = .ok r) ∧
        Kept E seed set live r.result ∧
        (r.how = .closed → ↑r.result ⊆ supported E seed live r.result) := by
  intro b
  induction b using Nat.strong_induction_on with
  | _ b ih =>
    intro k clock cur hcard hkept
    have hfuel : ∀ fuel, b < fuel → ∃ fuel', fuel = fuel' + 1 ∧ b ≤ fuel' :=
      fun fuel hlt => ⟨fuel - 1, by omega, by omega⟩
    by_cases hrounds : rounds ≠ 0 ∧ rounds ≤ k
    · refine ⟨⟨.opened, k, cur⟩, fun fuel hlt => ?_, hkept, fun h => by cases h⟩
      obtain ⟨fuel', rfl, -⟩ := hfuel fuel hlt
      rw [supportLoop, if_pos hrounds]
    · rcases himg : postWithin E.events stopping cur cur (E.eventsAlive live) clock with
        _ | ⟨img, clock'⟩
      · refine ⟨⟨.cut, k, cur⟩, fun fuel hlt => ?_, hkept, fun h => by cases h⟩
        obtain ⟨fuel', rfl, -⟩ := hfuel fuel hlt
        simp only [supportLoop, if_neg hrounds, himg]
      · have hnext : ∀ t, t ∈ cur ∩ (if img = ∅ then seed else img ∪ seed) ↔
            t ∈ cur ∧ t ∈ supported E seed live cur := mem_round himg
        generalize hn : cur ∩ (if img = ∅ then seed else img ∪ seed) = next at hnext
        by_cases hstop : stopping clock' = true
        · refine ⟨⟨.cut, k, cur⟩, fun fuel hlt => ?_, hkept, fun h => by cases h⟩
          obtain ⟨fuel', rfl, -⟩ := hfuel fuel hlt
          simp only [supportLoop, if_neg hrounds, himg, if_pos hstop]
        · by_cases hfix : next = cur
          · refine ⟨⟨.closed, k + 1, cur⟩, fun fuel hlt => ?_, hkept, fun _ t ht => ?_⟩
            · obtain ⟨fuel', rfl, -⟩ := hfuel fuel hlt
              simp only [supportLoop, if_neg hrounds, himg, if_neg hstop, hn, if_pos hfix]
            · exact ((hnext t).mp (by rw [hfix]; exact ht)).2
          · have hsub : next ⊆ cur := fun t ht => ((hnext t).mp ht).1
            have hlt : next.card < cur.card :=
              Finset.card_lt_card (Finset.ssubset_iff_subset_ne.mpr ⟨hsub, hfix⟩)
            obtain ⟨r, hr, hrest⟩ := ih next.card (by omega) (k + 1) (clock' + 1)
              next le_rfl (hkept.round hlive hnext)
            refine ⟨r, fun fuel hlt' => ?_, hrest⟩
            obtain ⟨fuel', rfl, hle⟩ := hfuel fuel hlt'
            simp only [supportLoop, if_neg hrounds, himg, if_neg hstop, hn, if_neg hfix]
            exact hr fuel' (by omega)

end Support

example : (doSupport {0} (fun _ => false) 4 ⟨Linear.twoEvents, []⟩ {0, 1, 5}
    (some [true, false]) 0).map (fun r => (r.how, r.result)) = .ok (.closed, {0, 1}) := by
  decide

/-! ## The backward search -/

section Entering

variable {σ : Type} {E : DefaultSystem σ} {seed x : Finset σ} {writing : List String}

/-- A step that does not enter the target. -/
def Avoids (E : DefaultSystem σ) (x : Finset σ) (s t : σ) : Prop :=
  Linear.Fires E.events s t ∧ t ∉ x

/-- A run that stays outside the target leads from the state to one from which an event the
first layer looks at enters the target. -/
def EntersFrom (E : DefaultSystem σ) (x : Finset σ) (writing : List String) (s : σ) : Prop :=
  s ∉ x ∧ ∃ v, Relation.ReflTransGen (Avoids E x) s v ∧
    ∃ t ∈ x, Listed E.events (E.eventsWriting writing) v t

theorem Listed.fires {which : List Nat} {s t : σ} (h : Listed E.events which s t) :
    Linear.Fires E.events s t := by
  obtain ⟨i, -, e, he, ht⟩ := h
  exact ⟨e, List.mem_of_getElem? he, ht⟩

/-- With no leaf listed, the layer looks at every event. -/
theorem listed_all {s t : σ} : Listed E.events (E.eventsWriting []) s t ↔
    Linear.Fires E.events s t := by
  refine ⟨Listed.fires, ?_⟩
  rintro ⟨e, he, ht⟩
  obtain ⟨i, hi⟩ := List.mem_iff_getElem?.mp he
  have hlt : i < E.events.length := (List.getElem?_eq_some_iff.mp hi).1
  exact ⟨i, by simp [DefaultSystem.eventsWriting, hlt], e, hi, ht⟩

theorem EntersFrom.back {s v : σ} (h : EntersFrom E x writing v) (hs : s ∉ x)
    (hsv : Linear.Fires E.events s v) : EntersFrom E x writing s := by
  obtain ⟨hv, u, hrun, hu⟩ := h
  exact ⟨hs, u, hrun.head ⟨hsv, hv⟩, hu⟩

theorem reached_run {s v : σ} (hs : Reached seed E.events s)
    (h : Relation.ReflTransGen (Avoids E x) s v) : Reached seed E.events v := by
  induction h with
  | refl => exact hs
  | tail _ h ih => exact ih.step h.1

/-- The target is then reachable from the state. -/
theorem EntersFrom.reached {s : σ} (h : EntersFrom E x writing s) (hs : Reached seed E.events s) :
    ∃ t ∈ x, Reached seed E.events t := by
  obtain ⟨-, v, hrun, t, ht, hlist⟩ := h
  exact ⟨t, ht, (reached_run hs hrun).step hlist.fires⟩

end Entering

section Backward

variable {σ : Type} [DecidableEq σ] {E : DefaultSystem σ} {inv : Inverter σ}
  {seed x set : Finset σ} {writing : List String} {stopping : Nat → Bool}

/-! ### The converses -/

omit [DecidableEq σ] in
theorem invertAll_run {potential : Finset σ} :
    ∀ {events conv : List (σ → Finset σ)}, invertAll inv potential events = some conv →
      List.Forall₂ (fun ev p => inv.run ev potential = some p) events conv := by
  intro events
  induction events with
  | nil =>
    intro conv h
    cases h
    exact .nil
  | cons ev events ih =>
    intro conv h
    simp only [invertAll, List.mapM_cons, Option.bind_eq_bind, Option.bind_eq_some_iff] at h
    obtain ⟨p, hp, ps, hps, h⟩ := h
    cases h
    exact .cons hp (ih hps)

/-- The list has the converses of the first events. -/
def Inverted (inv : Inverter σ) (set : Finset σ) (events conv : List (σ → Finset σ)) : Prop :=
  conv.length ≤ events.length ∧ invertAll inv set (events.take conv.length) = some conv

omit [DecidableEq σ] in
/-- They are the first events of a longer list too. -/
theorem Inverted.append {events conv : List (σ → Finset σ)} (h : Inverted inv set events conv)
    (l : List (σ → Finset σ)) : Inverted inv set (events ++ l) conv := by
  refine ⟨h.1.trans (by simp), ?_⟩
  rw [List.take_append_of_le_length h.1]
  exact h.2

omit [DecidableEq σ] in
theorem Inverted.of_all {events conv : List (σ → Finset σ)}
    (h : invertAll inv set events = some conv) : Inverted inv set events conv := by
  have hlen := (invertAll_run h).length_eq
  refine ⟨hlen.ge, ?_⟩
  rw [← hlen, List.take_length]
  exact h

omit [DecidableEq σ] in
theorem Inverted.listed {events conv : List (σ → Finset σ)} (h : Inverted inv set events conv)
    {which : List Nat} (hin : ∀ i ∈ which, i < conv.length) :
    (∀ s t, Listed conv which t s → Listed events which s t) ∧
      ∀ s t, s ∈ set → Listed events which s t → Listed conv which t s := by
  have hall := invertAll_run h.2
  have hpair : ∀ (i : Nat) ev p, events[i]? = some ev → conv[i]? = some p →
      inv.run ev set = some p := by
    intro i ev p hev hp
    obtain ⟨hlt, rfl⟩ := List.getElem?_eq_some_iff.mp hp
    have hlt' : i < (events.take conv.length).length := lt_of_lt_of_eq hlt hall.length_eq.symm
    have hrun := hall.get hlt' hlt
    rw [List.get_eq_getElem, List.getElem_take] at hrun
    obtain ⟨_, rfl⟩ := List.getElem?_eq_some_iff.mp hev
    exact hrun
  constructor
  · rintro s t ⟨i, hi, p, hp, hs⟩
    have hlt : i < events.length := (hin i hi).trans_le h.1
    have hev : events[i]? = some events[i] := List.getElem?_eq_getElem hlt
    exact ⟨i, hi, _, hev, inv.sound _ _ _ (hpair i _ p hev hp) _ _ hs⟩
  · rintro s t hset ⟨i, hi, ev, hev, ht⟩
    have hlt : i < conv.length := hin i hi
    have hp : conv[i]? = some conv[i] := List.getElem?_eq_getElem hlt
    exact ⟨i, hi, _, hp, inv.complete _ _ _ (hpair i ev _ hev hp) _ _ hset ht⟩

variable (inv) in
/-- What a session keeps for a set are converses of the first events declared. -/
def BackSession.Sound (S : BackSession σ) : Prop :=
  ∀ set conv, S.converses set = some conv → Inverted inv set S.system.events conv

/-- So are those a form steps back with, as many as are kept or all of them. -/
theorem BackSession.Sound.against {S S' : BackSession σ} {conv : List (σ → Finset σ)}
    (hS : S.Sound inv)
    (h : S.conversesAgainst inv set = some (conv, S')) :
    Inverted inv set S.system.events conv ∧ S.inverted set = conv.length ∧ S'.Sound inv := by
  unfold BackSession.conversesAgainst at h
  unfold BackSession.inverted
  cases hkept : S.converses set with
  | some kept =>
    rw [hkept] at h
    cases h
    exact ⟨hS set conv hkept, rfl, hS⟩
  | none =>
    rw [hkept] at h
    obtain ⟨found, hall, h⟩ := Option.bind_eq_some_iff.mp h
    cases h
    refine ⟨.of_all hall, (invertAll_run hall).length_eq, fun other conv' h => ?_⟩
    dsimp only at h
    by_cases hset : other = set
    · subst hset
      rw [Function.update_self] at h
      cases h
      exact .of_all hall
    · rw [Function.update_of_ne hset] at h
      exact hS other conv' h

/-- The step lemma. -/
theorem BackSession.Sound.step {S : BackSession σ} (hS : S.Sound inv) (f : BackSession.Form σ) :
    (S.step inv f).Sound inv := by
  cases f with
  | declare d =>
    intro set conv h
    obtain ⟨l, hl⟩ := S.system.declare_events d
    have happ := (hS set conv h).append l
    rwa [← hl] at happ
  | stepsBack back =>
    dsimp only [BackSession.step]
    cases h : S.conversesAgainst inv back with
    | none => exact hS
    | some r => exact (hS.against h).2.2

/-- The run lemma. -/
theorem BackSession.run_sound (forms : List (BackSession.Form σ)) :
    (BackSession.run inv forms).Sound inv := by
  have hrun : ∀ (forms : List (BackSession.Form σ)) (S : BackSession σ), S.Sound inv →
      (forms.foldl (BackSession.step inv) S).Sound inv := by
    intro forms
    induction forms with
    | nil => exact fun _ h => h
    | cons f forms ih => exact fun S h => ih _ (h.step f)
  refine hrun forms _ fun set conv h => ?_
  cases h

theorem preWithin_eq {conv : List (σ → Finset σ)} {frontier : Finset σ} {which : List Nat}
    (hin : ∀ i ∈ which, i < conv.length) (clock : Nat) :
    preWithin conv stopping frontier set which clock =
      .ok (within conv stopping frontier set which clock ∅) := by
  have hwhich : which.takeWhile (fun i => i < conv.length) = which :=
    List.takeWhile_eq_self_iff.mpr fun i hi => by simpa using hin i hi
  unfold preWithin
  simp only [hwhich, if_true]
  cases within conv stopping frontier set which clock ∅ <;> rfl

/-- A layer that comes through has exactly the predecessors within the set. -/
theorem mem_preWithin {conv : List (σ → Finset σ)} (hconv : Inverted inv set E.events conv)
    {frontier pre : Finset σ} {which : List Nat} {clock clock' : Nat}
    (h : preWithin conv stopping frontier set which clock = .ok (some (pre, clock'))) (s : σ) :
    s ∈ pre ↔ s ∈ set ∧ ∃ t ∈ frontier, Listed E.events which s t := by
  have hin : ∀ i ∈ which, i < conv.length := by
    unfold preWithin at h
    dsimp only at h
    split at h
    · cases h
    · split at h
      · next hwhich => simpa using List.takeWhile_eq_self_iff.mp hwhich
      · split at h <;> cases h
  rw [preWithin_eq hin] at h
  have hpre := mem_within (Except.ok.inj h) s
  simp only [Finset.notMem_empty, false_or] at hpre
  obtain ⟨hsound, hcomplete⟩ := hconv.listed hin
  rw [hpre]
  constructor
  · rintro ⟨hs, t, ht, hl⟩
    exact ⟨hs, t, ht, hsound s t hl⟩
  · rintro ⟨hs, t, ht, hl⟩
    exact ⟨hs, t, ht, hcomplete s t hs hl⟩

/-! ### The layers -/

/-- What the layers found so far are: states of the set that lead into the target; those
already expanded are not initial, and past the target all their predecessors are found. -/
structure Layers (E : DefaultSystem σ) (seed x set : Finset σ) (writing : List String) (k : Nat)
    (seen frontier : Finset σ) : Prop where
  inside : seen ⊆ set
  found : x ∩ set ⊆ seen
  known : frontier ⊆ seen
  leads : ∀ s ∈ seen, s ∈ x ∨ EntersFrom E x writing s
  start : k = 0 → frontier = x ∩ set ∧ seen = x ∩ set
  fresh : k ≠ 0 → ∀ s ∈ frontier, s ∉ x
  entry : k ≠ 0 → ∀ s ∈ set, ∀ t ∈ x ∩ set, Listed E.events (E.eventsWriting writing) s t → s ∈ seen
  expanded : ∀ s ∈ seen, s ∉ frontier → s ∉ seed ∧
    (s ∈ x ∨ ∀ p ∈ set, Linear.Fires E.events p s → p ∈ seen)

theorem layers_start : Layers E seed x set writing 0 (x ∩ set) (x ∩ set) where
  inside := Finset.inter_subset_right
  found := subset_rfl
  known := subset_rfl
  leads _ hs := .inl (Finset.mem_inter.mp hs).1
  start _ := ⟨rfl, rfl⟩
  fresh h := absurd rfl h
  entry h := absurd rfl h
  expanded _ hs hout := absurd hs hout

/-- The step lemma: one more layer. -/
theorem Layers.next {k : Nat} {seen frontier pre : Finset σ}
    (h : Layers E seed x set writing k seen frontier) (hseed : ∀ s ∈ frontier, s ∉ seed)
    (hpre : ∀ s, s ∈ pre ↔ s ∈ set ∧ ∃ t ∈ frontier,
      Listed E.events (E.eventsWriting (if k = 0 then writing else [])) s t) :
    Layers E seed x set writing (k + 1) (seen ∪ (pre \ seen)) (pre \ seen) := by
  have hin : ∀ s, s ∈ seen ∪ (pre \ seen) ↔ s ∈ seen ∨ s ∈ pre := by
    intro s
    rw [Finset.union_sdiff_self_eq_union, Finset.mem_union]
  have hout : ∀ s ∈ pre \ seen, s ∉ x := by
    intro s hs hx
    obtain ⟨hs, hns⟩ := Finset.mem_sdiff.mp hs
    exact hns (h.found (Finset.mem_inter.mpr ⟨hx, ((hpre s).mp hs).1⟩))
  refine ⟨fun s hs => ?_, h.found.trans Finset.subset_union_left, Finset.subset_union_right,
    fun s hs => ?_, fun h0 => absurd h0 (Nat.succ_ne_zero k), fun _ => hout,
    fun _ s hs t ht hl => ?_, fun s hs hnew => ?_⟩
  · rcases (hin s).mp hs with hs | hs
    · exact h.inside hs
    · exact ((hpre s).mp hs).1
  · by_cases hold : s ∈ seen
    · exact h.leads s hold
    · have hs : s ∈ pre := ((hin s).mp hs).resolve_left hold
      have hsx : s ∉ x := hout s (Finset.mem_sdiff.mpr ⟨hs, hold⟩)
      obtain ⟨t, ht, hl⟩ := ((hpre s).mp hs).2
      by_cases hk : k = 0
      · rw [if_pos hk] at hl
        rw [(h.start hk).1] at ht
        exact .inr ⟨hsx, s, .refl, t, (Finset.mem_inter.mp ht).1, hl⟩
      · have hlead := (h.leads t (h.known ht)).resolve_left (h.fresh hk t ht)
        exact .inr (hlead.back hsx hl.fires)
  · by_cases hk : k = 0
    · refine (hin s).mpr (.inr ((hpre s).mpr ⟨hs, t, ?_, ?_⟩))
      · rwa [(h.start hk).1]
      · rwa [if_pos hk]
    · exact (hin s).mpr (.inl (h.entry hk s hs t ht hl))
  · have hold : s ∈ seen := by
      by_contra hold
      exact hnew (Finset.mem_sdiff.mpr ⟨((hin s).mp hs).resolve_left hold, hold⟩)
    by_cases hf : s ∈ frontier
    · refine ⟨hseed s hf, ?_⟩
      by_cases hk : k = 0
      · rw [(h.start hk).1] at hf
        exact .inl (Finset.mem_inter.mp hf).1
      · refine .inr fun p hp hps => (hin p).mpr (.inr ((hpre p).mpr ⟨hp, s, hf, ?_⟩))
        rw [if_neg hk]
        exact listed_all.mpr hps
    · obtain ⟨h1, h2⟩ := h.expanded s hold hf
      exact ⟨h1, h2.imp_right fun h2 p hp hps => (hin p).mpr (.inl (h2 p hp hps))⟩

/-- Nothing is left to expand and no state found is initial: no run from an initial state
enters the target by an event the first layer looks at. -/
theorem Layers.closed {k : Nat} {seen : Finset σ} (hset : ∀ s, Reached seed E.events s → s ∈ set)
    (h : Layers E seed x set writing (k + 1) seen ∅) {s : σ} (hs : s ∈ seed) :
    s ∉ x ∧ ¬ EntersFrom E x writing s := by
  have hnone : ∀ s ∈ seen, s ∉ seed := fun s hs => (h.expanded s hs (Finset.notMem_empty s)).1
  have hreach : Reached seed E.events s := .start hs
  have hsx : s ∉ x := fun hx =>
    hnone s (h.found (Finset.mem_inter.mpr ⟨hx, hset s hreach⟩)) hs
  refine ⟨hsx, ?_⟩
  rintro ⟨-, v, hrun, t, ht, hl⟩
  -- the states of the run are found, from its end on
  have hback : ∀ {u}, Relation.ReflTransGen (Avoids E x) u v → Reached seed E.events u →
      u ∉ x → u ∈ seen := by
    intro u hu
    induction hu using Relation.ReflTransGen.head_induction_on with
    | refl =>
      intro hv hvx
      exact h.entry (Nat.succ_ne_zero k) v (hset v hv) t
        (Finset.mem_inter.mpr ⟨ht, hset t (hv.step hl.fires)⟩) hl
    | head hstep hrest ih =>
      intro hu hux
      have hmem := ih (hu.step hstep.1) hstep.2
      exact ((h.expanded _ hmem (Finset.notMem_empty _)).2.resolve_left hstep.2) _
        (hset _ hu) hstep.1
  exact hnone s (hback hrun hreach hsx) hs

/-- The target can be entered from an initial state, or holds one. -/
def Enters (E : DefaultSystem σ) (seed x : Finset σ) (writing : List String) : Prop :=
  ∃ s ∈ seed, s ∈ x ∨ EntersFrom E x writing s

theorem fresh_eq {pre seen : Finset σ} : (if pre = ∅ then ∅ else pre \ seen) = pre \ seen := by
  split
  · next h => rw [h, Finset.empty_sdiff]
  · rfl

/-- The run lemma: what an answer says. -/
theorem backwardLoop_spec {conv : List (σ → Finset σ)}
    (hset : ∀ s, Reached seed E.events s → s ∈ set)
    (hconv : Inverted inv set E.events conv) {steps : Nat} :
    ∀ {fuel k clock : Nat} {seen frontier : Finset σ} {r : Search σ},
      Layers E seed x set writing k seen frontier →
      backwardLoop seed stopping conv (E.eventsWriting writing) (E.eventsWriting []) set steps fuel
        k clock seen frontier = .ok r →
      (r.how = .init → Enters E seed x writing) ∧
        (r.how = .closed → ¬ Enters E seed x writing) := by
  intro fuel
  induction fuel with
  | zero =>
    intro k clock seen frontier r _ h
    cases h
  | succ fuel ih =>
    intro k clock seen frontier r hl h
    rw [backwardLoop] at h
    split at h
    · next hinit =>
      cases h
      refine ⟨fun _ => ?_, fun h => by cases h⟩
      obtain ⟨s, hs⟩ := Finset.nonempty_iff_ne_empty.mpr hinit
      obtain ⟨hf, hseed⟩ := Finset.mem_inter.mp hs
      exact ⟨s, hseed, hl.leads s (hl.known hf)⟩
    · next hinit =>
      have hseed : ∀ s ∈ frontier, s ∉ seed := fun s hf hs =>
        hinit (Finset.ne_empty_of_mem (Finset.mem_inter.mpr ⟨hf, hs⟩))
      split at h
      · cases h
        exact ⟨fun h => (by cases h), fun h => (by cases h)⟩
      · split at h
        · cases h
        · cases h
          exact ⟨fun h => (by cases h), fun h => (by cases h)⟩
        · next pre clock' hp =>
          have hnext := hl.next hseed (fun s => by
            have := mem_preWithin hconv hp s
            rwa [← apply_ite E.eventsWriting] at this)
          simp only [fresh_eq] at h
          split at h
          · next hfresh =>
            cases h
            refine ⟨fun h => (by cases h), fun _ ⟨s, hs, hent⟩ => ?_⟩
            rw [hfresh] at hnext
            obtain ⟨hx, hno⟩ := hnext.closed hset hs
            exact hent.elim hx hno
          · exact ih hnext h

theorem within_never (terms : List (σ → Finset σ)) (y set : Finset σ) :
    ∀ (which : List Nat) (clock : Nat) (acc : Finset σ),
      ∃ r, within terms (fun _ => false) y set which clock acc = some r := by
  intro which
  induction which with
  | nil => exact fun _ _ => ⟨_, rfl⟩
  | cons i which ih =>
    intro clock acc
    obtain ⟨r, hr⟩ := ih (clock + 1)
      (if applyTerm ((terms[i]?).getD fun _ => ∅) y ∩ set = ∅ then acc
        else acc ∪ applyTerm ((terms[i]?).getD fun _ => ∅) y ∩ set)
    exact ⟨r, by simpa [within] using hr⟩

theorem preWithin_past {conv : List (σ → Finset σ)} {which : List Nat}
    (hout : ¬ ∀ i ∈ which, i < conv.length) (frontier : Finset σ) (clock : Nat) :
    preWithin conv (fun _ => false) frontier set which clock = .error .undefinedBehaviour := by
  have hwhich : which.takeWhile (fun i => i < conv.length) ≠ which := fun h =>
    hout (by simpa using List.takeWhile_eq_self_iff.mp h)
  obtain ⟨r, hr⟩ := within_never conv frontier set
    (which.takeWhile fun i => i < conv.length) clock ∅
  simp [preWithin, hr, hwhich]

/-- A search with no bound on its layers that nothing stops decides, unless it reads past the
end of the converses. -/
theorem backwardLoop_ends (seed set : Finset σ) (conv : List (σ → Finset σ))
    (first all : List Nat) : ∀ (b k clock : Nat) (seen frontier : Finset σ),
    (set \ seen).card < b →
      (∃ r, backwardLoop seed (fun _ => false) conv first all set 0 b k clock seen frontier
          = .ok r ∧ (r.how = .init ∨ r.how = .closed)) ∨
        backwardLoop seed (fun _ => false) conv first all set 0 b k clock seen frontier
          = .error .undefinedBehaviour := by
  intro b
  induction b with
  | zero => exact fun _ _ _ _ h => absurd h (Nat.not_lt_zero _)
  | succ b ih =>
    intro k clock seen frontier hcard
    by_cases hinit : frontier ∩ seed ≠ ∅
    · exact .inl ⟨⟨.init, k, seen⟩, by rw [backwardLoop, if_pos hinit], .inl rfl⟩
    · rw [backwardLoop, if_neg hinit, if_neg (by simp)]
      by_cases hin : ∀ i ∈ (if k = 0 then first else all), i < conv.length
      · obtain ⟨⟨pre, clock'⟩, hp⟩ := within_never conv frontier set
          (if k = 0 then first else all) clock ∅
        have hpre : pre ⊆ set := fun s hs =>
          (((mem_within hp s).mp hs).resolve_left (Finset.notMem_empty s)).1
        simp only [preWithin_eq hin, hp, fresh_eq]
        split
        · exact .inl ⟨⟨.closed, k + 1, seen⟩, rfl, .inr rfl⟩
        · next hfresh =>
          have hdown : (set \ (seen ∪ pre \ seen)).card < (set \ seen).card := by
            obtain ⟨s, hs⟩ := Finset.nonempty_iff_ne_empty.mpr hfresh
            obtain ⟨hs, hns⟩ := Finset.mem_sdiff.mp hs
            refine Finset.card_lt_card ((Finset.ssubset_iff_of_subset
              (Finset.sdiff_subset_sdiff subset_rfl Finset.subset_union_left)).mpr
              ⟨s, Finset.mem_sdiff.mpr ⟨hpre hs, hns⟩, fun h => ?_⟩)
            exact (Finset.mem_sdiff.mp h).2
              (Finset.mem_union_right _ (Finset.mem_sdiff.mpr ⟨hs, hns⟩))
          exact ih (k + 1) clock' (seen ∪ pre \ seen) (pre \ seen) (by omega)
      · rw [preWithin_past hin]
        exact .inr rfl

/-! ### Reads past the converses -/

/-- The first `n` converses are enough: they are all of them, or the search ends before it
needs more, at the start or with a first layer that they are enough for. -/
def Carried (E : DefaultSystem σ) (seed x set : Finset σ) (writing : List String) (n : Nat) :
    Prop :=
  n = E.events.length ∨ (∃ s ∈ seed, s ∈ x) ∨ (∀ i ∈ E.eventsWriting writing, i < n) ∧
    ((∃ s ∈ seed, ∃ t ∈ x, Listed E.events (E.eventsWriting writing) s t) ∨
      ∀ s ∈ set, ∀ t ∈ x ∩ set, Listed E.events (E.eventsWriting writing) s t → s ∈ x)

/-- Within the converses nothing is read past them. -/
theorem backwardLoop_defined {conv : List (σ → Finset σ)} {first all : List Nat}
    (hfirst : ∀ i ∈ first, i < conv.length) (hall : ∀ i ∈ all, i < conv.length) {steps : Nat} :
    ∀ {fuel k clock : Nat} {seen frontier : Finset σ},
      backwardLoop seed stopping conv first all set steps fuel k clock seen frontier
        ≠ .error .undefinedBehaviour := by
  intro fuel
  induction fuel with
  | zero => exact fun h => by cases h
  | succ fuel ih =>
    intro k clock seen frontier
    have hin : ∀ i ∈ (if k = 0 then first else all), i < conv.length := by
      split
      · exact hfirst
      · exact hall
    rw [backwardLoop]
    split
    · exact fun h => by cases h
    · split
      · exact fun h => by cases h
      · rw [preWithin_eq hin]
        rcases within conv stopping frontier set (if k = 0 then first else all) clock ∅ with
          _ | ⟨pre, clock'⟩
        · exact fun h => by cases h
        · simp only [fresh_eq]
          split
          · exact fun h => by cases h
          · exact ih

omit [DecidableEq σ] in
theorem all_lt {n : Nat} (hn : n ≤ E.events.length) :
    (∀ i ∈ E.eventsWriting [], i < n) ↔ n = E.events.length := by
  have hmem : ∀ i, i ∈ E.eventsWriting [] ↔ i < E.events.length := by
    simp [DefaultSystem.eventsWriting]
  simp only [hmem]
  constructor
  · intro h
    by_contra hne
    exact absurd (h n (by omega)) (lt_irrefl n)
  · rintro rfl
    exact fun _ h => h

/-- No search reads past the converses exactly when they carry it. -/
theorem carried_iff {conv : List (σ → Finset σ)} (hconv : Inverted inv set E.events conv)
    (hset : ∀ s, Reached seed E.events s → s ∈ set) :
    (∀ stopping fuel steps, backwardLoop seed stopping conv (E.eventsWriting writing)
        (E.eventsWriting []) set steps fuel 0 0 (x ∩ set) (x ∩ set) ≠ .error .undefinedBehaviour) ↔
      Carried E seed x set writing conv.length := by
  have hstart : (x ∩ set) ∩ seed ≠ ∅ ↔ ∃ s ∈ seed, s ∈ x := by
    rw [← Finset.nonempty_iff_ne_empty]
    constructor
    · rintro ⟨s, hs⟩
      simp only [Finset.mem_inter] at hs
      exact ⟨s, hs.2, hs.1.1⟩
    · rintro ⟨s, hs, hx⟩
      exact ⟨s, by simp [hs, hx, hset s (.start hs)]⟩
  have hlayer : ∀ {stopping pre clock'}, preWithin conv stopping (x ∩ set) set
      (E.eventsWriting writing) 0 = .ok (some (pre, clock')) → ∀ s, s ∈ pre ↔
        s ∈ set ∧ ∃ t ∈ x ∩ set, Listed E.events (E.eventsWriting writing) s t :=
    fun h s => mem_preWithin hconv h s
  constructor
  · intro hdef
    by_contra hnot
    simp only [Carried, not_or, not_and_or] at hnot
    obtain ⟨hshort, hseed, hmore⟩ := hnot
    have hall : ¬ ∀ i ∈ E.eventsWriting [], i < conv.length :=
      fun h => hshort ((all_lt hconv.1).mp h)
    by_cases hin : ∀ i ∈ E.eventsWriting writing, i < conv.length
    · obtain ⟨hnone, hnew⟩ := hmore.resolve_left (not_not.mpr hin)
      push Not at hnew
      obtain ⟨s, hs, t, ht, hl, hsx⟩ := hnew
      -- the second layer is one of all the events
      refine hdef (fun _ => false) 2 0 ?_
      obtain ⟨⟨pre, clock'⟩, hp⟩ := within_never conv (x ∩ set) set (E.eventsWriting writing) 0 ∅
      have hpre := hlayer ((preWithin_eq hin 0).trans (congrArg Except.ok hp))
      have hfresh : pre \ (x ∩ set) ≠ ∅ := Finset.ne_empty_of_mem
        (Finset.mem_sdiff.mpr ⟨(hpre s).mpr ⟨hs, t, ht, hl⟩,
          fun h => hsx (Finset.mem_inter.mp h).1⟩)
      have hagain : ¬ (pre \ (x ∩ set)) ∩ seed ≠ ∅ := by
        rw [not_not, ← Finset.not_nonempty_iff_eq_empty]
        rintro ⟨u, hu⟩
        obtain ⟨hu, huseed⟩ := Finset.mem_inter.mp hu
        obtain ⟨-, v, hv, hl⟩ := (hpre u).mp (Finset.mem_sdiff.mp hu).1
        exact hnone ⟨u, huseed, v, (Finset.mem_inter.mp hv).1, hl⟩
      rw [backwardLoop, if_neg (fun h => hseed (hstart.mp h)), if_neg (by simp), if_pos rfl,
        preWithin_eq hin, hp]
      simp only [fresh_eq, if_neg hfresh]
      rw [backwardLoop, if_neg hagain, if_neg (by simp), if_neg (by simp), preWithin_past hall]
    · refine hdef (fun _ => false) 1 0 ?_
      rw [backwardLoop, if_neg (fun h => hseed (hstart.mp h)), if_neg (by simp), if_pos rfl,
        preWithin_past hin]
  · intro hcarried stopping fuel steps
    rcases hcarried with hall | hinit | ⟨hin, hone⟩
    · have hall := (all_lt hconv.1).mpr hall
      refine backwardLoop_defined (fun i hi => hall i ?_) hall
      have hlt : i < E.events.length := List.mem_range.mp (List.mem_filter.mp hi).1
      simp [DefaultSystem.eventsWriting, hlt]
    · cases fuel with
      | zero => exact fun h => by cases h
      | succ fuel =>
        rw [backwardLoop, if_pos (hstart.mpr hinit)]
        exact fun h => by cases h
    · cases fuel with
      | zero => exact fun h => by cases h
      | succ fuel =>
        rw [backwardLoop]
        split
        · exact fun h => by cases h
        · next hno =>
          split
          · exact fun h => by cases h
          · rw [if_pos rfl]
            cases hp : preWithin conv stopping (x ∩ set) set (E.eventsWriting writing) 0 with
            | error e =>
              rw [preWithin_eq hin] at hp
              cases hp
            | ok r =>
              rcases r with _ | ⟨pre, clock'⟩
              · exact fun h => by cases h
              · simp only [fresh_eq]
                split
                · exact fun h => by cases h
                · next hfresh =>
                  rcases hone with ⟨s, hs, t, ht, hl⟩ | hnone
                  · have hsset : s ∈ set := hset s (.start hs)
                    have htset : t ∈ set := hset t ((Reached.start hs).step hl.fires)
                    have hmem : s ∈ pre \ (x ∩ set) := by
                      refine Finset.mem_sdiff.mpr ⟨(hlayer hp s).mpr
                        ⟨hsset, t, Finset.mem_inter.mpr ⟨ht, htset⟩, hl⟩, fun h => hno ?_⟩
                      exact hstart.mpr ⟨s, hs, (Finset.mem_inter.mp h).1⟩
                    cases fuel with
                    | zero => exact fun h => by cases h
                    | succ fuel =>
                      rw [backwardLoop, if_pos (Finset.ne_empty_of_mem
                        (Finset.mem_inter.mpr ⟨hmem, hs⟩))]
                      exact fun h => by cases h
                  · obtain ⟨u, hu⟩ := Finset.nonempty_iff_ne_empty.mpr hfresh
                    obtain ⟨hu, hnew⟩ := Finset.mem_sdiff.mp hu
                    obtain ⟨huset, t, ht, hl⟩ := (hlayer hp u).mp hu
                    exact absurd (Finset.mem_inter.mpr ⟨hnone u huset t ht hl, huset⟩) hnew

/-- What the printed word promises. -/
structure Right (E : DefaultSystem σ) (seed x : Finset σ) (r : Search σ) : Prop where
  init : r.how = .init → ∃ t ∈ x, Reached seed E.events t
  closed : r.how = .closed → ∀ t ∈ x, ¬ Reached seed E.events t

/-! ### The record -/

/-- Whatever leaf an event changes is among its recorded writes, when it has any. -/
def Recorded (E : DefaultSystem σ) (value : σ → String → Int) : Prop :=
  ∀ i e, E.events[i]? = some e → E.writesOf i = [] ∨
    ∀ s, ∀ t ∈ e s, ∀ leaf, value t leaf ≠ value s leaf → leaf ∈ (E.writesOf i).map Prod.fst

/-- Within the set, membership in the target depends on the listed leaves alone. -/
def DependsOn (value : σ → String → Int) (set x : Finset σ) (leaves : List String) : Prop :=
  ∀ s ∈ set, ∀ t ∈ set, (∀ leaf ∈ leaves, value s leaf = value t leaf) → (s ∈ x ↔ t ∈ x)

omit [DecidableEq σ] in
/-- A firing that enters the target changes a listed leaf, so its event is looked at. -/
theorem listed_of_recorded {value : σ → String → Int} (hrec : Recorded E value)
    (hdep : DependsOn value set x writing) {s t : σ} (hs : s ∈ set) (ht : t ∈ set)
    (hsx : s ∉ x) (htx : t ∈ x) (hst : Linear.Fires E.events s t) :
    Listed E.events (E.eventsWriting writing) s t := by
  obtain ⟨e, he, hte⟩ := hst
  obtain ⟨i, hi⟩ := List.mem_iff_getElem?.mp he
  have hlt : i < E.events.length := (List.getElem?_eq_some_iff.mp hi).1
  refine ⟨i, ?_, e, hi, hte⟩
  rw [DefaultSystem.eventsWriting, List.mem_filter]
  refine ⟨List.mem_range.mpr hlt, ?_⟩
  rcases hrec i e hi with hnone | hall
  · simp [hnone]
  · obtain ⟨leaf, hleaf, hne⟩ : ∃ leaf ∈ writing, value t leaf ≠ value s leaf := by
      by_contra hsame
      push Not at hsame
      exact hsx ((hdep t ht s hs hsame).mp htx)
    obtain ⟨w, hw, rfl⟩ := List.mem_map.mp (hall s t hte leaf hne)
    simp only [Bool.or_eq_true, List.any_eq_true]
    exact .inr ⟨w, hw, by simpa using hleaf⟩

omit [DecidableEq σ] in
/-- With a full record, a target that is reachable is entered by an event looked at. -/
theorem enters_of_recorded {value : σ → String → Int} (hset : ∀ s, Reached seed E.events s →
      s ∈ set)
    (hrec : Recorded E value) (hdep : DependsOn value set x writing) {t : σ} (htx : t ∈ x)
    (ht : Reached seed E.events t) : Enters E seed x writing := by
  by_contra hno
  have hstart : ∀ s ∈ seed, s ∉ x := fun s hs hx => hno ⟨s, hs, .inl hx⟩
  -- a run that has not entered the target is one that stays outside it
  have houtside : t ∉ x ∧ ∃ s ∈ seed, Relation.ReflTransGen (Avoids E x) s t := by
    refine ht.induction (P := fun u => u ∉ x ∧ ∃ s ∈ seed, Relation.ReflTransGen (Avoids E x) s u)
      (fun s hs => ⟨hstart s hs, s, hs, .refl⟩) ?_
    rintro u v hu ⟨hux, s, hs, hrun⟩ huv
    have hvx : v ∉ x := fun hvx => hno ⟨s, hs, .inr ⟨hstart s hs, u, hrun, v, hvx,
      listed_of_recorded hrec hdep (hset u hu) (hset v (hu.step huv)) hux hvx huv⟩⟩
    exact ⟨hvx, s, hs, hrun.tail ⟨huv, hvx⟩⟩
  exact houtside.1 htx

/-- What the target of an action names: the leaf, or a cell of the array. -/
def Targets (arrays : String → List String) (a : Datum) (leaf : String) : Prop :=
  ((a.item 1).isAtom = true ∧ (a.item 1).text = leaf) ∨
    ((a.item 1).isAtom = false ∧ (a.item 1).head = "at" ∧ leaf ∈ arrays ((a.item 1).item 1).text)

/-- A firing changes the targets of its actions and no other leaf. -/
def Obeys {σ : Type} (arrays : String → List String) (value : σ → String → Int)
    (body : List Datum) (term : σ → Finset σ) : Prop :=
  ∀ s, ∀ t ∈ term s, ∀ leaf, value t leaf ≠ value s leaf → ∃ a ∈ actions body, Targets arrays a leaf

/-- In a session whose declarations and backward forms come in any order, every search back
from the target is right, whatever the bound on its layers and wherever it is stopped, exactly
when the converses kept for the set carry it and a reachable target is met at the start or
first entered by an event the first layer looks at. A record that has every leaf an event
changes is enough for the latter. -/
theorem backward_right_iff (forms : List (BackSession.Form σ))
    (hset : ∀ s, Reached seed (BackSession.run inv forms).system.events s → s ∈ set)
    (hinv : ((BackSession.run inv forms).conversesAgainst inv set).isSome) (x : Finset σ)
    (writing : List String) :
    ((∀ stopping fuel steps, doBackward seed stopping fuel (BackSession.run inv forms) inv
          x set steps
          writing ≠ .error .undefinedBehaviour ∧
        ∀ r, doBackward seed stopping fuel (BackSession.run inv forms) inv x set steps writing
            = .ok r →
          Right (BackSession.run inv forms).system seed x r) ↔
      Carried (BackSession.run inv forms).system seed x set writing
          ((BackSession.run inv forms).inverted set) ∧
        ((∃ t ∈ x, Reached seed (BackSession.run inv forms).system.events t) →
          Enters (BackSession.run inv forms).system seed x writing)) ∧
    ∀ value, Recorded (BackSession.run inv forms).system value → DependsOn value set x writing →
      ((∃ t ∈ x, Reached seed (BackSession.run inv forms).system.events t) →
        Enters (BackSession.run inv forms).system seed x writing) := by
  obtain ⟨⟨conv, S'⟩, hagainst⟩ := Option.isSome_iff_exists.mp hinv
  obtain ⟨hconv, hcount, -⟩ := (BackSession.run_sound forms).against hagainst
  generalize (BackSession.run inv forms) = S at *
  rw [hcount, ← carried_iff hconv hset]
  have hrun : ∀ {stopping fuel steps}, doBackward seed stopping fuel S inv x set steps writing =
      backwardLoop seed stopping conv (S.system.eventsWriting writing) (S.system.eventsWriting [])
        set steps fuel 0 0 (x ∩ set) (x ∩ set) := by
    intro stopping fuel steps
    simp only [doBackward, hagainst]
  have hspec : ∀ {stopping fuel steps r},
      doBackward seed stopping fuel S inv x set steps writing = .ok r →
      (r.how = .init → Enters S.system seed x writing) ∧
        (r.how = .closed → ¬ Enters S.system seed x writing) := by
    intro stopping fuel steps r h
    rw [hrun] at h
    exact backwardLoop_spec hset hconv layers_start h
  have hreach : Enters S.system seed x writing → ∃ t ∈ x, Reached seed S.system.events t := by
    rintro ⟨s, hs, hx | hent⟩
    · exact ⟨s, hx, .start hs⟩
    · exact hent.reached (.start hs)
  refine ⟨⟨fun hright => ⟨fun stopping fuel steps => ?_, fun hx => ?_⟩,
    fun ⟨hdef, hcond⟩ stopping fuel steps => ⟨?_, fun r h => ?_⟩⟩, ?_⟩
  · exact hrun ▸ (hright stopping fuel steps).1
  · -- a search that is left to end decides, and may not say `closed`
    have hends := backwardLoop_ends seed set conv (S.system.eventsWriting writing)
      (S.system.eventsWriting []) _ 0 0 (x ∩ set) (x ∩ set) (Nat.lt_succ_self _)
    rw [← hrun] at hends
    obtain ⟨r, hr, hhow⟩ := hends.resolve_right (hright _ _ _).1
    rcases hhow with hhow | hhow
    · exact (hspec hr).1 hhow
    · obtain ⟨t, ht, hreached⟩ := hx
      exact absurd hreached (((hright _ _ _).2 r hr).closed hhow t ht)
  · rw [hrun]
    exact hdef stopping fuel steps
  · exact ⟨fun hi => hreach ((hspec h).1 hi), fun hc t ht hreached =>
      (hspec h).2 hc (hcond ⟨t, ht, hreached⟩)⟩
  · rintro value hrec hdep ⟨t, ht, hreached⟩
    exact enters_of_recorded hset hrec hdep ht hreached

end Backward

/-! ## A write through an array -/

/-- A converse by search over the potential. -/
def searchInverter (σ : Type) [DecidableEq σ] : Inverter σ := Ctl.potentialInverter σ

/-- `(do (:= (at tab 0) 1) (+= b 1))`, the array `tab` being `a` and `b`. -/
def cellBody : List Datum :=
  [.list [.atom "do" 1,
    .list [.atom ":=" 1, .list [.atom "at" 1, .atom "tab" 1, .atom "0" 1] 1, .atom "1" 1] 1,
    .list [.atom "+=" 1, .atom "b" 1, .atom "1" 1] 1] 1]

def cellArrays (name : String) : List String := if name = "tab" then ["a", "b"] else []

/-- The values of `a` and `b`. -/
def cellValue (s : Int × Int) (leaf : String) : Int :=
  if leaf = "a" then s.1 else if leaf = "b" then s.2 else 0

/-- The event of that body under the guard that `b` is 0. -/
def cellEvent (s : Int × Int) : Finset (Int × Int) := if s.2 = 0 then {(1, s.2 + 1)} else ∅

/-- The session after that declaration. -/
def cellSession : BackSession (Int × Int) :=
  .run (searchInverter _) [.declare (.event cellBody (.steps cellEvent))]

theorem cellSession_reached {s : Int × Int} (h : Reached {(0, 0)} cellSession.system.events s) :
    s = (0, 0) ∨ s = (1, 1) := by
  refine Reached.induction (P := fun s => s = (0, 0) ∨ s = (1, 1)) (by simp) ?_ h
  rintro s t - hs ⟨e, he, ht⟩
  obtain rfl := List.mem_singleton.mp he
  rcases hs with rfl | rfl <;> simp [cellEvent] at ht
  exact .inr ht

/-- The write to `a` goes through the array and is not recorded, the one to `b` is: the search
for `a = 1` closes in the initial state, one firing away from it. -/
theorem backward_closed_wrong :
    Obeys cellArrays cellValue cellBody cellEvent ∧
    (∀ s, Reached {(0, 0)} cellSession.system.events s → s ∈
      ({(0, 0), (1, 1)} : Finset (Int × Int))) ∧
    DependsOn cellValue {(0, 0), (1, 1)} {(1, 1)} ["a"] ∧
    (doBackward {(0, 0)} (fun _ => false) 3 cellSession (searchInverter _) {(1, 1)}
      {(0, 0), (1, 1)} 0 ["a"]).map Search.how = .ok .closed ∧
    Reached {(0, 0)} cellSession.system.events (1, 1) := by
  refine ⟨?_, ?_, ?_, ?_, ?_⟩
  · intro s t ht leaf hne
    have hleaf : leaf = "a" ∨ leaf = "b" := by
      by_contra h
      obtain ⟨ha, hb⟩ := not_or.mp h
      simp [cellValue, ha, hb] at hne
    rcases hleaf with rfl | rfl
    · exact ⟨_, List.mem_cons_self, .inr ⟨rfl, rfl, by decide +kernel⟩⟩
    · exact ⟨_, List.mem_cons_of_mem _ List.mem_cons_self, .inl ⟨rfl, rfl⟩⟩
  · intro s hs
    rcases cellSession_reached hs with rfl | rfl <;> decide
  · intro s hs t ht hsame
    have ha := hsame "a" List.mem_cons_self
    simp only [Finset.mem_insert, Finset.mem_singleton] at hs ht ⊢
    rcases hs with rfl | rfl <;> rcases ht with rfl | rfl <;> simp_all [cellValue]
  · decide +kernel
  · exact (Reached.start (Finset.mem_singleton_self _)).step
      ⟨cellEvent, List.mem_cons_self, by decide⟩

/-! ## A kept converse -/

/-- The event as a term at two leaves: the first is assigned, the second guarded and moved. -/
def cellTerm : Term (.pair .leaf .leaf) :=
  Term.node (IntTerm.prim .none (.assign 1)) (IntTerm.prim (.set [0]) (.shift 1))

noncomputable def cellInverter : Inverter (Int × Int) :=
  (Manager.standard 1 1).inverter (.pair .leaf .leaf) [cellTerm]

/-- The diagram of the two states. -/
def cellArcs : List (Arc IntSet IntSet) := [⟨[0], [0]⟩, ⟨[1], [1]⟩]

theorem cellInverter_run : ∃ p, cellInverter.run cellEvent {(0, 0), (1, 1)} = some p := by
  have hcanon : ∀ a ∈ cellArcs, IntSet.Canon a.prime ∧ IntSet.Canon a.sub := by decide
  have hmem : ∀ a b : Int, (∃ x ∈ cellArcs, a ∈ x.prime ∧ b ∈ x.sub) ↔
      (a, b) ∈ ({(0, 0), (1, 1)} : Finset (Int × Int)) := by
    simp [cellArcs]
  have hcell : ∀ a b c d : Int, (True ∧ c = 1) ∧ b ∈ [0] ∧ d = b + 1 ↔
      (c, d) ∈ cellEvent (a, b) := by
    intro a b c d
    unfold cellEvent
    split <;> simp_all
  have hden : den (.pair .leaf .leaf) (Manager.pairNode cellArcs) =
      {w | w ∈ ({(0, 0), (1, 1)} : Finset (Int × Int))} := by
    refine (canonize_correct ((Manager.standard 1 1).laws .leaf)
      ((Manager.standard 1 1).laws .leaf) hcanon).2.trans ?_
    ext ⟨a, b⟩
    exact (mem_nodeDen _ _).trans (hmem a b)
  have h1 : InInt32 1 := by decide
  refine ⟨_, Manager.invertEvent_of (t := cellTerm) ?_ ?_ ?_
    (Manager.pairNode_canon _ hcanon) hden rfl⟩
  · exact ⟨⟨trivial, h1⟩, show IntSet.Canon [0] by decide, h1⟩
  · exact ⟨trivial, trivial⟩
  · rintro ⟨a, b⟩ ⟨c, d⟩
    exact (Term.node_rel _ _).trans (hcell a b c d)

/-- `(do (:= a 0) (:= b 0))`, back to the initial state from the other one. -/
def resetBody : List Datum :=
  [.list [.atom "do" 1, .list [.atom ":=" 1, .atom "a" 1, .atom "0" 1] 1,
    .list [.atom ":=" 1, .atom "b" 1, .atom "0" 1] 1] 1]

def resetEvent (s : Int × Int) : Finset (Int × Int) := if s = (1, 1) then {(0, 0)} else ∅

/-- The second event is declared after the converses are kept, which have none for it. -/
def keptForms : List (BackSession.Form (Int × Int)) :=
  [.declare (.event cellBody (.steps cellEvent)), .stepsBack {(0, 0), (1, 1)},
    .declare (.event resetBody (.steps resetEvent))]

noncomputable def keptSession : BackSession (Int × Int) := .run cellInverter keptForms

theorem backward_right_iff_kept :
    ((∀ stopping fuel steps, doBackward {(0, 0)} stopping fuel keptSession cellInverter {(1, 1)}
          {(0, 0), (1, 1)} steps ["b"] ≠ .error .undefinedBehaviour ∧
        ∀ r, doBackward {(0, 0)} stopping fuel keptSession cellInverter {(1, 1)}
          {(0, 0), (1, 1)} steps ["b"] = .ok r → Right keptSession.system {(0, 0)} {(1, 1)} r) ↔
      Carried keptSession.system {(0, 0)} {(1, 1)} {(0, 0), (1, 1)} ["b"]
          (keptSession.inverted {(0, 0), (1, 1)}) ∧
        ((∃ t ∈ ({(1, 1)} : Finset (Int × Int)), Reached {(0, 0)} keptSession.system.events t) →
          Enters keptSession.system {(0, 0)} {(1, 1)} ["b"])) ∧
    ∀ value, Recorded keptSession.system value → DependsOn value {(0, 0), (1, 1)} {(1, 1)} ["b"] →
      ((∃ t ∈ ({(1, 1)} : Finset (Int × Int)), Reached {(0, 0)} keptSession.system.events t) →
        Enters keptSession.system {(0, 0)} {(1, 1)} ["b"]) := by
  obtain ⟨p, hp⟩ := cellInverter_run
  refine backward_right_iff keptForms (fun s hs => ?_) ?_ {(1, 1)} ["b"]
  · refine Reached.induction (P := fun s => s ∈ ({(0, 0), (1, 1)} : Finset (Int × Int)))
      (by simp) ?_ hs
    rintro s t - hs ⟨e, he, ht⟩
    have he : e = cellEvent ∨ e = resetEvent := by
      simpa [keptForms, BackSession.run, BackSession.step, BackSession.conversesAgainst,
        DefaultSystem.declare, invertAll, hp] using he
    simp only [Finset.mem_insert, Finset.mem_singleton] at hs ⊢
    rcases he with rfl | rfl <;> rcases hs with rfl | rfl <;>
      simp_all [cellEvent, resetEvent]
  · simp [keptForms, BackSession.run, BackSession.step, BackSession.conversesAgainst, invertAll,
      DefaultSystem.declare, hp]

end LibHSC.Surface
