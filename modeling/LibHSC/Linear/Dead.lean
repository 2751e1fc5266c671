import LibHSC.Library.Levels
import Mathlib.Data.Finset.Card
import Mathlib.Data.Finset.Filter
import Mathlib.Data.Fintype.Card
import Mathlib.Data.List.FinRange

/-!
Dead transitions from a set that contains the reachable states: an event is dead when its
guard selects nothing of the set, or when nothing of the set leads into the slice its guard
selects and the slice holds no initial state. As in the checker, a code stands for the
finite set of states it denotes, and an event for the successors it gives each state.

A verdict takes the event out of the live ones, and the next tests look at those alone. What
carries the argument is that the tests stay true with fewer events: `Tests.Sound` speaks of
the events still live, and a run is then kept out of all dead slices at once.
-/

namespace LibHSC.Linear

section Runs

variable {σ : Type}

/-- Some event leads from one state to the other. -/
def Fires (events : List (σ → Finset σ)) (s t : σ) : Prop := ∃ e ∈ events, t ∈ e s

/-- The states a run of the events leads to. -/
abbrev Reached (init : Finset σ) (events : List (σ → Finset σ)) : σ → Prop :=
  Levels.Reachable (· ∈ init) (Fires events)

variable {init : Finset σ} {events : List (σ → Finset σ)}

theorem Reached.start {s : σ} (h : s ∈ init) : Reached init events s := ⟨0, .start h⟩

theorem Reached.step {s t : σ} (h : Reached init events s) (hst : Fires events s t) :
    Reached init events t := by
  obtain ⟨n, hn⟩ := h
  exact ⟨n + 1, hn.step hst⟩

/-- What holds at the start and is kept by every firing from a reached state. -/
theorem Reached.induction {P : σ → Prop} (hstart : ∀ s ∈ init, P s)
    (hstep : ∀ s t, Reached init events s → P s → Fires events s t → P t) {s : σ}
    (h : Reached init events s) : P s := by
  obtain ⟨n, hn⟩ := h
  induction hn with
  | start h => exact hstart _ h
  | step h hst ih => exact hstep _ _ ⟨_, h⟩ ih hst

end Runs

inductive Verdict
  | untested
  | neverEnabled
  | oneStep
  | alive
deriving DecidableEq, Repr

structure DeadReport (n : Nat) where
  verdicts : Fin n → Verdict
  neverEnabled : Nat
  oneStep : Nat
  alive : Nat
  untested : Nat
  rounds : Nat
  candidates : Nat
  stopped : Bool

/-- The flags of the one-step test, and what it has decided. -/
structure Tests (n : Nat) where
  verdicts : Fin n → Verdict
  live : Fin n → Bool
  candidate : Fin n → Bool
  oneStep : Nat
  rounds : Nat

/-- How a pass over the candidates ends; the oracle hands its own state on. -/
inductive PassEnd (ω : Type)
  | done (changed : Bool) (o : ω)
  | interrupted

namespace Tests

variable {n : Nat}

/-- The event is dead: no entry leads into its slice. -/
def fall (t : Tests n) (i : Fin n) : Tests n where
  verdicts := Function.update t.verdicts i .oneStep
  live := Function.update t.live i false
  candidate := Function.update t.candidate i false
  oneStep := t.oneStep + 1
  rounds := t.rounds

/-- The candidates that are left. -/
def left (t : Tests n) : Finset (Fin n) := Finset.univ.filter fun i => t.candidate i = true

theorem mem_left {t : Tests n} {i : Fin n} : i ∈ t.left ↔ t.candidate i = true := by
  simp [left]

theorem left_fall (t : Tests n) (i : Fin n) : (t.fall i).left = t.left.erase i := by
  ext j
  by_cases h : j = i
  · subst h
    simp [mem_left, fall]
  · simp [mem_left, fall, h]

end Tests

section Source

variable {σ ω : Type} [DecidableEq σ] {n : Nat}

/-- The guard selector of an event, if it has one. -/
def guardOf (guards : List (Option (σ → Bool))) (i : Fin n) : Option (σ → Bool) :=
  guards[i.val]?.join

/-- The enabling markings of an event in a set: nothing for an event without a guard. -/
def enabling (guards : List (Option (σ → Bool))) (set : Finset σ) (i : Fin n) : Finset σ :=
  match guardOf guards i with
  | none => ∅
  | some g => set.filter fun s => g s = true

/-- Test 1: the guard selects nothing of the set. -/
def guardTest (guards : List (Option (σ → Bool))) (set : Finset σ) (i : Fin n) : Verdict :=
  match guardOf guards i with
  | none => .untested
  | some _ => if enabling guards set i = ∅ then .neverEnabled else .alive

/-- The events with that verdict. -/
def countVerdict (verdicts : Fin n → Verdict) (v : Verdict) : Nat :=
  (List.finRange n).countP fun i => verdicts i = v

/-- The flags test 2 starts from. An empty list of `exact` flags says that every guard is
the whole one. -/
def startTests (guards : List (Option (σ → Bool))) (exact : List Bool) (set init : Finset σ) :
    Tests n where
  verdicts := guardTest guards set
  live i := guardTest guards set i ≠ .neverEnabled
  candidate i := guardTest guards set i = .alive ∧ (exact = [] ∨ exact[i.val]? = some true) ∧
    enabling guards init i = ∅
  oneStep := 0
  rounds := 0

/-- The order of the visits: the caller's, else the smallest slices first. -/
def visitOrder (order : List (Fin n)) (en : Fin n → Finset σ) (t : Tests n) : List (Fin n) :=
  if order = [] then
    ((List.finRange n).filter fun i => t.candidate i).mergeSort fun a b => (en a).card ≤ (en b).card
  else order

/-- The entering predecessors of a slice under the live events; `none` is an interruption. -/
abbrev EntryFn (σ ω : Type) (n : Nat) :=
  ω → Fin n → Finset σ → (Fin n → Bool) → Option (Finset σ × ω)

/-- One pass of test 2 over the candidates. -/
def pass (entries : EntryFn σ ω n) (en : Fin n → Finset σ) :
    List (Fin n) → Bool → ω → Tests n → PassEnd ω × Tests n
  | [], changed, o, t => (.done changed o, t)
  | i :: visit, changed, o, t =>
    if t.candidate i then
      match entries o i (en i) t.live with
      | none => (.interrupted, t)
      | some (entry, o') =>
        if entry = ∅ then pass entries en visit true o' (t.fall i)
        else pass entries en visit changed o' t
    else pass entries en visit changed o t

/-- The passes repeat while an event falls; no result is a loop that is not done in the
rounds it is given. The flag says that the oracle was interrupted. -/
def passes (entries : EntryFn σ ω n) (en : Fin n → Finset σ) (visit : List (Fin n)) :
    Nat → ω → Tests n → Option (Tests n × Bool)
  | 0, _, _ => none
  | fuel + 1, o, t =>
    match pass entries en visit false o { t with rounds := t.rounds + 1 } with
    | (.interrupted, t') => some (t', true)
    | (.done false _, t') => some (t', false)
    | (.done true o', t') => passes entries en visit fuel o' t'

def deadTransitions (fuel : Nat) (set init : Finset σ) (guards : List (Option (σ → Bool)))
    (exact : List Bool) (entries : Option (EntryFn σ ω n)) (o : ω) (order : List (Fin n)) :
    Option (DeadReport n) := do
  let en := enabling guards set
  let start := startTests guards exact set init
  let (t, stopped) ← match entries with
    | some f =>
      if set = ∅ then some (start, false)
      else passes f en (visitOrder order en start) fuel o start
    | none => some (start, false)
  return {
    verdicts := t.verdicts
    neverEnabled := countVerdict start.verdicts .neverEnabled
    oneStep := t.oneStep
    alive := countVerdict t.verdicts .alive
    untested := countVerdict start.verdicts .untested
    rounds := t.rounds
    candidates := if entries.isSome ∧ set ≠ ∅ then start.left.card else 0
    stopped := stopped }

end Source

/-! ## What the tests show -/

/-- The set rules the event out. -/
def Verdict.dead (v : Verdict) : Prop := v = .neverEnabled ∨ v = .oneStep

instance (v : Verdict) : Decidable v.dead := inferInstanceAs (Decidable (_ ∨ _))

/-- The flags a later form reads of the report: what it left alive. -/
def DeadReport.live {n : Nat} (r : DeadReport n) : List Bool :=
  List.ofFn fun i => !decide (r.verdicts i).dead

section Sound

variable {σ ω : Type} [DecidableEq σ] (events : List (σ → Finset σ))
  (guards : List (Option (σ → Bool))) (set init : Finset σ)

/-- No live event leads from a state of the set outside the slice into it. -/
def NoEntry (slice : Finset σ) (live : Fin events.length → Bool) : Prop :=
  ∀ j, live j = true → ∀ s ∈ set, s ∉ slice → ∀ t ∈ events[j] s, t ∉ slice

/-- The contract of the oracle: nothing returned for a slice means that there is no entry. -/
def Honest (entries : EntryFn σ ω events.length) : Prop :=
  ∀ o i live o', entries o i (enabling guards set i) live = some (∅, o') →
    NoEntry events set (enabling guards set i) live

/-- The guard selector of an event selects every state that enables it. -/
def Implied : Prop :=
  ∀ (i : Fin events.length) g, guardOf guards i = some g → ∀ s, (events[i] s).Nonempty → g s = true

/-- What a test keeps: an event that is not dead is live, a dead one and a candidate start
outside their slice, and no live event leads into the slice of a dead one. -/
structure Tests.Sound (t : Tests events.length) : Prop where
  live : ∀ i, (t.verdicts i).dead ∨ t.live i = true
  guarded : ∀ i, (t.verdicts i).dead ∨ t.candidate i = true → (guardOf guards i).isSome
  starts : ∀ i, (t.verdicts i).dead ∨ t.candidate i = true → ∀ s ∈ init, s ∉ enabling guards set i
  closed : ∀ i, (t.verdicts i).dead → NoEntry events set (enabling guards set i) t.live

variable {events guards set init}

omit [DecidableEq σ] in
theorem NoEntry.fewer {slice : Finset σ} {live live' : Fin events.length → Bool}
    (h : NoEntry events set slice live) (hsub : ∀ j, live' j = true → live j = true) :
    NoEntry events set slice live' :=
  fun j hj => h j (hsub j hj)

omit [DecidableEq σ] in
theorem mem_enabling {X : Finset σ} {i : Fin events.length} {g : σ → Bool}
    (hg : guardOf guards i = some g) {s : σ} : s ∈ enabling guards X i ↔ s ∈ X ∧ g s = true := by
  simp [enabling, hg]

theorem guardTest_dead {i : Fin events.length} :
    (guardTest guards set i).dead ↔ (guardOf guards i).isSome ∧ enabling guards set i = ∅ := by
  unfold guardTest
  cases hg : guardOf guards i with
  | none => simp [Verdict.dead]
  | some g =>
    by_cases he : enabling guards set i = ∅
    · simp [Verdict.dead, he]
    · simp [Verdict.dead, he]

theorem startTests_sound (exact : List Bool) :
    (startTests guards exact set init).Sound events guards set init where
  live i := by
    by_cases h : guardTest guards set i = .neverEnabled
    · exact .inl (.inl h)
    · exact .inr (by simp [startTests, h])
  guarded i h := by
    rcases h with h | h
    · exact (guardTest_dead.mp h).1
    · have halive : guardTest guards set i = .alive := by
        simp only [startTests, decide_eq_true_eq] at h
        exact h.1
      unfold guardTest at halive
      cases hg : guardOf guards i with
      | none => simp [hg] at halive
      | some g => rfl
  starts i h s hs := by
    rcases h with h | h
    · simp [(guardTest_dead.mp h).2]
    · simp only [startTests, decide_eq_true_eq] at h
      intro hmem
      cases hg : guardOf guards i with
      | none => simp [enabling, hg] at hmem
      | some g =>
        have hin : s ∈ enabling guards init i :=
          (mem_enabling hg).mpr ⟨hs, ((mem_enabling hg).mp hmem).2⟩
        simp [h.2.2] at hin
  closed i h j _ s _ _ t _ := by simp [(guardTest_dead.mp h).2]

omit [DecidableEq σ] in
/-- The step lemma: an event falls when the oracle finds no entry into its slice. -/
theorem Tests.Sound.fall {t : Tests events.length} (ht : t.Sound events guards set init)
    {i : Fin events.length} (hi : t.candidate i = true)
    (hno : NoEntry events set (enabling guards set i) t.live) :
    (t.fall i).Sound events guards set init := by
  have hdead : ∀ j, ((t.fall i).verdicts j).dead → j = i ∨ (t.verdicts j).dead := by
    intro j hj
    by_cases h : j = i
    · exact .inl h
    · simp only [Tests.fall, Function.update_of_ne h] at hj
      exact .inr hj
  have hold : ∀ j, ((t.fall i).verdicts j).dead ∨ (t.fall i).candidate j = true →
      (t.verdicts j).dead ∨ t.candidate j = true := by
    intro j hj
    by_cases h : j = i
    · exact .inr (h ▸ hi)
    · simpa [Tests.fall, h] using hj
  have hless : ∀ j, (t.fall i).live j = true → t.live j = true := by
    intro j hj
    by_cases h : j = i
    · subst h
      simp [Tests.fall] at hj
    · simpa [Tests.fall, h] using hj
  refine ⟨fun j => ?_, fun j hj => ht.guarded j (hold j hj), fun j hj => ht.starts j (hold j hj),
    fun j hj => ?_⟩
  · by_cases h : j = i
    · subst h
      exact .inl (.inr (by simp [Tests.fall]))
    · simpa [Tests.fall, h] using ht.live j
  · rcases hdead j hj with rfl | hj
    · exact hno.fewer hless
    · exact (ht.closed j hj).fewer hless

omit [DecidableEq σ] in
/-- The run lemma: a run never enters the slice of a dead event. All dead events are taken
together, since one that fires would have to be enabled in its own slice. -/
theorem Tests.Sound.outside {t : Tests events.length} (ht : t.Sound events guards set init)
    (himp : Implied events guards) (hset : ∀ s, Reached init events s → s ∈ set) {s : σ}
    (hs : Reached init events s) :
    ∀ i, (t.verdicts i).dead → s ∉ enabling guards set i := by
  refine hs.induction (fun s hs i hi => ht.starts i (.inl hi) s hs) ?_
  intro s u hreach ih hfires i hi
  obtain ⟨e, he, hu⟩ := hfires
  obtain ⟨k, hk, rfl⟩ := List.mem_iff_getElem.mp he
  rcases ht.live ⟨k, hk⟩ with hdead | hlive
  · obtain ⟨g, hg⟩ := Option.isSome_iff_exists.mp (ht.guarded ⟨k, hk⟩ (.inl hdead))
    have hen : s ∈ enabling guards set (⟨k, hk⟩ : Fin events.length) :=
      (mem_enabling hg).mpr ⟨hset s hreach, himp ⟨k, hk⟩ g hg s ⟨u, hu⟩⟩
    exact absurd hen (ih ⟨k, hk⟩ hdead)
  · exact ht.closed i hi ⟨k, hk⟩ hlive s (hset s hreach) (ih i hi) u hu

/-- A dead event is enabled at no state of a run. -/
theorem Tests.Sound.never {t : Tests events.length} (ht : t.Sound events guards set init)
    (himp : Implied events guards) (hset : ∀ s, Reached init events s → s ∈ set)
    {i : Fin events.length} (hi : (t.verdicts i).dead) {s : σ} (hs : Reached init events s) :
    events[i] s = ∅ := by
  obtain ⟨g, hg⟩ := Option.isSome_iff_exists.mp (ht.guarded i (.inl hi))
  by_contra hne
  have hen := himp i g hg s (Finset.nonempty_iff_ne_empty.mpr hne)
  exact ht.outside himp hset hs i hi ((mem_enabling hg).mpr ⟨hset s hs, hen⟩)

/-! ## The passes -/

variable {entries : EntryFn σ ω events.length}

theorem pass_sound (hent : Honest events guards set entries) :
    ∀ {visit : List (Fin events.length)} {changed : Bool} {o : ω} {t t' : Tests events.length}
      {r : PassEnd ω}, t.Sound events guards set init →
      pass entries (enabling guards set) visit changed o t = (r, t') →
      t'.Sound events guards set init := by
  intro visit
  induction visit with
  | nil =>
    intro changed o t t' r ht h
    cases h
    exact ht
  | cons i visit ih =>
    intro changed o t t' r ht h
    rw [pass] at h
    split at h
    · next hc =>
      split at h
      · cases h
        exact ht
      · next entry o' hentry =>
        split at h
        · next he =>
          subst he
          exact ih (ht.fall hc (hent o i t.live o' hentry)) h
        · exact ih ht h
    · exact ih ht h

/-- A pass leaves no more candidates, and fewer when an event fell. -/
theorem pass_left {en : Fin events.length → Finset σ} :
    ∀ {visit : List (Fin events.length)} {changed : Bool} {o : ω} {t t' : Tests events.length}
      {r : PassEnd ω}, pass entries en visit changed o t = (r, t') →
      t'.left.card ≤ t.left.card ∧
        ∀ o', r = .done true o' → changed = true ∨ t'.left.card < t.left.card := by
  intro visit
  induction visit with
  | nil =>
    intro changed o t t' r h
    cases h
    simp
  | cons i visit ih =>
    intro changed o t t' r h
    rw [pass] at h
    split at h
    · next hc =>
      split at h
      · cases h
        simp
      · split at h
        · have hlt : (t.fall i).left.card < t.left.card := by
            rw [Tests.left_fall]
            exact Finset.card_erase_lt_of_mem (Tests.mem_left.mpr hc)
          have hle := (ih h).1
          exact ⟨by omega, fun _ _ => .inr (by omega)⟩
        · exact ih h
    · exact ih h

theorem passes_sound (hent : Honest events guards set entries) {visit : List (Fin events.length)} :
    ∀ {fuel : Nat} {o : ω} {t t' : Tests events.length} {stopped : Bool},
      t.Sound events guards set init →
      passes entries (enabling guards set) visit fuel o t = some (t', stopped) →
      t'.Sound events guards set init := by
  intro fuel
  induction fuel with
  | zero =>
    intro o t t' stopped _ h
    cases h
  | succ fuel ih =>
    intro o t t' stopped ht h
    have ht0 : Tests.Sound events guards set init { t with rounds := t.rounds + 1 } :=
      ⟨ht.live, ht.guarded, ht.starts, ht.closed⟩
    rw [passes] at h
    split at h
    · next hp =>
      cases h
      exact pass_sound hent ht0 hp
    · next hp =>
      cases h
      exact pass_sound hent ht0 hp
    · next hp => exact ih (pass_sound hent ht0 hp) h

/-- The passes end: each but the last takes a candidate away. -/
theorem passes_end {en : Fin events.length → Finset σ} {visit : List (Fin events.length)} :
    ∀ {k : Nat} {o : ω} {t : Tests events.length}, t.left.card ≤ k →
      ∃ r, ∀ fuel, k < fuel → passes entries en visit fuel o t = some r := by
  intro k
  induction k using Nat.strong_induction_on with
  | _ k ih =>
    intro o t hk
    rcases hp : pass entries en visit false o { t with rounds := t.rounds + 1 } with ⟨r, t'⟩
    have hfuel : ∀ fuel, k < fuel → ∃ fuel', fuel = fuel' + 1 ∧ k ≤ fuel' := by
      intro fuel hlt
      exact ⟨fuel - 1, by omega, by omega⟩
    match r, hp with
    | .interrupted, hp =>
      refine ⟨(t', true), fun fuel hlt => ?_⟩
      obtain ⟨fuel', rfl, -⟩ := hfuel fuel hlt
      rw [passes, hp]
    | .done false o', hp =>
      refine ⟨(t', false), fun fuel hlt => ?_⟩
      obtain ⟨fuel', rfl, -⟩ := hfuel fuel hlt
      rw [passes, hp]
    | .done true o', hp =>
      have hdown : t'.left.card < t.left.card :=
        ((pass_left hp).2 o' rfl).resolve_left Bool.false_ne_true
      obtain ⟨r, hr⟩ := ih t'.left.card (by omega) le_rfl
      refine ⟨r, fun fuel hlt => ?_⟩
      obtain ⟨fuel', rfl, hle⟩ := hfuel fuel hlt
      rw [passes, hp]
      exact hr fuel' (by omega)

/-- The loop ends within one round more than there are events, however the oracle answers
and wherever it is interrupted. When its contract holds, no event reported dead is enabled at
a reachable state. -/
theorem deadTransitions_sound (himp : Implied events guards)
    (hset : ∀ s, Reached init events s → s ∈ set) (exact : List Bool)
    (entries : Option (EntryFn σ ω events.length))
    (hent : ∀ f ∈ entries, Honest events guards set f) (o : ω)
    (order : List (Fin events.length)) :
    ∃ r, (∀ fuel, events.length < fuel →
        deadTransitions fuel set init guards exact entries o order = some r) ∧
      ∀ i, r.verdicts i = .neverEnabled ∨ r.verdicts i = .oneStep →
        ∀ s, Reached init events s → events[i] s = ∅ := by
  have hstart : (startTests guards exact set init).Sound events guards set init :=
    startTests_sound exact
  have hbound : (startTests (n := events.length) guards exact set init).left.card
      ≤ events.length := (Finset.card_le_univ _).trans_eq (Fintype.card_fin _)
  have hdead : ∀ {t : Tests events.length}, t.Sound events guards set init →
      ∀ i, t.verdicts i = .neverEnabled ∨ t.verdicts i = .oneStep →
        ∀ s, Reached init events s → events[i] s = ∅ :=
    fun ht i hi s hs => ht.never himp hset hi hs
  unfold deadTransitions
  cases entries with
  | none => exact ⟨_, fun fuel _ => rfl, hdead hstart⟩
  | some f =>
    by_cases hnone : set = ∅
    · simp only [if_pos hnone]
      exact ⟨_, fun fuel _ => rfl, hdead hstart⟩
    · simp only [if_neg hnone]
      obtain ⟨⟨t, stopped⟩, hr⟩ : ∃ r, ∀ fuel, events.length < fuel → passes f (enabling guards set)
            (visitOrder order (enabling guards set) (startTests guards exact set init)) fuel o
            (startTests guards exact set init) = some r := passes_end hbound
      have ht := passes_sound (hent f rfl) hstart (hr _ (Nat.lt_succ_self _))
      exact ⟨_, fun fuel hlt => by simp only [hr fuel hlt]; rfl, hdead ht⟩

/-- The oracle of one backward step: the states of the set outside the slice from which a
live event leads into it. -/
def entering (events : List (σ → Finset σ)) (set : Finset σ) : EntryFn σ Unit events.length :=
  fun _ _ en live => some (set.filter fun s => s ∉ en ∧
    ∃ j : Fin events.length, live j = true ∧ events[j] s ∩ en ≠ ∅, ())

theorem entering_honest : Honest events guards set (entering events set) := by
  intro o i live o' h j hj s hs hout t ht hin
  have hnone : (set.filter fun s => s ∉ enabling guards set i ∧ ∃ j : Fin events.length,
      live j = true ∧ events[j] s ∩ enabling guards set i ≠ ∅) = ∅ := by
    simpa [entering] using h
  refine Finset.eq_empty_iff_forall_notMem.mp hnone s ?_
  exact Finset.mem_filter.mpr ⟨hs, hout, j, hj,
    Finset.ne_empty_of_mem (Finset.mem_inter.mpr ⟨ht, hin⟩)⟩

end Sound

/-! ## A system with an event that only an unreachable state enables -/

def twoEvents : List (Nat → Finset Nat) :=
  [fun s => if s = 0 then {1} else ∅, fun s => if s = 5 then {0} else ∅]

def twoGuards : List (Option (Nat → Bool)) := [some (· == 0), some (· == 5)]

theorem twoEvents_reached {s : Nat} (hs : Reached {0} twoEvents s) : s = 0 ∨ s = 1 := by
  refine Reached.induction (P := fun s => s = 0 ∨ s = 1) (by simp) ?_ hs
  rintro s t - hs ⟨e, he, ht⟩
  rcases hs with rfl | rfl <;> simp [twoEvents] at he <;>
    rcases he with rfl | rfl <;> simp_all

theorem twoEvents_sound :
    ∃ r, (∀ fuel, 2 < fuel → deadTransitions fuel {0, 1, 5} {0} twoGuards []
        (some (entering twoEvents {0, 1, 5})) () (List.finRange _) = some r) ∧
      ∀ i, r.verdicts i = .neverEnabled ∨ r.verdicts i = .oneStep →
        ∀ s, Reached {0} twoEvents s → twoEvents[i] s = ∅ := by
  refine deadTransitions_sound ?_ ?_ [] _ ?_ () _
  · intro i g hg s ⟨t, ht⟩
    match i with
    | ⟨0, _⟩ =>
      cases hg
      change t ∈ (if s = 0 then {1} else ∅ : Finset Nat) at ht
      split at ht <;> simp_all
    | ⟨1, _⟩ =>
      cases hg
      change t ∈ (if s = 5 then {0} else ∅ : Finset Nat) at ht
      split at ht <;> simp_all
  · intro s hs
    rcases twoEvents_reached hs with rfl | rfl <;> decide
  · intro f hf
    cases hf
    exact entering_honest

example : (deadTransitions 3 {0, 1, 5} {0} twoGuards [] (some (entering twoEvents {0, 1, 5})) ()
    (List.finRange _)).map (fun r => (List.finRange _).map r.verdicts) =
      some [.alive, .oneStep] := by
  decide

end LibHSC.Linear
