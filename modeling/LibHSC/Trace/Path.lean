import LibHSC.Ctl.Checker
import LibHSC.Node
import LibHSC.Library.Levels

/-!
A shortest run between two sets: forward layers until a target is reached, then a
backtrack one state at a time through the converses, or by splitting a layer where an event
has none. As in the checker, a code stands for the finite set of states it denotes and a
term for the set of successors it gives each state; the code of the empty set is also the
one that says that there is no enclosing set, and no set to go through.
-/

namespace LibHSC.Trace

open Ctl (image successors)

/-- What stops a search: its deadline, and an unchecked access of the source. -/
inductive Halt
  | stopped
  | undefinedBehaviour
deriving DecidableEq, Repr

/-- The arcs of a diagram, each the set of its words. The terminal has one word and no arc,
every other diagram is parted into inhabited arcs. -/
structure Arcs (σ : Type) where
  arcs : Finset σ → List (Finset σ)
  cover : ∀ s : Finset σ, 1 < s.card → ∀ x, x ∈ s ↔ ∃ a ∈ arcs s, x ∈ a
  inhabited : ∀ s, ∀ a ∈ arcs s, a.Nonempty
  disjoint : ∀ s, (arcs s).Pairwise Disjoint

/-- What a search runs over. -/
structure Graph (σ : Type) where
  node : Arcs σ
  events : List (σ → Finset σ)
  preds : List (σ → Finset σ)
  within : Finset σ
  oneState : Finset σ → σ
  oneState_mem : ∀ s : Finset σ, s.Nonempty → oneState s ∈ s

structure PathResult (σ : Type) where
  states : List σ
  events : List Nat

namespace Graph

variable {σ : Type} [DecidableEq σ] (g : Graph σ)

/-- The event leads from a state of the set to the target. -/
def hits (event : σ → Finset σ) (target : σ) (s : Finset σ) : Bool :=
  decide (image [event] s ∩ {target} ≠ ∅)

/-- The union of some arcs, canonized. -/
def unionOf (arcs : List (Finset σ)) : Finset σ := arcs.foldr (· ∪ ·) ∅

/-- A state of the layer from which the event leads to the target: the layer is split until
its first state is one. No more rounds are taken than there are states. -/
def sourceBySplitting (event : σ → Finset σ) (target : σ) : Nat → Finset σ → Except Halt (Option σ)
  | 0, _ => .error .stopped
  | fuel + 1, cur =>
    let one := g.oneState cur
    if {one} = cur ∨ hits event target {one} then .ok (some one)
    else
      match g.node.arcs cur with
      | [] => .error .undefinedBehaviour
      | [x] =>
        let headOne := g.oneState x
        if hits event target {headOne} then .ok (some headOne)
        else if cur \ {headOne} = ∅ then .ok none
        else sourceBySplitting event target fuel (cur \ {headOne})
      | arcs =>
        let mid := arcs.length / 2
        let a := unionOf (arcs.take mid)
        sourceBySplitting event target fuel
          (if hits event target a then a else unionOf (arcs.drop mid))

variable (constraint : σ → Bool) (through : Finset σ)

/-- The states of a layer that a run may go on from. -/
def passing (layer : Finset σ) : Finset σ := if through = ∅ then layer else layer ∩ through

def inside (s : Finset σ) : Finset σ := if g.within = ∅ then s else s ∩ g.within

/-- The forward layers, the newest first, until one of them meets the target. -/
def forward (target : Finset σ) : Nat → Finset σ → List (Finset σ) → Finset σ →
    Except Halt (Option (Finset σ × List (Finset σ)))
  | fuel, last, older, seen =>
    if last ∩ target ≠ ∅ then .ok (some (last, older))
    else if g.events.isEmpty then .ok none
    else
      let base := passing through last
      if base = ∅ then .ok none
      else
        let img := g.inside (image g.events (base.filter (constraint ·)))
        let fresh := img \ seen
        if fresh = ∅ then .ok none
        else
          match fuel with
          | 0 => .error .stopped
          | fuel + 1 => forward target fuel fresh (last :: older) (seen ∪ fresh)

/-- A state before `cur` by event `j`: through its converse, or by splitting. -/
def source (event : σ → Finset σ) (cur : σ) (prev : Finset σ) :
    Option (σ → Finset σ) → Except Halt (Option σ)
  | some pred =>
    let src := (pred cur ∩ prev).filter (constraint ·)
    if src = ∅ then .ok none else .ok (some (g.oneState src))
  | none =>
    let lim := prev.filter (constraint ·)
    if lim ≠ ∅ ∧ hits event cur lim then g.sourceBySplitting event cur lim.card lim
    else .ok none

/-- The first event that leads to `cur` from the layer before, and a state it leads from. -/
def predecessor (cur : σ) (prev : Finset σ) :
    Nat → List (σ → Finset σ) → Except Halt (Option (Nat × σ))
  | _, [] => .ok none
  | j, event :: events => do
      match ← g.source constraint event cur prev g.preds[j]? with
      | some src => return some (j, src)
      | none => predecessor cur prev (j + 1) events

/-- The run is completed from its end, one state for each layer before. -/
def backtrack : List (Finset σ) → σ → PathResult σ → Except Halt (Option (PathResult σ))
  | [], _, out => .ok (some out)
  | layer :: layers, cur, out =>
    let prev := passing through layer
    if prev = ∅ then .ok none
    else do
      match ← g.predecessor constraint cur prev 0 g.events with
      | some (j, src) => backtrack layers src ⟨src :: out.states, j :: out.events⟩
      | none => return none

/-- A shortest run from a state of `start` to a state of `target`. -/
def path (rounds : Nat) (start target : Finset σ) : Except Halt (Option (PathResult σ)) :=
  if start = ∅ ∨ target = ∅ then .ok none
  else if g.inside start = ∅ then .ok none
  else do
    match ← g.forward constraint through target rounds (g.inside start) [] (g.inside start) with
    | none => return none
    | some (last, layers) =>
      let cur := g.oneState (last ∩ target)
      g.backtrack constraint through layers cur ⟨[cur], []⟩

/-! ## Splitting a layer -/

section Splitting

variable {g} {event : σ → Finset σ} {target : σ}

theorem hits_iff {s : Finset σ} : hits event target s = true ↔ ∃ x ∈ s, target ∈ event x := by
  have himage : target ∈ image [event] s ↔ ∃ x ∈ s, target ∈ event x := by
    simp [image, successors]
  rw [hits, decide_eq_true_iff, ← himage, ne_eq, ← Finset.disjoint_iff_inter_eq_empty,
    Finset.disjoint_singleton_right, not_not]

theorem mem_unionOf {arcs : List (Finset σ)} {x : σ} :
    x ∈ unionOf arcs ↔ ∃ a ∈ arcs, x ∈ a := by
  induction arcs with
  | nil => simp [unionOf]
  | cons a arcs ih =>
    rw [unionOf, List.foldr_cons, Finset.mem_union, List.exists_mem_cons_iff, ← ih]
    rfl

/-- Some of the arcs of a layer, and some others: both are smaller than the layer. -/
theorem unionOf_card {N : Arcs σ} {s : Finset σ} (hs : 1 < s.card) {l r : List (Finset σ)}
    (hlr : N.arcs s = l ++ r) (hl : l ≠ []) (hr : r ≠ []) :
    (unionOf l).card < s.card ∧ (unionOf r).card < s.card := by
  have hcover : s = unionOf l ∪ unionOf r := by
    ext x
    rw [N.cover s hs x, hlr, Finset.mem_union, mem_unionOf, mem_unionOf]
    simp only [List.mem_append, or_and_right, exists_or]
  have hinh := N.inhabited s
  have hdis := N.disjoint s
  rw [hlr] at hinh hdis
  have hd : Disjoint (unionOf l) (unionOf r) := by
    rw [Finset.disjoint_left]
    intro x hx hx'
    obtain ⟨a, ha, hxa⟩ := mem_unionOf.mp hx
    obtain ⟨b, hb, hxb⟩ := mem_unionOf.mp hx'
    exact Finset.disjoint_left.mp ((List.pairwise_append.mp hdis).2.2 a ha b hb) hxa hxb
  have hpos : ∀ {k : List (Finset σ)}, k ≠ [] → (∀ a ∈ k, a.Nonempty) → 0 < (unionOf k).card := by
    intro k hk hall
    obtain ⟨a, ha⟩ := List.exists_mem_of_ne_nil k hk
    obtain ⟨x, hx⟩ := hall a ha
    exact Finset.card_pos.mpr ⟨x, mem_unionOf.mpr ⟨a, ha, hx⟩⟩
  have h1 := hpos hl fun a ha => hinh a (List.mem_append_left _ ha)
  have h2 := hpos hr fun a ha => hinh a (List.mem_append_right _ ha)
  have hcard : s.card = (unionOf l).card + (unionOf r).card := by
    conv_lhs => rw [hcover]
    exact Finset.card_union_of_disjoint hd
  omega

/-- A layer that hits the target is split down to a state that does. -/
theorem sourceBySplitting_spec : ∀ {fuel : Nat} {cur : Finset σ}, cur.card ≤ fuel →
    hits event target cur = true →
    ∃ src, g.sourceBySplitting event target fuel cur = .ok (some src) ∧ src ∈ cur ∧
      target ∈ event src := by
  intro fuel
  induction fuel with
  | zero =>
    intro cur hcard hhit
    obtain ⟨x, hx, -⟩ := hits_iff.mp hhit
    exact absurd (Finset.card_pos.mpr ⟨x, hx⟩) (by omega)
  | succ fuel ih =>
    intro cur hcard hhit
    obtain ⟨x, hx, hxt⟩ := hits_iff.mp hhit
    have hone := g.oneState_mem cur ⟨x, hx⟩
    have hstep : ∀ {next : Finset σ}, next ⊆ cur → next.card < cur.card →
        hits event target next = true →
        ∃ src, g.sourceBySplitting event target fuel next = .ok (some src) ∧ src ∈ cur ∧
          target ∈ event src := by
      intro next hsub hlt hnext
      obtain ⟨src, h1, h2, h3⟩ := ih (by omega) hnext
      exact ⟨src, h1, hsub h2, h3⟩
    unfold sourceBySplitting
    dsimp only
    by_cases hstop : {g.oneState cur} = cur ∨ hits event target {g.oneState cur} = true
    · rw [if_pos hstop]
      refine ⟨g.oneState cur, rfl, hone, ?_⟩
      rcases hstop with hsingle | hhits
      · rw [← hsingle, Finset.mem_singleton] at hx
        rwa [← hx]
      · obtain ⟨y, hy, hyt⟩ := hits_iff.mp hhits
        rwa [← Finset.mem_singleton.mp hy]
    · rw [if_neg hstop]
      obtain ⟨hsingle, hmiss⟩ := not_or.mp hstop
      have hbig : 1 < cur.card := by
        by_contra hle
        obtain ⟨y, hy⟩ := Finset.card_eq_one.mp
          (Nat.le_antisymm (by omega) (Finset.card_pos.mpr ⟨x, hx⟩))
        have hey : g.oneState cur = y := by
          rw [hy] at hone ⊢
          exact Finset.mem_singleton.mp hone
        exact hsingle (by rw [hey, hy])
      have hcover := g.node.cover cur hbig
      split
      · next harcs =>
        obtain ⟨a, ha, -⟩ := (hcover x).mp hx
        rw [harcs] at ha
        cases ha
      · next a harcs =>
        have ha : a = cur := by
          ext y
          rw [hcover y, harcs]
          simp
        rw [ha, if_neg hmiss]
        have hxne : x ≠ g.oneState cur := by
          rintro rfl
          exact hmiss (hits_iff.mpr ⟨_, Finset.mem_singleton_self _, hxt⟩)
        have hmem : x ∈ cur \ {g.oneState cur} := by
          rw [Finset.mem_sdiff, Finset.mem_singleton]
          exact ⟨hx, hxne⟩
        rw [if_neg (Finset.ne_empty_of_mem hmem)]
        refine hstep Finset.sdiff_subset ?_ (hits_iff.mpr ⟨x, hmem, hxt⟩)
        refine Finset.card_lt_card ⟨Finset.sdiff_subset, fun hsub => ?_⟩
        exact (Finset.mem_sdiff.mp (hsub hone)).2 (Finset.mem_singleton_self _)
      · next hne1 hne2 =>
        -- two arcs or more: each half has one
        have hlen : 2 ≤ (g.node.arcs cur).length := by
          match hl : g.node.arcs cur, hne1, hne2 with
          | [], h, _ => exact absurd rfl h
          | [a], _, h => exact absurd rfl (h a)
          | a :: b :: l, _, _ => simp
        have hmid : (g.node.arcs cur).length / 2 < (g.node.arcs cur).length := by omega
        obtain ⟨h1, h2⟩ := unionOf_card hbig
          (List.take_append_drop ((g.node.arcs cur).length / 2) (g.node.arcs cur)).symm
          (fun h => by
            have hl := congrArg List.length h
            rw [List.length_take, List.length_nil] at hl
            omega)
          (fun h => by
            have hl := congrArg List.length h
            rw [List.length_drop, List.length_nil] at hl
            omega)
        have hsub : ∀ {l : List (Finset σ)}, (∀ a ∈ l, a ∈ g.node.arcs cur) → unionOf l ⊆ cur := by
          intro l hl y hy
          obtain ⟨a, ha, hya⟩ := mem_unionOf.mp hy
          exact (hcover y).mpr ⟨a, hl a ha, hya⟩
        split
        · next hhalf => exact hstep (hsub fun a ha => List.mem_of_mem_take ha) h1 hhalf
        · next hhalf =>
          refine hstep (hsub fun a ha => List.mem_of_mem_drop ha) h2 ?_
          obtain ⟨a, ha, hxa⟩ := (hcover x).mp hx
          rw [← List.take_append_drop ((g.node.arcs cur).length / 2) (g.node.arcs cur)] at ha
          rcases List.mem_append.mp ha with ha | ha
          · exact absurd (hits_iff.mpr ⟨x, mem_unionOf.mpr ⟨a, ha, hxa⟩, hxt⟩) hhalf
          · exact hits_iff.mpr ⟨x, mem_unionOf.mpr ⟨a, ha, hxa⟩, hxt⟩

end Splitting

end Graph

/-! ## Runs -/

namespace Graph

section Runs

variable {σ : Type} (g : Graph σ) (constraint : σ → Bool) (through start target : Finset σ)

/-- The state lies in the enclosing set, if there is one. -/
def In (s : σ) : Prop := g.within = ∅ ∨ s ∈ g.within

/-- A run may go on from the state. -/
def Passes (s : σ) : Prop := constraint s = true ∧ (through = ∅ ∨ s ∈ through)

/-- The event of that name leads from one state to the other. -/
def StepBy (j : Nat) (s t : σ) : Prop := ∃ e, g.events[j]? = some e ∧ t ∈ e s

/-- A run: its states, and the names of the events between them. -/
inductive Walk : List σ → List Nat → Prop
  | stop {s : σ} (hin : g.In s) : Walk [s] []
  | go {s t : σ} {ss : List σ} {j : Nat} {js : List Nat} (hin : g.In s)
      (hpass : Passes constraint through s) (hstep : g.StepBy j s t) (hrest : Walk (t :: ss) js) :
      Walk (s :: t :: ss) (j :: js)

structure IsRun (p : PathResult σ) : Prop where
  walk : g.Walk constraint through p.states p.events
  starts : ∃ s ∈ start, p.states.head? = some s
  ends : ∃ t ∈ target, p.states.getLast? = some t

/-- The converses in the list are exact inside the enclosing set. -/
def Exact : Prop :=
  ∀ (j : Nat) (p e : σ → Finset σ), g.preds[j]? = some p → g.events[j]? = some e →
    ∀ s t, g.In s → g.In t → (s ∈ p t ↔ t ∈ e s)

def Init (s : σ) : Prop := s ∈ start ∧ g.In s

def Next (s t : σ) : Prop := Passes constraint through s ∧ g.In t ∧ ∃ j, g.StepBy j s t

/-- Reached in so many steps of a run. -/
abbrev ReachedIn : Nat → σ → Prop := Levels.ReachIn (g.Init start) (g.Next constraint through)

/-- A state of the layer of that number. -/
abbrev Layer : Nat → σ → Prop := Levels.AtDistance (g.Init start) (g.Next constraint through)

variable {g constraint through start target}

theorem reachedIn_in {n : Nat} {s : σ} (h : g.ReachedIn constraint through start n s) :
    g.In s := by
  cases h with
  | start h => exact h.2
  | step _ h => exact h.2.1

theorem Walk.head_in {ss : List σ} {js : List Nat} (h : g.Walk constraint through ss js) {s : σ}
    (hs : ss.head? = some s) : g.In s := by
  cases h with
  | stop hin =>
    cases hs
    exact hin
  | go hin _ _ _ =>
    cases hs
    exact hin

theorem Walk.reachedIn {ss : List σ} {js : List Nat} (h : g.Walk constraint through ss js) :
    ∀ {m : Nat} {s t : σ}, ss.head? = some s → ss.getLast? = some t →
      g.ReachedIn constraint through start m s →
      g.ReachedIn constraint through start (m + js.length) t := by
  induction h with
  | stop hin =>
    intro m s t hs ht hm
    cases hs
    cases ht
    exact hm
  | @go s t ss j js hin hpass hstep hrest ih =>
    intro m s' u hs hu hm
    cases hs
    have hnext := ih rfl hu (hm.step ⟨hpass, hrest.head_in rfl, j, hstep⟩)
    rwa [List.length_cons, Nat.add_comm js.length, ← Nat.add_assoc]

/-- A run reaches the target in as many steps as it has events. -/
theorem IsRun.reachedIn {p : PathResult σ} (h : g.IsRun constraint through start target p) :
    ∃ t ∈ target, g.ReachedIn constraint through start p.events.length t := by
  obtain ⟨s, hs, hhead⟩ := h.starts
  obtain ⟨t, ht, hlast⟩ := h.ends
  have hreach := h.walk.reachedIn hhead hlast (.start (show g.Init start s from
    ⟨hs, h.walk.head_in hhead⟩))
  rw [Nat.zero_add] at hreach
  exact ⟨t, ht, hreach⟩

/-- Runs are the same without converses. -/
theorem Walk.without {ss : List σ} {js : List Nat} (g' : Graph σ) (hevents : g'.events = g.events)
    (hwithin : g'.within = g.within) (h : g.Walk constraint through ss js) :
    g'.Walk constraint through ss js := by
  have hin : ∀ s, g.In s → g'.In s := by
    intro s hs
    rwa [In, hwithin]
  induction h with
  | stop h => exact .stop (hin _ h)
  | go h hpass hstep _ ih =>
    refine .go (hin _ h) hpass ?_ ih
    obtain ⟨e, he, ht⟩ := hstep
    exact ⟨e, by rw [hevents, he], ht⟩

theorem IsRun.without (g' : Graph σ) (hevents : g'.events = g.events)
    (hwithin : g'.within = g.within) {p : PathResult σ}
    (h : g.IsRun constraint through start target p) : g'.IsRun constraint through start target p :=
  ⟨h.walk.without g' hevents hwithin, h.starts, h.ends⟩

/-- The graph without its converses. -/
def forwardOnly (g : Graph σ) : Graph σ := { g with preds := [] }

theorem forwardOnly_exact : g.forwardOnly.Exact := by
  intro j p e hp
  cases hp

end Runs

/-! ## The layers -/

section Layers

variable {σ : Type} [DecidableEq σ] (g : Graph σ) (constraint : σ → Bool)
  (through start target : Finset σ)

/-- The layers found so far, the newest first: all states at the distance of each. -/
def Layers : List (Finset σ) → Prop
  | [] => True
  | layer :: older =>
    (∀ s, s ∈ layer ↔ g.Layer constraint through start older.length s) ∧ Layers older

/-- The forward search under way: no target in the layers before the last. -/
structure Searching (last : Finset σ) (older : List (Finset σ)) (seen : Finset σ) : Prop where
  layers : g.Layers constraint through start (last :: older)
  seen : ∀ s, s ∈ seen ↔ ∃ m ≤ older.length, g.ReachedIn constraint through start m s
  missed : ∀ m < older.length, ∀ s, g.ReachedIn constraint through start m s → s ∉ target

variable {g constraint through start target}

theorem mem_inside {s : Finset σ} {x : σ} : x ∈ g.inside s ↔ x ∈ s ∧ g.In x := by
  unfold inside In
  split
  · next h => simp [h]
  · next h => simp [h]

theorem mem_passing {layer : Finset σ} {x : σ} :
    x ∈ passing through layer ↔ x ∈ layer ∧ (through = ∅ ∨ x ∈ through) := by
  unfold passing
  split
  · next h => simp [h]
  · next h => simp [h]

theorem mem_step {layer : Finset σ} {t : σ} :
    t ∈ g.inside (image g.events ((passing through layer).filter (constraint ·))) ↔
      ∃ s ∈ layer, g.Next constraint through s t := by
  have hsucc : ∀ s, t ∈ successors g.events s ↔ ∃ j, g.StepBy j s t := by
    intro s
    have : t ∈ successors g.events s ↔ ∃ e ∈ g.events, t ∈ e s := by
      induction g.events with
      | nil => simp [successors]
      | cons e es ih => simp_all [successors]
    rw [this]
    constructor
    · rintro ⟨e, he, ht⟩
      obtain ⟨j, hj⟩ := List.mem_iff_getElem?.mp he
      exact ⟨j, e, hj, ht⟩
    · rintro ⟨j, e, hj, ht⟩
      exact ⟨e, List.mem_of_getElem? hj, ht⟩
  rw [mem_inside]
  simp only [image, Finset.mem_biUnion, Finset.mem_filter, mem_passing, hsucc]
  constructor
  · rintro ⟨⟨s, ⟨⟨hs, hthrough⟩, hc⟩, hstep⟩, hin⟩
    exact ⟨s, hs, ⟨hc, hthrough⟩, hin, hstep⟩
  · rintro ⟨s, hs, ⟨hc, hthrough⟩, hin, hstep⟩
    exact ⟨⟨s, ⟨⟨hs, hthrough⟩, hc⟩, hstep⟩, hin⟩

variable {last seen : Finset σ} {older : List (Finset σ)}

/-- The states of the next layer. -/
theorem Searching.mem_fresh (h : g.Searching constraint through start target last older seen)
    (t : σ) :
    t ∈ g.inside (image g.events ((passing through last).filter (constraint ·))) \ seen ↔
      g.Layer constraint through start (older.length + 1) t := by
  rw [Finset.mem_sdiff, mem_step, h.seen]
  refine Iff.trans (and_congr ?_ ?_) Levels.atDistance_succ.symm
  · constructor
    · rintro ⟨s, hs, hnext⟩
      exact ⟨s, (h.layers.1 s).mp hs, hnext⟩
    · rintro ⟨s, hs, hnext⟩
      exact ⟨s, (h.layers.1 s).mpr hs, hnext⟩
  · constructor
    · intro hno m hm hr
      exact hno ⟨m, hm, hr⟩
    · rintro hno ⟨m, hm, hr⟩
      exact hno m hm hr

theorem Searching.missed_last (h : g.Searching constraint through start target last older seen)
    (hlast : last ∩ target = ∅) :
    ∀ m ≤ older.length, ∀ s, g.ReachedIn constraint through start m s → s ∉ target := by
  intro m hm s hs ht
  obtain ⟨d, hd, hat⟩ := hs.exists_atDistance
  by_cases hlt : d < older.length
  · exact h.missed d hlt s hat.1 ht
  · obtain rfl : d = older.length := by omega
    have hmem := (h.layers.1 s).mpr hat
    exact Finset.notMem_empty s (hlast ▸ Finset.mem_inter.mpr ⟨hmem, ht⟩)

/-- With the next layer empty the target is never reached. -/
theorem Searching.ended (h : g.Searching constraint through start target last older seen)
    (hlast : last ∩ target = ∅)
    (hfresh : ∀ t, ¬ g.Layer constraint through start (older.length + 1) t) {n : Nat} {s : σ}
    (hs : g.ReachedIn constraint through start n s) : s ∉ target := by
  obtain ⟨m, hm, hr⟩ := Levels.reachIn_before hfresh hs
  exact h.missed_last hlast m hm s hr

theorem Searching.next (h : g.Searching constraint through start target last older seen)
    (hlast : last ∩ target = ∅) {fresh : Finset σ}
    (hfresh : ∀ t, t ∈ fresh ↔ g.Layer constraint through start (older.length + 1) t) :
    g.Searching constraint through start target fresh (last :: older) (seen ∪ fresh) := by
  refine ⟨⟨hfresh, h.layers⟩, fun s => ?_, fun m hm s hs => ?_⟩
  · rw [Finset.mem_union, h.seen, hfresh, List.length_cons]
    constructor
    · rintro (⟨m, hm, hr⟩ | hat)
      · exact ⟨m, by omega, hr⟩
      · exact ⟨older.length + 1, Nat.le_refl _, hat.1⟩
    · rintro ⟨m, hm, hr⟩
      by_cases hin : ∃ j ≤ older.length, g.ReachedIn constraint through start j s
      · exact .inl hin
      · refine .inr ⟨?_, fun j hj hrj => hin ⟨j, by omega, hrj⟩⟩
        have : m = older.length + 1 := by
          by_contra hne
          exact hin ⟨m, by omega, hr⟩
        rwa [← this]
  · rw [List.length_cons] at hm
    exact h.missed_last hlast m (by omega) s hs

/-- One round: the search ends, is out of rounds, or goes on from the next layer. -/
theorem forward_step (h : g.Searching constraint through start target last older seen)
    (rounds : Nat) :
    let out := g.forward constraint through target rounds last older seen
    (out = .ok (some (last, older)) ∧ (last ∩ target).Nonempty) ∨
    (out = .ok none ∧ ∀ n s, g.ReachedIn constraint through start n s → s ∉ target) ∨
    ∃ fresh : Finset σ, fresh.Nonempty ∧ Disjoint seen fresh ∧
      g.Searching constraint through start target fresh (last :: older) (seen ∪ fresh) ∧
      out = match rounds with
        | 0 => .error .stopped
        | k + 1 => g.forward constraint through target k fresh (last :: older) (seen ∪ fresh) := by
  intro out
  have hmem := h.mem_fresh
  have hout : out = g.forward constraint through target rounds last older seen := rfl
  rw [hout, forward.eq_def]
  dsimp only
  by_cases hlast : last ∩ target = ∅
  · rw [if_neg (not_not.mpr hlast)]
    refine .inr ?_
    have hnone : (∀ t, ¬ ∃ s ∈ last, g.Next constraint through s t) →
        ∀ n s, g.ReachedIn constraint through start n s → s ∉ target := by
      intro hstuck n s hs
      refine h.ended hlast (fun t ht => ?_) hs
      obtain ⟨⟨u, hu, hnext⟩, -⟩ := Levels.atDistance_succ.mp ht
      exact hstuck t ⟨u, (h.layers.1 u).mpr hu, hnext⟩
    split
    · next hevents =>
      refine .inl ⟨rfl, hnone ?_⟩
      rintro t ⟨s, -, -, -, j, e, he, -⟩
      rw [List.isEmpty_iff.mp hevents] at he
      cases he
    · split
      · next hbase =>
        refine .inl ⟨rfl, hnone ?_⟩
        rintro t ⟨s, hs, ⟨-, hthrough⟩, -⟩
        exact Finset.notMem_empty s (hbase ▸ mem_passing.mpr ⟨hs, hthrough⟩)
      · split
        · next hfresh =>
          refine .inl ⟨rfl, fun n s hs => h.ended hlast (fun t ht => ?_) hs⟩
          exact Finset.notMem_empty t (hfresh ▸ (hmem t).mpr ht)
        · next hfresh =>
          refine .inr ⟨_, Finset.nonempty_iff_ne_empty.mpr hfresh, Finset.disjoint_sdiff,
            h.next hlast hmem, ?_⟩
          cases rounds with
          | zero => rfl
          | succ k => rfl
  · rw [if_pos hlast]
    exact .inl ⟨rfl, Finset.nonempty_iff_ne_empty.mpr hlast⟩

/-- What the forward search comes to. -/
theorem forward_spec : ∀ {rounds : Nat} {last seen : Finset σ} {older : List (Finset σ)}
    {r : Option (Finset σ × List (Finset σ))},
    g.Searching constraint through start target last older seen →
    g.forward constraint through target rounds last older seen = .ok r →
      (r = none ∧ ∀ n s, g.ReachedIn constraint through start n s → s ∉ target) ∨
      ∃ last' older' seen', r = some (last', older') ∧ (last' ∩ target).Nonempty ∧
        g.Searching constraint through start target last' older' seen' := by
  intro rounds
  induction rounds with
  | zero =>
    intro last seen older r h hr
    rcases forward_step h 0 with ⟨ho, hne⟩ | ⟨ho, hno⟩ | ⟨fresh, -, -, -, ho⟩
    · rw [hr] at ho
      cases ho
      exact .inr ⟨last, older, seen, rfl, hne, h⟩
    · rw [hr] at ho
      cases ho
      exact .inl ⟨rfl, hno⟩
    · rw [hr] at ho
      cases ho
  | succ rounds ih =>
    intro last seen older r h hr
    rcases forward_step h (rounds + 1) with ⟨ho, hne⟩ | ⟨ho, hno⟩ | ⟨fresh, -, -, hnext, ho⟩
    · rw [hr] at ho
      cases ho
      exact .inr ⟨last, older, seen, rfl, hne, h⟩
    · rw [hr] at ho
      cases ho
      exact .inl ⟨rfl, hno⟩
    · exact ih hnext (ho.symm.trans hr)

/-- A search that reaches no more than `U` holds ends within as many rounds. -/
theorem forward_returns {U : Finset σ}
    (hU : ∀ n s, g.ReachedIn constraint through start n s → s ∈ U) :
    ∀ {rounds : Nat} {last seen : Finset σ} {older : List (Finset σ)},
    g.Searching constraint through start target last older seen →
    U.card ≤ rounds + seen.card →
    ∃ r, g.forward constraint through target rounds last older seen = .ok r := by
  intro rounds
  induction rounds with
  | zero =>
    intro last seen older h hcard
    rcases forward_step h 0 with ⟨ho, -⟩ | ⟨ho, -⟩ | ⟨fresh, hne, hdis, hnext, -⟩
    · exact ⟨_, ho⟩
    · exact ⟨_, ho⟩
    · exfalso
      have hsub : seen ∪ fresh ⊆ U := by
        intro s hs
        obtain ⟨m, -, hr⟩ := (hnext.seen s).mp hs
        exact hU m s hr
      have hle := Finset.card_le_card hsub
      rw [Finset.card_union_of_disjoint hdis] at hle
      have hpos := Finset.card_pos.mpr hne
      omega
  | succ rounds ih =>
    intro last seen older h hcard
    rcases forward_step h (rounds + 1) with ⟨ho, -⟩ | ⟨ho, -⟩ | ⟨fresh, hne, hdis, hnext, ho⟩
    · exact ⟨_, ho⟩
    · exact ⟨_, ho⟩
    · have hpos := Finset.card_pos.mpr hne
      obtain ⟨r, hr⟩ := ih hnext (by rw [Finset.card_union_of_disjoint hdis]; omega)
      exact ⟨r, ho.trans hr⟩

end Layers

/-! ## The backtrack -/

section Backtrack

variable {σ : Type} [DecidableEq σ] {g : Graph σ} {constraint : σ → Bool}
  {through start target : Finset σ}

/-- Through the converse or by splitting, a state before `cur` is found where there is one. -/
theorem source_spec {event : σ → Finset σ} {cur : σ} {prev : Finset σ}
    {pred : Option (σ → Finset σ)}
    (hpred : ∀ p, pred = some p → ∀ s ∈ prev, s ∈ p cur ↔ cur ∈ event s) :
    (∃ s, g.source constraint event cur prev pred = .ok (some s) ∧ s ∈ prev ∧
      constraint s = true ∧ cur ∈ event s) ∨
    (g.source constraint event cur prev pred = .ok none ∧
      ∀ s ∈ prev, constraint s = true → cur ∉ event s) := by
  cases pred with
  | some p =>
    have hmem : ∀ s, s ∈ (p cur ∩ prev).filter (constraint ·) ↔
        s ∈ prev ∧ constraint s = true ∧ cur ∈ event s := by
      intro s
      rw [Finset.mem_filter, Finset.mem_inter]
      constructor
      · rintro ⟨⟨hs, hprev⟩, hc⟩
        exact ⟨hprev, hc, (hpred p rfl s hprev).mp hs⟩
      · rintro ⟨hprev, hc, hstep⟩
        exact ⟨⟨(hpred p rfl s hprev).mpr hstep, hprev⟩, hc⟩
    rw [source]
    split
    · next hempty =>
      refine .inr ⟨rfl, fun s hs hc hstep => ?_⟩
      exact Finset.notMem_empty s (hempty ▸ (hmem s).mpr ⟨hs, hc, hstep⟩)
    · next hne =>
      have hone := g.oneState_mem _ (Finset.nonempty_iff_ne_empty.mpr hne)
      exact .inl ⟨_, rfl, (hmem _).mp hone⟩
  | none =>
    rw [source]
    split
    · next hhit =>
      obtain ⟨s, hs, hlim, hstep⟩ := sourceBySplitting_spec le_rfl hhit.2
      obtain ⟨hprev, hc⟩ := Finset.mem_filter.mp hlim
      exact .inl ⟨s, hs, hprev, hc, hstep⟩
    · next hno =>
      refine .inr ⟨rfl, fun s hs hc hstep => hno ?_⟩
      have hlim : s ∈ prev.filter (constraint ·) := Finset.mem_filter.mpr ⟨hs, hc⟩
      exact ⟨Finset.ne_empty_of_mem hlim, hits_iff.mpr ⟨s, hlim, hstep⟩⟩

theorem predecessor_spec (hex : g.Exact) {cur : σ} {prev : Finset σ} (hcur : g.In cur)
    (hprev : ∀ s ∈ prev, g.In s) : ∀ {events : List (σ → Finset σ)} {j : Nat},
    (∀ (i : Nat) (e : σ → Finset σ), events[i]? = some e → g.events[j + i]? = some e) →
    (∃ k s, g.predecessor constraint cur prev j events = .ok (some (k, s)) ∧ s ∈ prev ∧
      constraint s = true ∧ g.StepBy k s cur) ∨
    (g.predecessor constraint cur prev j events = .ok none ∧
      ∀ s ∈ prev, constraint s = true → ∀ e ∈ events, cur ∉ e s) := by
  intro events
  induction events with
  | nil =>
    intro j _
    exact .inr ⟨rfl, fun s _ _ e he => nomatch he⟩
  | cons event events ih =>
    intro j hev
    have hj : g.events[j]? = some event := hev 0 event rfl
    have hpred : ∀ p, g.preds[j]? = some p → ∀ s ∈ prev, s ∈ p cur ↔ cur ∈ event s :=
      fun p hp s hs => hex j p event hp hj s cur (hprev s hs) hcur
    rcases source_spec hpred with ⟨s, hs, hmem, hc, hstep⟩ | ⟨hs, hno⟩
    · refine .inl ⟨j, s, ?_, hmem, hc, event, hj, hstep⟩
      rw [predecessor, hs]
      rfl
    · have hpre : g.predecessor constraint cur prev j (event :: events) =
          g.predecessor constraint cur prev (j + 1) events := by
        rw [predecessor, hs]
        rfl
      rw [hpre]
      have hrest : ∀ (i : Nat) (e : σ → Finset σ), events[i]? = some e →
          g.events[j + 1 + i]? = some e := by
        intro i e he
        rw [Nat.add_right_comm]
        exact hev (i + 1) e he
      rcases ih hrest with h | ⟨h, hall⟩
      · exact .inl h
      · refine .inr ⟨h, fun s hs hc => List.forall_mem_cons.mpr ⟨hno s hs hc, hall s hs hc⟩⟩

/-- A state of a later layer has a predecessor in the layer before: the backtrack never
gets stuck. -/
theorem backtrack_spec (hex : g.Exact) : ∀ {layers : List (Finset σ)} {cur : σ}
    {out : PathResult σ},
    g.Layers constraint through start layers →
    g.Layer constraint through start layers.length cur →
    g.Walk constraint through out.states out.events → out.states.head? = some cur →
    ∃ p, g.backtrack constraint through layers cur out = .ok (some p) ∧
      g.Walk constraint through p.states p.events ∧
      (∃ s ∈ start, p.states.head? = some s) ∧
      p.states.getLast? = out.states.getLast? ∧
      p.events.length = layers.length + out.events.length := by
  intro layers
  induction layers with
  | nil =>
    intro cur out _ hcur hwalk hhead
    exact ⟨out, rfl, hwalk, ⟨cur, (Levels.atDistance_zero.mp hcur).1, hhead⟩, rfl,
      (Nat.zero_add _).symm⟩
  | cons layer layers ih =>
    intro cur out hlayers hcur hwalk hhead
    obtain ⟨hlayer, hlayers⟩ := hlayers
    have hin := reachedIn_in hcur.1
    obtain ⟨⟨u, hu, hpass, -, j, e, he, hstep⟩, -⟩ := Levels.atDistance_succ.mp hcur
    have hu' : u ∈ passing through layer := mem_passing.mpr ⟨(hlayer u).mpr hu, hpass.2⟩
    have hprev : ∀ s ∈ passing through layer, g.In s := fun s hs =>
      reachedIn_in ((hlayer s).mp (mem_passing.mp hs).1).1
    rw [backtrack]
    rw [if_neg (Finset.ne_empty_of_mem hu')]
    have hev : ∀ (i : Nat) (e : σ → Finset σ), g.events[i]? = some e →
        g.events[0 + i]? = some e := by
      intro i e h
      rwa [Nat.zero_add]
    rcases @predecessor_spec _ _ _ constraint hex _ _ hin hprev _ _ hev with
      ⟨k, s, hs, hmem, hc, hk⟩ | ⟨-, hno⟩
    · obtain ⟨hslayer, hthrough⟩ := mem_passing.mp hmem
      have hwalk' : g.Walk constraint through (s :: out.states) (k :: out.events) := by
        obtain ⟨states, events⟩ := out
        cases states with
        | nil => cases hhead
        | cons t ts =>
          cases hhead
          exact .go (hprev s hmem) ⟨hc, hthrough⟩ hk hwalk
      obtain ⟨p, hp, h1, h2, h3, h4⟩ := @ih s ⟨s :: out.states, k :: out.events⟩ hlayers
        ((hlayer s).mp hslayer) hwalk' rfl
      refine ⟨p, ?_, h1, h2, ?_, ?_⟩
      · rw [hs]
        exact hp
      · rw [h3]
        dsimp only
        cases hst : out.states with
        | nil =>
          rw [hst] at hhead
          cases hhead
        | cons t ts => rw [List.getLast?_cons_cons]
      · rw [h4, List.length_cons, List.length_cons]
        omega
    · exact absurd hstep (hno u hu' hpass.1 e (List.mem_of_getElem? he))

end Backtrack

/-! ## The path -/

section Path

variable {σ : Type} [DecidableEq σ] {g : Graph σ} {constraint : σ → Bool}
  {through start target : Finset σ}

theorem searching_start :
    g.Searching constraint through start target (g.inside start) [] (g.inside start) := by
  have hmem : ∀ s, s ∈ g.inside start ↔ g.Layer constraint through start 0 s := by
    intro s
    rw [mem_inside]
    show g.Init start s ↔ _
    exact Levels.atDistance_zero.symm
  refine ⟨⟨hmem, trivial⟩, fun s => ?_, fun m hm => absurd hm (Nat.not_lt_zero m)⟩
  rw [hmem]
  constructor
  · intro h
    exact ⟨0, Nat.le_refl 0, h.1⟩
  · rintro ⟨m, hm, h⟩
    obtain rfl : m = 0 := Nat.le_zero.mp hm
    exact ⟨h, fun j hj => absurd hj (Nat.not_lt_zero j)⟩

/-- What a search that returns comes to: no run, or one with no shorter beside it. -/
theorem path_spec (hex : g.Exact) {rounds : Nat} {r : Option (PathResult σ)}
    (h : g.path constraint through rounds start target = .ok r) :
    (r = none ∧ ¬ ∃ q, g.IsRun constraint through start target q) ∨
    ∃ p, r = some p ∧ g.IsRun constraint through start target p ∧
      ∀ q, g.IsRun constraint through start target q → p.events.length ≤ q.events.length := by
  have hnone : (∀ n s, g.ReachedIn constraint through start n s → s ∉ target) →
      ¬ ∃ q, g.IsRun constraint through start target q := by
    rintro hno ⟨q, hq⟩
    obtain ⟨t, ht, hreach⟩ := hq.reachedIn
    exact hno _ t hreach ht
  unfold path at h
  split at h
  · next hempty =>
    cases h
    refine .inl ⟨rfl, ?_⟩
    rintro ⟨q, hq⟩
    rcases hempty with hs | ht
    · obtain ⟨s, hs', -⟩ := hq.starts
      exact Finset.notMem_empty s (hs ▸ hs')
    · obtain ⟨t, ht', -⟩ := hq.ends
      exact Finset.notMem_empty t (ht ▸ ht')
  · split at h
    · next hinside =>
      cases h
      refine .inl ⟨rfl, ?_⟩
      rintro ⟨q, hq⟩
      obtain ⟨s, hs, hhead⟩ := hq.starts
      exact Finset.notMem_empty s (hinside ▸ mem_inside.mpr ⟨hs, hq.walk.head_in hhead⟩)
    · next hinside =>
      obtain ⟨found, hfound, h⟩ := bind_eq_ok.mp h
      rcases forward_spec (searching_start) hfound with
        ⟨rfl, hno⟩ | ⟨last, layers, seen, rfl, hmeet, hs⟩
      · cases h
        exact .inl ⟨rfl, hnone hno⟩
      · obtain ⟨hcur, htarget⟩ := Finset.mem_inter.mp (g.oneState_mem _ hmeet)
        have hlayer := (hs.layers.1 _).mp hcur
        obtain ⟨p, hp, h1, h2, h3, h4⟩ := @backtrack_spec _ _ _ _ _ _ hex _ _ ⟨[_], []⟩
          hs.layers.2 hlayer (.stop (reachedIn_in hlayer.1)) rfl
        dsimp only at h
        rw [hp] at h
        cases h
        refine .inr ⟨p, rfl, ⟨h1, h2, _, htarget, h3⟩, fun q hq => ?_⟩
        obtain ⟨t, ht, hreach⟩ := hq.reachedIn
        by_contra hlt
        exact hs.missed _ (by simp at h4; omega) t hreach ht

/-- A search ends when it reaches finitely many states. -/
theorem path_returns (hex : g.Exact) {U : Finset σ}
    (hU : ∀ n s, g.ReachedIn constraint through start n s → s ∈ U) {rounds : Nat}
    (hrounds : U.card ≤ rounds) :
    ∃ r, g.path constraint through rounds start target = .ok r := by
  unfold path
  split
  · exact ⟨_, rfl⟩
  · split
    · exact ⟨_, rfl⟩
    · next hinside =>
      obtain ⟨found, hfound⟩ := @forward_returns _ _ _ _ _ _ target _ hU _ _ _ _
        (searching_start) (show U.card ≤ rounds + _ by omega)
      rw [hfound]
      rcases forward_spec (searching_start) hfound with
        ⟨rfl, -⟩ | ⟨last, layers, seen, rfl, hmeet, hs⟩
      · exact ⟨_, rfl⟩
      · have hcur := (Finset.mem_inter.mp (g.oneState_mem _ hmeet)).1
        have hlayer := (hs.layers.1 _).mp hcur
        obtain ⟨p, hp, -⟩ := @backtrack_spec _ _ _ _ _ _ hex _ _ ⟨[_], []⟩
          hs.layers.2 hlayer (.stop (reachedIn_in hlayer.1)) rfl
        exact ⟨_, hp⟩

/-- A search returns a run exactly when there is one, and then a shortest one; without
converses one of the same length. It returns, if what it reaches is finite. -/
theorem path_shortest (g : Graph σ) (hex : g.Exact) (constraint : σ → Bool)
    (through start target : Finset σ) :
    (∀ rounds r, g.path constraint through rounds start target = .ok r →
      (r = none ∧ ¬ ∃ q, g.IsRun constraint through start target q) ∨
      ∃ p, r = some p ∧ g.IsRun constraint through start target p ∧
        ∀ q, g.IsRun constraint through start target q → p.events.length ≤ q.events.length) ∧
    (∀ (U : Finset σ) (rounds : Nat),
      (∀ n s, g.ReachedIn constraint through start n s → s ∈ U) → U.card ≤ rounds →
      ∃ r, g.path constraint through rounds start target = .ok r) ∧
    ∀ rounds rounds' r r', g.path constraint through rounds start target = .ok r →
      g.forwardOnly.path constraint through rounds' start target = .ok r' →
      r.map (·.events.length) = r'.map (·.events.length) := by
  refine ⟨fun rounds r h => path_spec hex h, fun U rounds hU hle => path_returns hex hU hle, ?_⟩
  intro rounds rounds' r r' h h'
  have hto : ∀ q, g.IsRun constraint through start target q →
      g.forwardOnly.IsRun constraint through start target q :=
    fun q hq => @IsRun.without _ g _ _ _ _ g.forwardOnly rfl rfl q hq
  have hfrom : ∀ q, g.forwardOnly.IsRun constraint through start target q →
      g.IsRun constraint through start target q :=
    fun q hq => @IsRun.without _ g.forwardOnly _ _ _ _ g rfl rfl q hq
  rcases path_spec hex h with ⟨rfl, hno⟩ | ⟨p, rfl, hp, hmin⟩
  · rcases path_spec forwardOnly_exact h' with ⟨rfl, -⟩ | ⟨p', rfl, hp', -⟩
    · rfl
    · exact absurd ⟨p', hfrom p' hp'⟩ hno
  · rcases path_spec forwardOnly_exact h' with ⟨rfl, hno⟩ | ⟨p', rfl, hp', hmin'⟩
    · exact absurd ⟨p, hto p hp⟩ hno
    · exact congrArg some (Nat.le_antisymm (hmin p' (hfrom p' hp')) (hmin' p (hto p hp)))

end Path

end Graph

/-- The arcs of a diagram of two bits of which each word stands on its own. -/
def singleArcs : Arcs (Fin 4) where
  arcs s := ((List.finRange 4).filter (· ∈ s)).map fun x => {x}
  cover s _ x := by simp
  inhabited s a ha := by
    obtain ⟨x, -, rfl⟩ := List.mem_map.mp ha
    exact Finset.singleton_nonempty x
  disjoint s := by
    refine List.pairwise_map.mpr (((List.nodup_finRange 4).filter _).imp fun hne => ?_)
    exact Finset.disjoint_singleton.mpr hne

/-- A counter modulo 4 that also jumps from 0 to 2. The jump has a converse, the step has
none. -/
def jumpingCounter : Graph (Fin 4) where
  node := singleArcs
  events := [fun s => if s = 0 then {2} else ∅, fun s => {s + 1}]
  preds := [fun t => if t = 2 then {0} else ∅]
  within := Finset.univ
  oneState s := ((List.finRange 4).find? (· ∈ s)).getD 0
  oneState_mem s hs := by
    obtain ⟨x, hx⟩ := hs
    cases hf : (List.finRange 4).find? (· ∈ s) with
    | none =>
      have := List.find?_eq_none.mp hf x (List.mem_finRange x)
      simp [hx] at this
    | some y => simpa using List.find?_some hf

theorem jumpingCounter_exact : jumpingCounter.Exact := by
  intro j p e hp he s t _ _
  cases j with
  | zero =>
    cases hp
    cases he
    have hjump : ∀ s t : Fin 4, s ∈ (if t = 2 then {0} else ∅ : Finset (Fin 4)) ↔
        t ∈ (if s = 0 then {2} else ∅ : Finset (Fin 4)) := by decide
    exact hjump s t
  | succ j => cases hp

/-- From 0 to 3 by the jump and one step. -/
theorem path_shortest_jumpingCounter :
    ∃ p, jumpingCounter.path (fun _ => true) ∅ 4 {0} {3} = .ok (some p) ∧ p.events = [0, 1] ∧
      ∀ q, jumpingCounter.IsRun (fun _ => true) ∅ {0} {3} q → 2 ≤ q.events.length := by
  obtain ⟨h, -, -⟩ :=
    Graph.path_shortest jumpingCounter jumpingCounter_exact (fun _ => true) ∅ {0} {3}
  have hp : jumpingCounter.path (fun _ => true) ∅ 4 {0} {3} = .ok (some ⟨[0, 2, 3], [0, 1]⟩) := by
    rfl
  rcases h 4 _ hp with ⟨hno, -⟩ | ⟨p, hsome, -, hmin⟩
  · cases hno
  · cases hsome
    exact ⟨_, hp, rfl, hmin⟩

/-! ## The arcs of a code -/

section Node

variable {C D V W : Type} {H : SupportAlgebra C} {T : SupportAlgebra D} {denH : C → Set V}
  {denT : D → Set W} {CanonH : C → Prop} {CanonT : D → Prop}

/-- The rectangles of a canonical node part its words. -/
theorem node_arcs (hH : SupportLaws H denH CanonH) (hT : SupportLaws T denT CanonT)
    {l : List (Arc C D)} (hl : NodeCanon H T denH CanonH CanonT l) :
    (∀ a ∈ l, (denH a.prime ×ˢ denT a.sub).Nonempty) ∧
      l.Pairwise fun a b => Disjoint (denH a.prime ×ˢ denT a.sub) (denH b.prime ×ˢ denT b.sub) :=
  ⟨fun a ha => (hH.nonempty_of_ne_none (hl.canon a ha).1 (hl.prime_ne a ha)).prod
      (hT.nonempty_of_ne_none (hl.canon a ha).2 (hl.sub_ne a ha)),
    hl.disjoint.imp fun h => Set.disjoint_prod.mpr (Or.inl h)⟩

open Classical in
/-- The arcs of the canonical nodes of the sets of more than one word. -/
noncomputable def nodeArcs (hH : SupportLaws H denH CanonH) (hT : SupportLaws T denT CanonT)
    (node : Finset (V × W) → List (Arc C D))
    (hnode : ∀ s : Finset (V × W), 1 < s.card →
      NodeCanon H T denH CanonH CanonT (node s) ∧ nodeDen denH denT (node s) = ↑s) :
    Arcs (V × W) where
  arcs s := if 1 < s.card then
      (node s).map fun a => s.filter fun w => w.1 ∈ denH a.prime ∧ w.2 ∈ denT a.sub
    else []
  cover s hs x := by
    have hx : x ∈ s ↔ x ∈ nodeDen denH denT (node s) := by rw [(hnode s hs).2, Finset.mem_coe]
    rw [if_pos hs]
    constructor
    · intro hxs
      obtain ⟨a, ha, hxa⟩ := (mem_nodeDen _ _).mp (hx.mp hxs)
      exact ⟨_, List.mem_map_of_mem ha, Finset.mem_filter.mpr ⟨hxs, hxa⟩⟩
    · rintro ⟨A, hA, hxA⟩
      obtain ⟨a, -, rfl⟩ := List.mem_map.mp hA
      exact (Finset.mem_filter.mp hxA).1
  inhabited s A hA := by
    split at hA
    · next hs =>
      obtain ⟨a, ha, rfl⟩ := List.mem_map.mp hA
      obtain ⟨w, hw⟩ := (node_arcs hH hT (hnode s hs).1).1 a ha
      have hws : w ∈ (s : Set (V × W)) := (hnode s hs).2 ▸ (mem_nodeDen _ _).mpr ⟨a, ha, hw⟩
      exact ⟨w, Finset.mem_filter.mpr ⟨hws, hw⟩⟩
    · cases hA
  disjoint s := by
    split
    · next hs =>
      refine List.pairwise_map.mpr ((node_arcs hH hT (hnode s hs).1).2.imp fun hab => ?_)
      refine Finset.disjoint_left.mpr fun w ha hb => ?_
      exact Set.disjoint_left.mp hab (Finset.mem_filter.mp ha).2 (Finset.mem_filter.mp hb).2
    · exact List.Pairwise.nil

end Node

end LibHSC.Trace
