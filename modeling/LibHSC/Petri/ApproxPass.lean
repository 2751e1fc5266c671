import LibHSC.Petri.Abstract
import LibHSC.Petri.Approx
import LibHSC.Petri.Engine
import LibHSC.Surface.LinearForms

/-!
The invariant set of a net: the facts on the places that are bounded, the net without the
others, and the two forms that build the set in a session, a box and a conjunction of sums.
Whatever the shape, the set has every marking the net reaches, on the places kept.
-/

namespace LibHSC.Petri

open Lia PetriNets Linear Surface

/-! ## The facts on the places kept -/

section Facts

variable (facts : ApproxSet)

def keepOf : List Bool := facts.bound.map fun b => decide (0 ≤ b)

variable (keep : List Bool) (abs : Abstraction)

/-- A sum over kept places under their new indices. -/
def renumber (f : PFlow) : PFlow :=
  { f with terms := f.terms.map fun t => ((abs.toAbstract.getD t.1 none).getD 0, t.2) }

/-- The sums whose whole support is kept. -/
def project (source : List PFlow) : List PFlow :=
  (source.filter fun f => f.terms.all fun t => keep.getD t.1 false).map (renumber abs)

def abstractFacts : ApproxSet :=
  let flows := project keep abs facts.flows
  { facts with
    bound := abs.kept.map fun p => facts.bound.getD p 0
    covered := abs.kept.length
    flows := flows
    positive := (List.range flows.length).filter fun i => (flows[i]?).any PFlow.positive
    decreasing := project keep abs facts.decreasing
    increasing := project keep abs facts.increasing }

end Facts

/-! ## The forms -/

/-- A sum to print: at most or equal, the number, the terms by name. -/
abbrev Sum := Bool × Int × List (String × Int)

def sumText (c : Sum) : String :=
  form (if c.1 then "le" else "eq")
    (toString c.2.1 :: c.2.2.map fun t => form "*" [toString t.2, t.1])

section Forms

variable (net : SparsePetriNet)

def namedTerms (ts : List (Nat × Int)) : List (String × Int) :=
  ts.map fun t => (placeName net t.1, t.2)

/-- A lower bound is an upper bound of the opposite sum. -/
def lowerSum (f : PFlow) : Except String Sum :=
  if f.constant = minLong then .error "lower-bound negation overflow"
  else .ok (true, -f.constant, (namedTerms net f.terms).map fun t => (t.1, -t.2))

/-- One token in all, for each unit with two places or more. -/
def unitSums (units : UnitTree) : List Sum :=
  units.units.filterMap fun u =>
    let terms := (u.2.places.filter fun pl => net.pnames.contains pl).map fun pl => (pl, 1)
    if terms.length < 2 then none else some (true, 1, terms)

/-- Every flow, also of mixed signs; the monotone sums; the units. -/
def constraintSums (units : Option UnitTree) (withUnits : Bool) (a : ApproxSet) :
    Except String (List Sum) := do
  let flows := (a.flows.filter fun f => f.terms ≠ []).map fun f =>
    (false, f.constant, namedTerms net f.terms)
  let decreasing := a.decreasing.map fun f => (true, f.constant, namedTerms net f.terms)
  let increasing ← a.increasing.mapM (lowerSum net)
  let local_ := if withUnits && a.tagged then (units.map (unitSums net)).getD [] else []
  return flows ++ decreasing ++ increasing ++ local_

/-- The domain of a place in the box: its bound, or the cap. -/
def boxBound (cap : Int) (a : ApproxSet) (p : Nat) : Int :=
  if 0 ≤ a.bound.getD p 0 then a.bound.getD p 0 else cap - 1

def fullText (cap : Int) (a : ApproxSet) : String :=
  form "full" ("F" :: (List.range net.getPlaceCount).map fun p =>
    form (placeName net p) ["0", toString (boxBound cap a p)])

def constrainText (sums : List Sum) : String := form "constrain" ("S" :: "F" :: sums.map sumText)

/-- The box and the conjunction. -/
def buildApprox (units : Option UnitTree) (withUnits : Bool) (cap : Int) (a : ApproxSet) :
    Except String (String × String) := do
  let sums ← constraintSums net units withUnits a
  return (fullText net cap a, constrainText sums)

end Forms

/-! ## What the forms read to -/

theorem sumText_spells {c : Sum} (hc : ∀ t ∈ c.2.2, IsToken t.1.toList) :
    Spells (sumText c) (sumDatum c.1 c.2.1 c.2.2) := by
  refine .form ?_ (.cons (.num _) ?_)
  · cases c.1
    · exact isToken_of_text (by decide)
    · exact isToken_of_text (by decide)
  · rw [List.forall₂_map_left_iff, List.forall₂_map_right_iff, List.forall₂_same]
    intro t ht
    exact .form (isToken_of_text (by decide)) (.cons (.num _) (.cons (.atom (hc t ht)) .nil))

theorem constrainText_spells {sums : List Sum} (h : ∀ c ∈ sums, ∀ t ∈ c.2.2, IsToken t.1.toList) :
    Spells (constrainText sums) (.list (.atom "constrain" 0 :: .atom "S" 0 :: .atom "F" 0 ::
      sums.map fun c => sumDatum c.1 c.2.1 c.2.2) 0) := by
  refine .form (isToken_of_text (by decide)) (.cons (.atom (isToken_of_text (by decide)))
    (.cons (.atom (isToken_of_text (by decide))) ?_))
  rw [List.forall₂_map_left_iff, List.forall₂_map_right_iff, List.forall₂_same]
  exact fun c hc => sumText_spells (h c hc)

theorem map_range_names {α : Type} {names : List String} (hnd : names.Nodup)
    (f : String → Nat → α) :
    (List.range names.length).map (fun p => f (names.getD p "") p) =
      names.map fun n => f n (names.idxOf n) := by
  refine List.ext_getElem (by simp) fun i h1 h2 => ?_
  have hi : i < names.length := by simpa using h2
  rw [List.getElem_map, List.getElem_range, List.getElem_map, List.getD_eq_getElem _ _ hi,
    hnd.idxOf_getElem i hi]

theorem fullText_spells {net : SparsePetriNet} (cap : Int) (a : ApproxSet)
    (hnd : net.pnames.Nodup) (htok : ∀ p ∈ net.pnames, IsToken p.toList) :
    Spells (fullText net cap a) (.list (.atom "full" 0 :: .atom "F" 0 ::
      net.pnames.map fun n => rangeDatum (n, 0, boxBound cap a (net.pnames.idxOf n))) 0) := by
  have hitems : (List.range net.getPlaceCount).map (fun p =>
      form (placeName net p) ["0", toString (boxBound cap a p)]) =
      net.pnames.map fun n => form n ["0", toString (boxBound cap a (net.pnames.idxOf n))] :=
    map_range_names hnd fun n p => form n ["0", toString (boxBound cap a p)]
  unfold fullText
  rw [hitems]
  refine .form (isToken_of_text (by decide)) (.cons (.atom (isToken_of_text (by decide))) ?_)
  rw [List.forall₂_map_left_iff, List.forall₂_map_right_iff, List.forall₂_same]
  intro n hn
  exact .form (htok n hn) (.cons (.num 0) (.cons (.num _) .nil))

/-! ## Sums by name -/

/-- The value of a sum where every name has its tokens. -/
def nameValue (tok : String → Int) : List (String × Int) → Int
  | [] => 0
  | t :: ts => t.2 * tok t.1 + nameValue tok ts

def SumHolds (tok : String → Int) (c : Sum) : Prop :=
  if c.1 then nameValue tok c.2.2 ≤ c.2.1 else nameValue tok c.2.2 = c.2.1

/-- The numbers fit the reader, the names are there. -/
structure SumOk (names : List String) (c : Sum) : Prop where
  target : InLong c.2.1
  terms : ∀ t ∈ c.2.2, t.1 ∈ names ∧ InLong t.2

/-- A constraint over positions is the sum over the names that stand there. -/
theorem holds_order {order : List String} {tok : String → Int} {c : Sum}
    (hc : ∀ t ∈ c.2.2, t.1 ∈ order) :
    Constraint.Holds ⟨c.2.2.map fun t => (order.idxOf t.1, t.2), c.2.1, c.1⟩ (order.map tok) ↔
      SumHolds tok c := by
  have hvalue : formValue (c.2.2.map fun t => (order.idxOf t.1, t.2)) (order.map tok) =
      nameValue tok c.2.2 := by
    generalize c.2.2 = ts at hc
    induction ts with
    | nil => rfl
    | cons t ts ih =>
      obtain ⟨ht, hts⟩ := List.forall_mem_cons.mp hc
      have hat : (order.map tok).getD (order.idxOf t.1) 0 = tok t.1 := by
        rw [List.getD_eq_getElem?_getD, List.getElem?_map, List.getElem?_idxOf ht]
        rfl
      have hrest := ih hts
      unfold formValue at hrest ⊢
      rw [List.map_cons, List.map_cons, List.sum_cons, hrest, hat, nameValue]
  unfold Constraint.Holds SumHolds
  rw [hvalue]

section Named

variable {net : SparsePetriNet}

theorem tokens_markAt (hnd : net.pnames.Nodup) (m : Fin net.pnames.length → Int) {p : Nat}
    (hp : p < net.pnames.length) : tokens net m (placeName net p) = markAt m p := by
  rw [markAt, dif_pos hp]
  exact tokens_placeName hnd ⟨p, hp⟩

theorem nameValue_named (hnd : net.pnames.Nodup) (m : Fin net.pnames.length → Int)
    {ts : List (Nat × Int)} (hts : ∀ t ∈ ts, t.1 < net.pnames.length) :
    nameValue (tokens net m) (namedTerms net ts) = termsValue (markAt m) ts := by
  induction ts with
  | nil => rfl
  | cons t ts ih =>
    obtain ⟨ht, hts⟩ := List.forall_mem_cons.mp hts
    have hrest := ih hts
    unfold namedTerms at hrest ⊢
    rw [List.map_cons, nameValue, hrest, termsValue, tokens_markAt hnd m ht]

theorem nameValue_neg (tok : String → Int) (ts : List (String × Int)) :
    nameValue tok (ts.map fun t => (t.1, -t.2)) = -nameValue tok ts := by
  induction ts with
  | nil => rfl
  | cons t ts ih =>
    rw [List.map_cons, nameValue, nameValue, ih, Int.neg_mul, Int.neg_add]

end Named

/-! ## The tags -/

/-- What a safe unit tree promises: one token a place, and one token in all in the places of a
unit. -/
structure Tagged (net : SparsePetriNet) (units : Option UnitTree) : Prop where
  safe : SafeTag net units
  unit : (units.any fun u => u.present && u.safe) = true →
    ∀ t ∈ units, ∀ u ∈ t.units, ∀ m, net.toNet.Reachable net.initial m →
      (u.2.places.map (tokens net m)).sum ≤ 1

theorem tokens_nonneg {net : SparsePetriNet} {m : Fin net.pnames.length → Int}
    (hm : ∀ p, 0 ≤ m p) (n : String) : 0 ≤ tokens net m n := by
  unfold tokens
  split
  · exact hm _
  · exact le_rfl

theorem nameValue_ones (tok : String → Int) (ns : List String) :
    nameValue tok (ns.map fun n => (n, 1)) = (ns.map tok).sum := by
  induction ns with
  | nil => rfl
  | cons n ns ih => rw [List.map_cons, nameValue, ih, List.map_cons, List.sum_cons, Int.one_mul]

theorem sum_filter_le {tok : String → Int} (htok : ∀ n, 0 ≤ tok n) (P : String → Bool)
    (ns : List String) : ((ns.filter P).map tok).sum ≤ (ns.map tok).sum := by
  induction ns with
  | nil => exact le_rfl
  | cons n ns ih =>
    have := htok n
    rw [List.filter_cons]
    split
    · rw [List.map_cons, List.map_cons, List.sum_cons, List.sum_cons]
      omega
    · rw [List.map_cons, List.sum_cons]
      omega

/-! ## The sums of the pass -/

section Pass

variable {net : SparsePetriNet} {found : PConstraints} {units : Option UnitTree}
  {facts : ApproxSet} {keep : List Bool} {abs : Abstraction}

theorem placeName_rank (h : TransitionsSeen net keep net.getTransitionCount abs) {p : Nat}
    (hp : p < net.pnames.length) (hk : keep.getD p false = true) :
    placeName abs.net (rank keep p) = placeName net p :=
  h.pname (keptBelow_rank hp hk)

theorem namedTerms_renumber (h : TransitionsSeen net keep net.getTransitionCount abs) {f : PFlow}
    (hf : ∀ t ∈ f.terms, t.1 < net.pnames.length)
    (hk : (f.terms.all fun t => keep.getD t.1 false) = true) :
    namedTerms abs.net (renumber abs f).terms = namedTerms net f.terms := by
  have hall := List.all_eq_true.mp hk
  unfold namedTerms renumber
  rw [List.map_map]
  refine List.map_congr_left fun t ht => ?_
  have hto : (abs.toAbstract.getD t.1 none).getD 0 = rank keep t.1 := by
    rw [h.toAbstract, toAbstract_at (hf t ht) (hall t ht)]
    rfl
  rw [Function.comp_apply, hto, placeName_rank h (hf t ht) (hall t ht)]

theorem placeName_kept (h : TransitionsSeen net keep net.getTransitionCount abs) {p : Nat}
    (hp : p < net.pnames.length) (hk : keep.getD p false = true) :
    placeName net p ∈ abs.net.pnames := by
  rw [← placeName_rank h hp hk]
  refine placeName_mem ?_
  rw [h.count]
  exact (List.getElem?_eq_some_iff.mp (keptBelow_rank hp hk)).1

theorem mem_project {source : List PFlow} {g : PFlow} : g ∈ project keep abs source ↔
    ∃ f ∈ source, (f.terms.all fun t => keep.getD t.1 false) = true ∧ renumber abs f = g := by
  unfold project
  rw [List.mem_map]
  constructor
  · rintro ⟨f, hf, rfl⟩
    obtain ⟨hmem, hk⟩ := List.mem_filter.mp hf
    exact ⟨f, hmem, hk, rfl⟩
  · rintro ⟨f, hmem, hk, rfl⟩
    exact ⟨f, List.mem_filter.mpr ⟨hmem, hk⟩, rfl⟩

theorem inLong_of_inInt32 {v : Int} (h : InInt32 v) : InLong v ∧ InLong (-v) := by
  unfold InLong maxLong minLong
  unfold InInt32 at h
  omega

/-- What is printed for a sum of kept places. -/
theorem named_ok (h : TransitionsSeen net keep net.getTransitionCount abs) {f : PFlow}
    (hroot : f.Rooted net) (hk : (f.terms.all fun t => keep.getD t.1 false) = true) :
    ∀ t ∈ namedTerms abs.net (renumber abs f).terms,
      t.1 ∈ abs.net.pnames ∧ InLong t.2 ∧ InLong (-t.2) := by
  rw [namedTerms_renumber h (fun t ht => (hroot.terms t ht).1) hk]
  intro t ht
  obtain ⟨x, hx, rfl⟩ := List.mem_map.mp ht
  have hkeep := List.all_eq_true.mp hk x hx
  exact ⟨placeName_kept h (hroot.terms x hx).1 hkeep, inLong_of_inInt32 (hroot.terms x hx).2⟩

theorem renumber_value (hnd : net.pnames.Nodup)
    (h : TransitionsSeen net keep net.getTransitionCount abs) {f : PFlow} (hroot : f.Rooted net)
    (hk : (f.terms.all fun t => keep.getD t.1 false) = true) (m : Fin net.pnames.length → Int) :
    nameValue (tokens net m) (namedTerms abs.net (renumber abs f).terms) =
      termsValue (markAt m) f.terms := by
  rw [namedTerms_renumber h (fun t ht => (hroot.terms t ht).1) hk]
  exact nameValue_named hnd m fun t ht => (hroot.terms t ht).1

/-- A sum that can be printed, and holds of every marking the net reaches. -/
def SumRight (net : SparsePetriNet) (names : List String) (c : Sum) : Prop :=
  SumOk names c ∧ ∀ m, net.toNet.Reachable net.initial m → SumHolds (tokens net m) c

/-- A sum of the net that is kept, over the names of the places. -/
theorem rootedSum_right (hnd : net.pnames.Nodup)
    (h : TransitionsSeen net keep net.getTransitionCount abs) {f : PFlow} (hroot : f.Rooted net)
    (hk : (f.terms.all fun t => keep.getD t.1 false) = true) {atMost : Bool}
    (hall : ∀ m, net.toNet.Reachable net.initial m →
      if atMost then termsValue (markAt m) f.terms ≤ f.constant
      else termsValue (markAt m) f.terms = f.constant) :
    SumRight net abs.net.pnames
      (atMost, f.constant, namedTerms abs.net (renumber abs f).terms) := by
  refine ⟨⟨hroot.long, fun t ht => ?_⟩, fun m hm => ?_⟩
  · obtain ⟨hin, hlong, -⟩ := named_ok h hroot hk t ht
    exact ⟨hin, hlong⟩
  · rw [SumHolds, renumber_value hnd h hroot hk m]
    exact hall m hm

theorem increasingSum_right (hw : net.WF) (hnd : net.pnames.Nodup)
    (h : TransitionsSeen net keep net.getTransitionCount abs) (hfound : found.Valid net)
    {g : PFlow} (hg : g ∈ project keep abs found.increasing) :
    ∃ c, lowerSum abs.net g = .ok c ∧ SumRight net abs.net.pnames c := by
  obtain ⟨f, hf, hk, rfl⟩ := mem_project.mp hg
  obtain ⟨hroot, hpos, -⟩ := hfound.increasing f hf
  have hconst : 0 ≤ f.constant := by
    rw [hroot.constant]
    exact termsValue_nonneg (markAt_nonneg fun p => (hw.initial p).1) fun t ht => (hpos t ht).le
  have hlong := hroot.long
  unfold InLong maxLong minLong at hlong
  have hne : (renumber abs f).constant ≠ minLong := by
    show f.constant ≠ minLong
    unfold minLong
    omega
  refine ⟨_, if_neg hne, ⟨?_, fun t ht => ?_⟩, fun m hm => ?_⟩
  · show InLong (-f.constant)
    unfold InLong maxLong minLong
    omega
  · obtain ⟨x, hx, rfl⟩ := List.mem_map.mp ht
    obtain ⟨hin, -, hlong⟩ := named_ok h hroot hk x hx
    exact ⟨hin, hlong⟩
  · show nameValue _ _ ≤ -f.constant
    rw [nameValue_neg, renumber_value hnd h hroot hk m]
    exact neg_le_neg ((hfound.reachable hm).increasing f hf)

theorem unitSum_right (hw : net.WF) (htag : Tagged net units)
    (hon : (units.any fun u => u.present && u.safe) = true) {t : UnitTree} (ht : t ∈ units)
    {c : Sum} (hc : c ∈ unitSums abs.net t) : SumRight net abs.net.pnames c := by
  obtain ⟨u, hu, hsome⟩ := List.mem_filterMap.mp hc
  dsimp only at hsome
  split at hsome
  · cases hsome
  · obtain rfl := Option.some.inj hsome
    have hone : InLong 1 := by decide
    refine ⟨⟨hone, fun x hx => ?_⟩, fun m hm => ?_⟩
    · obtain ⟨n, hn, rfl⟩ := List.mem_map.mp hx
      have hin := (List.mem_filter.mp hn).2
      exact ⟨by simpa using hin, hone⟩
    · have hnonneg := hm.nonneg hw.nonneg fun p => (hw.initial p).1
      show nameValue _ _ ≤ 1
      rw [nameValue_ones]
      exact (sum_filter_le (tokens_nonneg hnonneg) _ _).trans (htag.unit hon t ht u hu m hm)

/-- Every constraint is there, can be printed, and holds of every marking the net reaches. -/
theorem constraintSums_right (hw : net.WF) (hnd : net.pnames.Nodup)
    (h : TransitionsSeen net keep net.getTransitionCount abs) (hfound : found.Valid net)
    (htag : Tagged net units)
    (hfacts : PConstraints.mk facts.flows facts.decreasing facts.increasing = found)
    (htagged : facts.tagged = units.any fun u => u.present && u.safe) (withUnits : Bool) :
    ∃ sums, constraintSums abs.net units withUnits (abstractFacts facts keep abs) = .ok sums ∧
      ∀ c ∈ sums, SumRight net abs.net.pnames c := by
  subst hfacts
  have hlower := fun g hg => increasingSum_right hw hnd h hfound (g := g) hg
  obtain ⟨lower, hmap⟩ := exists_mapM_ok (f := lowerSum abs.net)
    (l := project keep abs facts.increasing) fun g hg => (hlower g hg).imp fun c hc => hc.1
  unfold constraintSums
  rw [show (abstractFacts facts keep abs).increasing = project keep abs facts.increasing from rfl,
    hmap]
  refine ⟨_, rfl, fun c hc => ?_⟩
  rcases List.mem_append.mp hc with hc | hc
  · rcases List.mem_append.mp hc with hc | hc
    · rcases List.mem_append.mp hc with hc | hc
      · obtain ⟨g, hg, rfl⟩ := List.mem_map.mp hc
        obtain ⟨f, hf, hk, rfl⟩ := mem_project.mp (List.mem_filter.mp hg).1
        exact rootedSum_right hnd h (hfound.equalities f hf).1 hk fun m hm =>
          (hfound.reachable hm).equalities f hf
      · obtain ⟨g, hg, rfl⟩ := List.mem_map.mp hc
        obtain ⟨f, hf, hk, rfl⟩ := mem_project.mp hg
        exact rootedSum_right hnd h (hfound.decreasing f hf).1 hk fun m hm =>
          (hfound.reachable hm).decreasing f hf
    · obtain ⟨g, hg, hgc⟩ := forall₂_mem_right (mapM_eq_ok hmap) hc
      obtain ⟨c', hc', hright⟩ := hlower g hg
      rw [hgc] at hc'
      exact Except.ok.inj hc' ▸ hright
  · split at hc
    · next hon =>
      have hflag : facts.tagged = true := (Bool.and_eq_true_iff.mp hon).2
      rw [htagged] at hflag
      cases hu : units with
      | none =>
        rw [hu] at hc
        cases hc
      | some t =>
        rw [hu] at hc
        exact unitSum_right hw htag hflag hu hc
    · cases hc

end Pass

/-! ## The pass -/

section Run

variable (net : SparsePetriNet)

/-- The facts, the net on the places they bound, the facts on it. -/
def approxModel (units : Option UnitTree) (found : Columns) (fuel : Nat) :
    Option (ApproxSet × Abstraction × ApproxSet) := do
  let facts ← approxFacts net units (pflowsWithInequalities net found) fuel
  let keep := keepOf facts
  let abs := abstractNet net keep
  return (facts, abs, abstractFacts facts keep abs)

end Run

theorem getD_lt {bound : List Int} {k : Int} (h : ∀ b ∈ bound, b < k) (hk : 0 < k) {q : Nat} :
    bound.getD q 0 < k := by
  by_cases hq : q < bound.length
  · rw [List.getD_eq_getElem _ _ hq]
    exact h _ (List.getElem_mem hq)
  · rwa [List.getD_eq_default _ _ (by omega)]

section Names

variable {net : SparsePetriNet} {keep : List Bool} {abs : Abstraction}

theorem TransitionsSeen.pnames_sub
    (h : TransitionsSeen net keep net.getTransitionCount abs) {n : String}
    (hn : n ∈ abs.net.pnames) : n ∈ net.pnames := by
  rw [h.pnames] at hn
  obtain ⟨p, hp, rfl⟩ := List.mem_map.mp hn
  exact placeName_mem (mem_keptBelow.mp hp).1

theorem TransitionsSeen.pnames_nodup
    (h : TransitionsSeen net keep net.getTransitionCount abs) (hnd : net.pnames.Nodup) :
    abs.net.pnames.Nodup := by
  rw [h.pnames]
  refine (List.nodup_range.filter _).map_on fun p hp q hq heq => ?_
  have hp' : p < net.pnames.length := (mem_keptBelow.mp hp).1
  have hq' : q < net.pnames.length := (mem_keptBelow.mp hq).1
  rw [List.getD_eq_getElem _ _ hp', List.getD_eq_getElem _ _ hq'] at heq
  exact (hnd.getElem_inj_iff).mp heq

end Names

/-- The abstract net and its facts: the places kept are those with a bound, which holds there, and
every sum can be printed and holds. -/
theorem approxModel_right {net : SparsePetriNet} (hw : net.WF) (hn : net.Named) {found : Columns}
    (hfound : found.Valid net) {units : Option UnitTree} (htag : Tagged net units) {fuel : Nat}
    (hf : net.pnames.length + 1 < fuel) (withUnits : Bool) :
    ∃ all abs facts sums, approxModel net units found fuel = some (all, abs, facts) ∧
      all.bound.length = net.pnames.length ∧
      TransitionsSeen net (keepOf all) net.getTransitionCount abs ∧
      (∀ q < abs.net.pnames.length, 0 ≤ facts.bound.getD q 0 ∧
        ∀ m, net.toNet.Reachable net.initial m → 0 ≤ tokens net m (placeName abs.net q) ∧
            tokens net m (placeName abs.net q) ≤ facts.bound.getD q 0) ∧
      constraintSums abs.net units withUnits facts = .ok sums ∧
      ∀ c ∈ sums, SumRight net abs.net.pnames c := by
  have hvalid := pflowsWithInequalities_valid hfound
  obtain ⟨a, ha, hlen, hsums, hholds⟩ := approxFacts_holds hw hvalid htag.safe hf
  have hseen : TransitionsSeen net (keepOf a) _ _ := abstractNet_seen hw
  obtain ⟨sums, hsum, hright⟩ := constraintSums_right hw hn.nodup hseen hvalid htag hsums
    (approxFacts_tagged ha) withUnits
  refine ⟨a, abstractNet net (keepOf a),
    abstractFacts a (keepOf a) (abstractNet net (keepOf a)), sums,
    by rw [approxModel, ha]; rfl, hlen, hseen, fun q hq => ?_, hsum, hright⟩
  have hat := hseen.place_at ⟨q, hq⟩
  have hkeep := hseen.place_kept ⟨q, hq⟩
  generalize hseen.place ⟨q, hq⟩ = p at hat hkeep
  have hbound : (abstractFacts a (keepOf a) (abstractNet net (keepOf a))).bound.getD q 0 =
      a.bound.getD p 0 := by
    show ((abstractNet net (keepOf a)).kept.map fun p => a.bound.getD p 0).getD q 0 = _
    rw [hseen.kept, List.getD_eq_getElem?_getD, List.getElem?_map, hat]
    rfl
  have hname : placeName (abstractNet net (keepOf a)).net q = placeName net p := hseen.pname hat
  have hp : (p : Nat) < a.bound.length := by
    rw [hlen]
    exact p.isLt
  have hpos : 0 ≤ a.bound.getD p 0 := by
    unfold keepOf at hkeep
    rw [List.getD_eq_getElem _ _ (by simpa using hp), List.getElem_map, decide_eq_true_iff] at hkeep
    rwa [List.getD_eq_getElem _ _ hp]
  rw [hbound, hname]
  refine ⟨hpos, fun m hm => ?_⟩
  rw [tokens_markAt hn.nodup m p.isLt]
  exact (hholds m hm).bound p hp hpos

/-- The word of a marking, of any shape over the frontier. -/
def frontierWord (net : SparsePetriNet) (order : List String) (top : Shape)
    (m : Fin net.pnames.length → Int) : Word top :=
  wordAt (fun p => (wordOf net order m).getD p 0) top 0

theorem frontier_frontierWord {net : SparsePetriNet} {order : List String} {top : Shape}
    (hwidth : top.width = order.length) (m : Fin net.pnames.length → Int) :
    frontier top (frontierWord net order top m) = wordOf net order m := by
  rw [frontierWord, frontier_wordAt, hwidth]
  refine List.ext_getElem (by simp [wordOf]) fun i h1 h2 => ?_
  rw [List.getElem_map, List.getElem_range, Nat.zero_add, List.getD_eq_getElem]

/-- The domains of a box read from a `full`. -/
def domainOf (ranges : List (Int × Int)) (p : Nat) : IntSet :=
  IntSet.interval (ranges.getD p (0, -1)).1 ((ranges.getD p (0, -1)).2 + 1)

section Box

variable {names : List String} {bound : String → Int} {d : Decls}

theorem domainOf_ranges {p : Nat} (hp : p < d.frame.order.length) :
    domainOf (d.frame.order.map fun n => ((0 : Int), bound n)) p =
      IntSet.interval 0 (bound (d.frame.order.get ⟨p, hp⟩) + 1) := by
  unfold domainOf
  rw [List.getD_eq_getElem _ _ (by simpa using hp), List.getElem_map]
  rfl

/-- A word within the bounds of its names is in the box. -/
theorem frontierWord_box {net : SparsePetriNet} {top : Shape} {m : Fin net.pnames.length → Int}
    (hwidth : top.width = d.frame.order.length)
    (hm : ∀ n ∈ d.frame.order, 0 ≤ tokens net m n ∧ tokens net m n ≤ bound n) :
    frontierWord net d.frame.order top m ∈
      Linear.product (domainOf (d.frame.order.map fun n => ((0 : Int), bound n))) top 0 := by
  refine wordAt_mem fun p hp => ?_
  rw [hwidth] at hp
  have hat : (wordOf net d.frame.order m).getD p 0 = tokens net m (d.frame.order.get ⟨p, hp⟩) := by
    rw [wordOf, List.getD_eq_getElem _ _ (by simpa using hp), List.getElem_map]
    rfl
  rw [domainOf_ranges hp, IntSet.mem_interval, hat]
  have := hm _ (List.get_mem d.frame.order ⟨p, hp⟩)
  omega

theorem fullForm_box (N : Numbering) (ids : ShapeIds) (hd : d.frame.Fronts names)
    (hnd : names.Nodup) {f : Datum} {name : String}
    (hf : f.erase = .list (.atom "full" 0 :: .atom name 0 ::
      names.map fun n => rangeDatum (n, 0, bound n)) 0)
    (hb : ∀ n ∈ names, 0 ≤ bound n ∧ bound n < 2147483647) {top : Shape}
    (hwidth : top.width = d.frame.order.length) (hsmall : top.width < 2 ^ 24) :
    ∃ box, d.boxOf f = .ok (d.frame.order.map fun n => ((0 : Int), bound n)) ∧
      fullBox N ids (domainOf (d.frame.order.map fun n => ((0 : Int), bound n))) top = .ok box ∧
      Canon N top box ∧
      den top box =
        Linear.product (domainOf (d.frame.order.map fun n => ((0 : Int), bound n))) top 0 := by
  have hranges := boxOf_datum hd hnd hf fun n hn => by
    have := hb n hn
    unfold InInt32
    dsimp only
    omega
  have hdom : ∀ p < top.width,
      IntSet.Canon (domainOf (d.frame.order.map fun n => ((0 : Int), bound n)) p) := by
    intro p hp
    rw [hwidth] at hp
    rw [domainOf_ranges hp]
    have := hb _ (hd.order.mem_iff.mp (List.get_mem d.frame.order ⟨p, hp⟩))
    exact IntSet.canon_interval (by decide) (by unfold InInt32; omega)
  obtain ⟨box, hbox, hcanon, hden⟩ := fullBox_gives (N := N) ids hsmall hdom
  exact ⟨box, hranges, hbox, hcanon, hden⟩

/-- The sums over positions. -/
def placedSums (order : List String) (sums : List Sum) : List Constraint :=
  sums.map fun c => ⟨c.2.2.map fun x => (order.idxOf x.1, x.2), c.2.1, c.1⟩

theorem placedSums_inside {order : List String} {sums : List Sum}
    (h : ∀ c ∈ sums, ∀ t ∈ c.2.2, t.1 ∈ order) :
    ∀ c ∈ placedSums order sums, ∀ t ∈ c.terms, t.1 < order.length := by
  intro c hc t ht
  obtain ⟨x, hx, rfl⟩ := List.mem_map.mp hc
  obtain ⟨y, hy, rfl⟩ := List.mem_map.mp ht
  exact List.idxOf_lt_length_of_mem (h x hx y hy)

theorem placedSums_hold {order : List String} {sums : List Sum} {tok : String → Int}
    (h : ∀ c ∈ sums, ∀ t ∈ c.2.2, t.1 ∈ order) (hall : ∀ c ∈ sums, SumHolds tok c) :
    ∀ c ∈ placedSums order sums, c.Holds (order.map tok) := by
  intro c hc
  obtain ⟨x, hx, rfl⟩ := List.mem_map.mp hc
  exact (holds_order (h x hx)).mpr (hall x hx)

end Box

/-- In a session over these places, of any shape, the two forms are read, and the set they build,
unless a sum overflows, has every marking the net reaches. -/
def Encloses (N : Numbering) (ids : ShapeIds) (net : SparsePetriNet) (names : List String)
    (fullForm conForm : Datum) : Prop :=
  ∀ (d : Decls) (top : Shape), d.frame.Fronts names → top.width = d.frame.order.length →
    top.width < 2 ^ 24 →
    ∃ ranges box cs, d.boxOf fullForm = .ok ranges ∧ fullBox N ids (domainOf ranges) top = .ok box ∧
      d.frame.doConstrain conForm = .ok ("S", "F", cs) ∧
      match conjunction N top box cs with
      | .error e => e.isOverflow
      | .ok S => Canon N top S ∧ ∀ m, net.toNet.Reachable net.initial m →
          frontierWord net d.frame.order top m ∈ den top S

/-- Right facts are printed as forms that build a set around the reached one. -/
theorem forms_enclose {net : SparsePetriNet} (hn : net.Named) {keep : List Bool}
    {abs : Abstraction} (hseen : TransitionsSeen net keep net.getTransitionCount abs)
    {facts : ApproxSet} (hbound : ∀ q < abs.net.pnames.length, 0 ≤ facts.bound.getD q 0 ∧
      ∀ m, net.toNet.Reachable net.initial m → 0 ≤ tokens net m (placeName abs.net q) ∧
        tokens net m (placeName abs.net q) ≤ facts.bound.getD q 0)
    {units : Option UnitTree} {withUnits : Bool} {sums : List Sum}
    (hsums : constraintSums abs.net units withUnits facts = .ok sums)
    (hright : ∀ c ∈ sums, SumRight net abs.net.pnames c) (cap : Int) (N : Numbering)
    (ids : ShapeIds) :
    ∃ full con fullForm conForm, buildApprox abs.net units withUnits cap facts = .ok (full, con) ∧
      parse full.toList = .ok [fullForm] ∧ parse con.toList = .ok [conForm] ∧
      ((∀ b ∈ facts.bound, b < 2147483647) →
        Encloses N ids net abs.net.pnames fullForm conForm) := by
  have hnd := hseen.pnames_nodup hn.nodup
  have htok : ∀ p ∈ abs.net.pnames, IsToken p.toList := fun p hp =>
    (hn.place p (hseen.pnames_sub hp)).token
  obtain ⟨fullForm, hfullParse, hfull⟩ := (fullText_spells cap facts hnd htok).parse
  obtain ⟨conForm, hconParse, hcon⟩ := (constrainText_spells fun c hc t ht =>
    htok _ ((hright c hc).1.terms t ht).1).parse
  refine ⟨_, _, fullForm, conForm, by rw [buildApprox, hsums]; rfl,
    hfullParse, hconParse, fun hfit d top hd hwidth hsmall => ?_⟩
  have hplace : ∀ n ∈ abs.net.pnames, abs.net.pnames.idxOf n < abs.net.pnames.length ∧
      placeName abs.net (abs.net.pnames.idxOf n) = n := fun n hn => by
    have hlt := List.idxOf_lt_length_of_mem hn
    refine ⟨hlt, ?_⟩
    rw [placeName, List.getD_eq_getElem _ _ hlt]
    exact List.getElem_idxOf hlt
  have hbox : ∀ n ∈ abs.net.pnames, 0 ≤ boxBound cap facts (abs.net.pnames.idxOf n) ∧
      boxBound cap facts (abs.net.pnames.idxOf n) < 2147483647 ∧
      ∀ m, net.toNet.Reachable net.initial m → 0 ≤ tokens net m n ∧
        tokens net m n ≤ boxBound cap facts (abs.net.pnames.idxOf n) := by
    intro n hn
    obtain ⟨hlt, hname⟩ := hplace n hn
    obtain ⟨hpos, hle⟩ := hbound _ hlt
    rw [hname] at hle
    rw [boxBound, if_pos hpos]
    exact ⟨hpos, getD_lt hfit (by decide), hle⟩
  obtain ⟨box, hranges, hboxOk, hcanon, hden⟩ := fullForm_box N ids hd hnd hfull
    (fun n hn => ⟨(hbox n hn).1, (hbox n hn).2.1⟩) hwidth hsmall
  have hcs : d.frame.doConstrain conForm = .ok ("S", "F", placedSums d.frame.order sums) :=
    doConstrain_datum d.frame.order.idxOf hcon fun c hc =>
      ⟨(hright c hc).1.target, fun x hx => ⟨hd.position ((hright c hc).1.terms x hx).1,
        ((hright c hc).1.terms x hx).2⟩⟩
  have hin : ∀ c ∈ sums, ∀ t ∈ c.2.2, t.1 ∈ d.frame.order := fun c hc t ht =>
    hd.order.mem_iff.mpr ((hright c hc).1.terms t ht).1
  refine ⟨_, box, _, hranges, hboxOk, hcs, ?_⟩
  have hexact := (conjunction_exact N top box hcanon _ (hwidth ▸ placedSums_inside hin)).1
  generalize conjunction N top box _ = r at hexact ⊢
  cases r with
  | error e => exact hexact
  | ok S =>
    refine ⟨hexact.1, fun m hm => (hexact.2 _).mpr ⟨?_, ?_⟩⟩
    · rw [hden]
      exact frontierWord_box hwidth fun n hn => (hbox n (hd.order.mem_iff.mp hn)).2.2 m hm
    · rw [frontier_frontierWord hwidth]
      exact placedSums_hold hin fun c hc => (hright c hc).2 m hm

/-- The forms the pass prints build a set that has, on the places kept, every marking the net
reaches. The bounds must be below the largest machine value: the reader of a box cuts them. -/
theorem approxPass_encloses {net : SparsePetriNet} (hw : net.WF) (hn : net.Named)
    {found : Columns} (hfound : found.Valid net) {units : Option UnitTree}
    (htag : Tagged net units) {fuel : Nat} (hf : net.pnames.length + 1 < fuel) (withUnits : Bool)
    (cap : Int) (N : Numbering) (ids : ShapeIds) :
    ∃ all abs facts full con fullForm conForm,
      approxModel net units found fuel = some (all, abs, facts) ∧
      buildApprox abs.net units withUnits cap facts = .ok (full, con) ∧
      parse full.toList = .ok [fullForm] ∧ parse con.toList = .ok [conForm] ∧
      ((∀ b ∈ facts.bound, b < 2147483647) →
        Encloses N ids net abs.net.pnames fullForm conForm) := by
  obtain ⟨all, abs, facts, sums, hmodel, -, hseen, hbound, hsums, hright⟩ :=
    approxModel_right hw hn hfound htag hf withUnits
  obtain ⟨full, con, fullForm, conForm, hforms⟩ :=
    forms_enclose hn hseen hbound hsums hright cap N ids
  exact ⟨all, abs, facts, full, con, fullForm, conForm, hmodel, hforms⟩

/-- The sum of both places, what `here` loses, what `there` gains. -/
def shuttleColumns : Columns where
  basis := [(SparseArray.empty.put 0 1).put 1 1]
  decreasing := [SparseArray.empty.put 0 1]
  increasing := [SparseArray.empty.put 1 1]

theorem shuttleColumns_valid : shuttleColumns.Valid shuttle where
  basis := List.forall_mem_singleton.mpr ⟨by unfold TermsOk; decide, by decide⟩
  decreasing := List.forall_mem_singleton.mpr ⟨by unfold TermsOk; decide, by decide, by decide⟩
  increasing := List.forall_mem_singleton.mpr ⟨by unfold TermsOk; decide, by decide, by decide⟩

theorem untagged (net : SparsePetriNet) : Tagged net none where
  safe h := absurd h (by decide)
  unit h := absurd h (by decide)

theorem approxPass_encloses_shuttle :
    ∃ all abs facts full con fullForm conForm,
      approxModel shuttle none shuttleColumns 4 = some (all, abs, facts) ∧
      buildApprox abs.net none true 2 facts = .ok (full, con) ∧
      parse full.toList = .ok [fullForm] ∧ parse con.toList = .ok [conForm] ∧
      ((∀ b ∈ facts.bound, b < 2147483647) →
        Encloses .standard .standard shuttle abs.net.pnames fullForm conForm) :=
  approxPass_encloses shuttle_wf shuttle_named shuttleColumns_valid (untagged shuttle)
    (by decide) true 2 _ _

end LibHSC.Petri
