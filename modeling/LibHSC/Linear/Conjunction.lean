import LibHSC.Linear.Knapsack

/-!
Many constraints at once. Each is brought to its normal form, duplicates are dropped, and each
is scheduled at the smallest subtree that covers its positions; a run filters the arcs of a
diagram below, then applies what is scheduled at the node itself.
-/

namespace LibHSC.Linear

open Tables

/-! ## Duplicates -/

def pairLess (a b : Nat × Int) : Bool := a.1 < b.1 || (a.1 = b.1 && a.2 < b.2)

/-- The order of term lists. -/
def termsLess : List (Nat × Int) → List (Nat × Int) → Bool
  | _, [] => false
  | [], _ :: _ => true
  | a :: as, b :: bs => pairLess a b || (!pairLess b a && termsLess as bs)

/-- By terms, then `at_most`, then the target. -/
def Constraint.less (a b : Constraint) : Bool :=
  termsLess a.terms b.terms || (!termsLess b.terms a.terms &&
    ((!a.atMost && b.atMost) || (a.atMost = b.atMost && a.target < b.target)))

/-- Runs of equal constraints are cut down to one. -/
def uniqueFrom (a : Constraint) : List Constraint → List Constraint
  | [] => [a]
  | b :: cs => if !a.less b && !b.less a then uniqueFrom a cs else a :: uniqueFrom b cs

def unique : List Constraint → List Constraint
  | [] => []
  | a :: cs => uniqueFrom a cs

theorem pairLess_antisymm {a b : Nat × Int} (h : pairLess a b = false) (h' : pairLess b a = false) :
    a = b := by
  simp only [pairLess, Bool.or_eq_false_iff, Bool.and_eq_false_imp, decide_eq_true_eq,
    decide_eq_false_iff_not] at h h'
  have h1 : a.1 = b.1 := by omega
  exact Prod.ext h1 (by have := h.2 h1; have := h'.2 h1.symm; omega)

theorem termsLess_antisymm : ∀ {as bs : List (Nat × Int)}, termsLess as bs = false →
    termsLess bs as = false → as = bs := by
  intro as
  induction as with
  | nil =>
    intro bs h _
    cases bs with
    | nil => rfl
    | cons b bs => cases h
  | cons a as ih =>
    intro bs h h'
    cases bs with
    | nil => cases h'
    | cons b bs =>
      obtain ⟨h1, h2⟩ := Bool.or_eq_false_iff.mp h
      obtain ⟨h1', h2'⟩ := Bool.or_eq_false_iff.mp h'
      rw [h1', Bool.not_false, Bool.true_and] at h2
      rw [h1, Bool.not_false, Bool.true_and] at h2'
      rw [pairLess_antisymm h1 h1', ih h2 h2']

/-- Constraints none of which is below the other are the same. -/
theorem less_antisymm {a b : Constraint} (h : a.less b = false) (h' : b.less a = false) :
    a = b := by
  obtain ⟨h1, h2⟩ := Bool.or_eq_false_iff.mp h
  obtain ⟨h1', h2'⟩ := Bool.or_eq_false_iff.mp h'
  rw [h1', Bool.not_false, Bool.true_and] at h2
  rw [h1, Bool.not_false, Bool.true_and] at h2'
  have hterms := termsLess_antisymm h1 h1'
  obtain ⟨ta, ka, ma⟩ := a
  obtain ⟨tb, kb, mb⟩ := b
  obtain rfl : ta = tb := hterms
  cases ma <;> cases mb <;> simp at h2 h2'
  all_goals
    obtain rfl : ka = kb := by omega
    rfl

theorem mem_uniqueFrom (c : Constraint) (cs : List Constraint) : ∀ a,
    c ∈ uniqueFrom a cs ↔ c = a ∨ c ∈ cs := by
  induction cs with
  | nil => exact fun a => List.mem_singleton.trans (or_iff_left List.not_mem_nil).symm
  | cons b cs ih =>
    intro a
    rw [uniqueFrom]
    split
    · next h =>
      rw [Bool.and_eq_true, Bool.not_eq_true', Bool.not_eq_true'] at h
      obtain rfl := less_antisymm h.1 h.2
      rw [ih, List.mem_cons]
      exact ⟨Or.imp_right .inr, fun h => h.elim .inl id⟩
    · rw [List.mem_cons, ih, List.mem_cons]

theorem mem_unique {c : Constraint} {cs : List Constraint} : c ∈ unique cs ↔ c ∈ cs := by
  cases cs with
  | nil => exact Iff.rfl
  | cons a cs => exact (mem_uniqueFrom c cs a).trans List.mem_cons.symm

/-! ## Schedules -/

/-- A node of the schedule follows a node of the shape; the null schedule has nothing to do. -/
inductive Schedule (n : Nat) where
  | null
  | node (here : List (Fin n)) (head tail : Schedule n)
  deriving DecidableEq

def lastPosition (terms : List (Nat × Int)) : Nat := (terms.getLastD (0, 0)).1

def firstPosition (terms : List (Nat × Int)) : Nat := (terms.headD (0, 0)).1

section Plan

variable {n : Nat} (cs : Fin n → Constraint)

def inHead (cut : Nat) (ids : List (Fin n)) : List (Fin n) :=
  ids.filter fun i => lastPosition (cs i).terms < cut

def inTail (cut : Nat) (ids : List (Fin n)) : List (Fin n) :=
  ids.filter fun i => ¬ lastPosition (cs i).terms < cut ∧ cut ≤ firstPosition (cs i).terms

def across (cut : Nat) (ids : List (Fin n)) : List (Fin n) :=
  ids.filter fun i => ¬ lastPosition (cs i).terms < cut ∧ ¬ cut ≤ firstPosition (cs i).terms

def plan : Shape → Nat → List (Fin n) → Schedule n
  | .pair h t, first, ids =>
    if ids = [] then .null
    else .node (across cs (first + h.width) ids) (plan h first (inHead cs (first + h.width) ids))
      (plan t (first + h.width) (inTail cs (first + h.width) ids))
  | _, _, ids => if ids = [] then .null else .node ids .null .null

end Plan

/-! ## Runs -/

/-- The memo of the schedule's nodes, each told by its sort and first position, and the caches
of each constraint. -/
structure Evaluators (n : Nat) where
  memo : Table fun k : PlaceKey => Code k.1.1
  caches : Fin n → Caches

def Evaluators.empty (n : Nat) : Evaluators n := ⟨[], fun _ => .empty⟩

abbrev Run (n : Nat) := StateT (Evaluators n) (Except Failure)

section Runs

variable (N : Numbering) {n : Nat} (cs : Fin n → Constraint)

def runArc {C D : Type} [DecidableEq C] [DecidableEq D] (noneH : C) (noneT : D)
    (head : C → Run n C) (tail : D → Run n D) (arcs : List (Arc C D)) (a : Arc C D) :
    Run n (List (Arc C D)) := do
  let h ← head a.prime
  let t ← tail a.sub
  pure (if h ≠ noneH ∧ t ≠ noneT then arcs ++ [⟨h, t⟩] else arcs)

/-- One constraint that is scheduled at this node. -/
def runHere (s : Shape) (first : Nat) (y : Code s) (i : Fin n) : Run n (Code s) :=
  if y = (algebra N s).none then pure y
  else within (fun e => e.caches i) (fun t e => { e with caches := Function.update e.caches i t })
    (apply N (cs i) s y first (cs i).target)

def runNode (k : PlaceKey) (here : List (Fin n)) (below : Run n (Code k.1.1)) :
    Run n (Code k.1.1) :=
  if k.1.2 = (algebra N k.1.1).none then pure k.1.2
  else remember Evaluators.memo (fun t e => { e with memo := t }) k
    (below >>= fun y => here.foldlM (runHere N cs k.1.1 k.2) y)

def run : (s : Shape) → Nat → Schedule n → Code s → Run n (Code s)
  | _, _, .null, x => pure x
  | .unit, first, .node here _ _, x => runNode N cs (⟨.unit, x⟩, first) here (pure x)
  | .leaf, first, .node here _ _, x => runNode N cs (⟨.leaf, x⟩, first) here (pure x)
  | .pair h t, first, .node here head tail, x =>
    runNode N cs (⟨.pair h t, x⟩, first) here (if head = .null ∧ tail = .null then pure x
      else do
        let arcs ← List.foldlM (runArc (algebra N h).none (algebra N t).none
          (fun p => run h first head p) fun q => run t (first + h.width) tail q) [] x
        pure (canonize (algebra N h) (algebra N t) arcs))

end Runs

/-! ## The conjunction -/

/-- What a constraint without terms says. -/
def Constraint.emptyHolds (c : Constraint) : Bool :=
  if c.atMost then 0 ≤ c.target else c.target = 0

/-- The constraints in their normal form; a constraint without terms decides at once. -/
def gather (width : Nat) : List Constraint → List Constraint →
    Except Failure (Option (List Constraint))
  | [], cs => .ok (some cs)
  | c :: rest, cs =>
    match normalize width c with
    | .error e => .error e
    | .ok c =>
      if c.terms = [] then
        if c.emptyHolds = false then .ok none
        else gather width rest cs
      else gather width rest (cs ++ [c])

def sorted (cs : List Constraint) : List Constraint :=
  cs.insertionSort fun a b => b.less a = false

def conjunction (N : Numbering) (top : Shape) (input : Code top) (constraints : List Constraint) :
    Except Failure (Code top) :=
  match gather top.width constraints [] with
  | .error e => .error e
  | .ok none => .ok (algebra N top).none
  | .ok (some cs) =>
    (run N (unique (sorted cs)).get top 0
      (plan (unique (sorted cs)).get top 0 (List.finRange _)) input (.empty _)).map Prod.fst

/-! ## What is scheduled where -/

/-- All the positions of a constraint are in the stretch of a subtree. -/
def Inside (c : Constraint) (s : Shape) (first : Nat) : Prop :=
  ∀ t ∈ c.terms, first ≤ t.1 ∧ t.1 < first + s.width

/-- Terms in their normal form: positions ascend, and there is one. -/
structure Normal (c : Constraint) : Prop where
  ascending : Ascending c.terms
  nonempty : c.terms ≠ []

theorem lastPosition_lt {terms : List (Nat × Int)} (h : Ascending terms) (hne : terms ≠ [])
    (cut : Nat) : lastPosition terms < cut ↔ ∀ t ∈ terms, t.1 < cut := by
  obtain ⟨pre, last, rfl⟩ := (List.eq_nil_or_concat terms).resolve_left hne
  rw [List.concat_eq_append] at h ⊢
  rw [lastPosition, List.getLastD_concat]
  constructor
  · intro hlast t ht
    rcases List.mem_append.mp ht with ht | ht
    · have := (List.pairwise_append.mp h).2.2 t ht last (List.mem_singleton.mpr rfl)
      omega
    · obtain rfl := List.mem_singleton.mp ht
      exact hlast
  · exact fun hall => hall last (List.mem_append_right pre (List.mem_singleton.mpr rfl))

theorem le_firstPosition {terms : List (Nat × Int)} (h : Ascending terms) (hne : terms ≠ [])
    (cut : Nat) : cut ≤ firstPosition terms ↔ ∀ t ∈ terms, cut ≤ t.1 := by
  obtain ⟨head, rest, rfl⟩ := List.exists_cons_of_ne_nil hne
  show cut ≤ head.1 ↔ _
  constructor
  · intro hhead t ht
    rcases List.mem_cons.mp ht with rfl | ht
    · exact hhead
    · have := (List.pairwise_cons.mp h).1 t ht
      omega
  · exact fun hall => hall head List.mem_cons_self

theorem sum_outside {c : Constraint} {s : Shape} {first : Nat}
    (h : ∀ t ∈ c.terms, t.1 < first ∨ first + s.width ≤ t.1) (w : Word s) :
    c.sum first w = 0 := by
  have hlen := frontier_length s w
  have hzero : ∀ p, first ≤ p → p < first + (frontier s w).length → coeffOf c.terms p = 0 := by
    intro p h1 h2
    refine coeffOf_eq_zero fun t ht heq => ?_
    have := h t ht
    omega
  rw [Constraint.sum, linearSum_congr _ _ hzero, linearSum_zero]

theorem meets_head {c : Constraint} {h t : Shape} {first : Nat} (hin : Inside c h first)
    (target : Int) (w : Word (.pair h t)) :
    c.Meets target first w ↔ c.Meets target first w.1 := by
  have hzero : c.sum (first + h.width) w.2 = 0 := sum_outside (fun u hu => .inl (hin u hu).2) w.2
  unfold Constraint.Meets
  rw [sum_pair, hzero, Int.add_zero]

theorem meets_tail {c : Constraint} {h t : Shape} {first : Nat}
    (hin : Inside c t (first + h.width)) (target : Int) (w : Word (.pair h t)) :
    c.Meets target first w ↔ c.Meets target (first + h.width) w.2 := by
  have hzero : c.sum first w.1 = 0 := sum_outside (fun u hu => .inr (hin u hu).1) w.1
  unfold Constraint.Meets
  rw [sum_pair, hzero, Int.zero_add]

section Correct

variable {N : Numbering} {n : Nat} {cs : Fin n → Constraint}

/-- What the constraints that lie inside a subtree ask of its words. -/
def Pending (cs : Fin n → Constraint) (s : Shape) (first : Nat) (w : Word s) : Prop :=
  ∀ i, Inside (cs i) s first → (cs i).Meets (cs i).target first w

/-- The constraints of a node are those inside its subtree. -/
def Scheduled (cs : Fin n → Constraint) (s : Shape) (first : Nat) (ids : List (Fin n)) : Prop :=
  ∀ i, i ∈ ids ↔ Inside (cs i) s first

section Pair

variable {h t : Shape} {first : Nat} {ids : List (Fin n)}

theorem scheduled_head (hcs : ∀ i, Normal (cs i)) (hids : Scheduled cs (.pair h t) first ids) :
    Scheduled cs h first (inHead cs (first + h.width) ids) := by
  intro i
  rw [inHead, List.mem_filter, decide_eq_true_iff, hids i,
    lastPosition_lt (hcs i).ascending (hcs i).nonempty]
  refine ⟨fun ⟨hin, hlast⟩ u hu => ⟨(hin u hu).1, hlast u hu⟩,
    fun hin => ⟨fun u hu => ⟨(hin u hu).1, ?_⟩, fun u hu => (hin u hu).2⟩⟩
  have := (hin u hu).2
  rw [Shape.width]
  omega

theorem scheduled_tail (hcs : ∀ i, Normal (cs i)) (hids : Scheduled cs (.pair h t) first ids) :
    Scheduled cs t (first + h.width) (inTail cs (first + h.width) ids) := by
  intro i
  obtain ⟨hasc, hne⟩ := hcs i
  rw [inTail, List.mem_filter, decide_eq_true_iff, hids i, lastPosition_lt hasc hne,
    le_firstPosition hasc hne]
  constructor
  · rintro ⟨hin, -, hfirst⟩ u hu
    have := (hin u hu).2
    rw [Shape.width] at this
    exact ⟨hfirst u hu, by omega⟩
  · intro hin
    refine ⟨fun u hu => ?_, fun hlast => ?_, fun u hu => (hin u hu).1⟩
    · have := hin u hu
      rw [Shape.width]
      omega
    · obtain ⟨u, hu⟩ := List.exists_mem_of_ne_nil _ hne
      have h1 := (hin u hu).1
      have h2 := hlast u hu
      omega

theorem pending_pair (hcs : ∀ i, Normal (cs i)) (hids : Scheduled cs (.pair h t) first ids)
    (w : Word (.pair h t)) : Pending cs (.pair h t) first w ↔
      (Pending cs h first w.1 ∧ Pending cs t (first + h.width) w.2) ∧
        ∀ i ∈ across cs (first + h.width) ids, (cs i).Meets (cs i).target first w := by
  have hhead := scheduled_head hcs hids
  have htail := scheduled_tail hcs hids
  have hsub : ∀ i, (i ∈ inHead cs (first + h.width) ids ∨ i ∈ inTail cs (first + h.width) ids ∨
      i ∈ across cs (first + h.width) ids) ↔ i ∈ ids := by
    intro i
    simp only [inHead, inTail, across, List.mem_filter, decide_eq_true_iff]
    tauto
  constructor
  · intro hw
    refine ⟨⟨fun i hi => ?_, fun i hi => ?_⟩, fun i hi => ?_⟩
    · exact (meets_head hi _ w).mp (hw i ((hids i).mp ((hsub i).mp (.inl ((hhead i).mpr hi)))))
    · exact (meets_tail hi _ w).mp
        (hw i ((hids i).mp ((hsub i).mp (.inr (.inl ((htail i).mpr hi))))))
    · exact hw i ((hids i).mp ((hsub i).mp (.inr (.inr hi))))
  · rintro ⟨⟨hwh, hwt⟩, hacross⟩ i hi
    rcases (hsub i).mpr ((hids i).mpr hi) with hi | hi | hi
    · have hin := (hhead i).mp hi
      exact (meets_head hin _ w).mpr (hwh i hin)
    · have hin := (htail i).mp hi
      exact (meets_tail hin _ w).mpr (hwt i hin)
    · exact hacross i hi

end Pair

theorem plan_null {s : Shape} {first : Nat} {ids : List (Fin n)}
    (h : plan cs s first ids = .null) : ids = [] := by
  by_contra hne
  cases s <;> simp [plan, hne] at h

theorem pending_of_nil {s : Shape} {first : Nat} {ids : List (Fin n)}
    (hids : Scheduled cs s first ids) (h : ids = []) (w : Word s) : Pending cs s first w := by
  subst h
  exact fun i hi => nomatch (hids i).mpr hi

/-! ## Runs -/

/-- The words of a code with a property. -/
def Selects (N : Numbering) {s : Shape} (P : Word s → Prop) (x y : Code s) : Prop :=
  Canon N s y ∧ ∀ w, w ∈ den s y ↔ w ∈ den s x ∧ P w

theorem selects_self {s : Shape} {P : Word s → Prop} {x : Code s} (hx : Canon N s x)
    (h : ∀ w ∈ den s x, P w) : Selects N P x x :=
  ⟨hx, fun w => ⟨fun hw => ⟨hw, h w hw⟩, fun hw => hw.1⟩⟩

theorem selects_none {s : Shape} {P : Word s → Prop} {x : Code s} (hx : Canon N s x)
    (h : x = (algebra N s).none) : Selects N P x x := by
  refine selects_self hx fun w hw => ?_
  rw [h, (laws N s).den_none] at hw
  exact nomatch hw

/-- Every answer kept is right, those of the nodes and those of each constraint. -/
structure Kept (N : Numbering) (cs : Fin n → Constraint) (e : Evaluators n) : Prop where
  memo : Sound (fun k y => Selects N (Pending cs k.1.1 k.2) k.1.2 y) e.memo
  caches : ∀ i, Right N (cs i) (e.caches i)

theorem kept_empty : Kept N cs (.empty n) := ⟨sound_nil, fun _ => right_empty N _⟩

abbrev RunGives {A : Type} (N : Numbering) (cs : Fin n → Constraint) (Q : A → Prop)
    (m : Run n A) : Prop := Gives (Kept N cs) Q Failure.isOverflow m

theorem runHere_gives {s : Shape} {first : Nat} {y : Code s} {i : Fin n}
    (hi : Ascending (cs i).terms) (hy : Canon N s y) :
    RunGives N cs (Selects N ((cs i).Meets (cs i).target first) y) (runHere N cs s first y i) := by
  unfold runHere
  split
  · next hnone => exact gives_pure (selects_none hy hnone)
  · refine gives_within (fun e he => he.caches i) (fun e t he ht => ⟨he.memo, fun j => ?_⟩)
      (apply_gives hi s y hy first (cs i).target)
    show Right N (cs j) (Function.update e.caches i t j)
    by_cases hj : j = i
    · subst hj
      rwa [Function.update_self]
    · rw [Function.update_of_ne hj]
      exact he.caches j

theorem runHeres_gives (hcs : ∀ i, Normal (cs i)) {s : Shape} {first : Nat} {y : Code s}
    (hy : Canon N s y) (here : List (Fin n)) :
    RunGives N cs (Selects N (fun w => ∀ i ∈ here, (cs i).Meets (cs i).target first w) y)
      (here.foldlM (runHere N cs s first) y) := by
  -- what is left still tells the words that are right from the others
  let J : List (Fin n) → Code s → Prop := fun rest z => Canon N s z ∧
    ∀ w, (w ∈ den s z ∧ ∀ i ∈ rest, (cs i).Meets (cs i).target first w) ↔
      w ∈ den s y ∧ ∀ i ∈ here, (cs i).Meets (cs i).target first w
  have hloop : RunGives N cs (J []) (here.foldlM (runHere N cs s first) y) := by
    refine gives_foldlM (J := J) (fun i rest z hz => ?_) here y ⟨hy, fun w => Iff.rfl⟩
    refine (runHere_gives (hcs i).ascending hz.1).mono fun z' hz' => ⟨hz'.1, fun w => ?_⟩
    rw [← hz.2 w, hz'.2 w, List.forall_mem_cons, and_assoc]
  refine hloop.mono fun z hz => ⟨hz.1, fun w => ?_⟩
  rw [← hz.2 w]
  exact (and_iff_left nofun).symm

/-- A node does what is below it, then what is scheduled here. -/
theorem runNode_gives (hcs : ∀ i, Normal (cs i)) {k : PlaceKey} {here : List (Fin n)}
    {below : Run n (Code k.1.1)} {P : Word k.1.1 → Prop} (hx : Canon N k.1.1 k.1.2)
    (hbelow : RunGives N cs (Selects N P k.1.2) below)
    (hP : ∀ w, Pending cs k.1.1 k.2 w ↔ P w ∧ ∀ i ∈ here, (cs i).Meets (cs i).target k.2 w) :
    RunGives N cs (Selects N (Pending cs k.1.1 k.2) k.1.2) (runNode N cs k here below) := by
  unfold runNode
  split
  · next hnone => exact gives_pure (selects_none hx hnone)
  · refine gives_remember Evaluators.memo (fun t e => { e with memo := t })
      (fun e y he hf => he.memo.find hf) (fun e y he hy => ⟨he.memo.cons hy, he.caches⟩) ?_
    refine hbelow.bind fun y hy => (runHeres_gives hcs hy.1 here).mono fun z hz => ⟨hz.1, ?_⟩
    intro w
    rw [hz.2 w, hy.2 w, hP w, and_assoc]

theorem runArcs_gives {h t : Shape} {x : List (Arc (Code h) (Code t))} {P : Word h → Prop}
    {Q : Word t → Prop} {head : Code h → Run n (Code h)} {tail : Code t → Run n (Code t)}
    (hh : ∀ a ∈ x, RunGives N cs (Selects N P a.prime) (head a.prime))
    (ht : ∀ a ∈ x, RunGives N cs (Selects N Q a.sub) (tail a.sub)) :
    RunGives N cs (fun arcs => CanonArcs (Canon N h) (Canon N t) arcs ∧
        ∀ w : Word (.pair h t), w ∈ nodeDen (den h) (den t) arcs ↔
          w ∈ den (.pair h t) x ∧ P w.1 ∧ Q w.2)
      (x.foldlM (runArc (algebra N h).none (algebra N t).none head tail) []) := by
  let J : List (Arc (Code h) (Code t)) → List (Arc (Code h) (Code t)) → Prop := fun rest arcs =>
    (∀ a ∈ rest, a ∈ x) ∧ CanonArcs (Canon N h) (Canon N t) arcs ∧
      ∀ w : Word (.pair h t), (w ∈ nodeDen (den h) (den t) arcs ∨
        (∃ a ∈ rest, InArc a w) ∧ P w.1 ∧ Q w.2) ↔ w ∈ den (.pair h t) x ∧ P w.1 ∧ Q w.2
  have hloop : RunGives N cs (J [])
      (x.foldlM (runArc (algebra N h).none (algebra N t).none head tail) []) := by
    refine gives_foldlM (J := J) (fun a rest arcs hJ => ?_) x []
      ⟨fun _ ha => ha, canonArcs_nil, fun w => ?_⟩
    · obtain ⟨hmem, hcanon, hden⟩ := hJ
      have ha := hmem a List.mem_cons_self
      refine (hh a ha).bind fun p hp => (ht a ha).bind fun q hq => gives_pure ?_
      have hrect : ∀ w : Word (.pair h t), (w.1 ∈ den h p ∧ w.2 ∈ den t q) ↔
          InArc a w ∧ P w.1 ∧ Q w.2 := by
        intro w
        rw [hp.2, hq.2, InArc]
        tauto
      refine ⟨fun b hb => hmem b (List.mem_cons_of_mem a hb), ?_, fun w => ?_⟩
      · split
        · rw [canonArcs_append]
          exact ⟨hcanon, (canonArcs_cons _ _).mpr ⟨⟨hp.1, hq.1⟩, canonArcs_nil⟩⟩
        · exact hcanon
      · rw [← hden w, List.exists_mem_cons_iff, or_and_right, ← hrect w, ← or_assoc]
        split
        · rw [nodeDen_append, nodeDen_cons, nodeDen_nil, Set.union_empty]
          rfl
        · next hnone =>
          have hno : ¬ (w.1 ∈ den h p ∧ w.2 ∈ den t q) := by
            rintro ⟨h1, h2⟩
            refine hnone ⟨?_, ?_⟩
            · rintro rfl
              rw [(laws N h).den_none] at h1
              exact nomatch h1
            · rintro rfl
              rw [(laws N t).den_none] at h2
              exact nomatch h2
          rw [or_iff_left hno]
    · rw [nodeDen_nil, mem_den_pair]
      exact or_iff_right (Set.notMem_empty w)
  refine hloop.mono fun arcs hJ => ⟨hJ.2.1, fun w => ?_⟩
  rw [← hJ.2.2 w]
  exact (or_iff_left fun hno => nomatch hno.1).symm

theorem run_gives (hcs : ∀ i, Normal (cs i)) : (s : Shape) → (first : Nat) →
    (ids : List (Fin n)) → (x : Code s) → Scheduled cs s first ids → Canon N s x →
    RunGives N cs (Selects N (Pending cs s first) x) (run N cs s first (plan cs s first ids) x)
  | .unit, first, ids, x, hids, hx => by
    rw [plan]
    split
    · next hnil => exact gives_pure (selects_self hx fun w _ => pending_of_nil hids hnil w)
    · refine runNode_gives (k := (⟨.unit, x⟩, first)) (P := fun _ => True) hcs hx
        (gives_pure (selects_self hx fun _ _ => trivial)) fun w => ?_
      rw [true_and]
      exact forall_congr' fun i => by rw [hids i]
    · nofun
  | .leaf, first, ids, x, hids, hx => by
    rw [plan]
    split
    · next hnil => exact gives_pure (selects_self hx fun w _ => pending_of_nil hids hnil w)
    · refine runNode_gives (k := (⟨.leaf, x⟩, first)) (P := fun _ => True) hcs hx
        (gives_pure (selects_self hx fun _ _ => trivial)) fun w => ?_
      rw [true_and]
      exact forall_congr' fun i => by rw [hids i]
    · nofun
  | .pair h t, first, ids, x, hids, hx => by
    have hx' : NodeCanon (algebra N h) (algebra N t) (den h) (Canon N h) (Canon N t) x := hx
    have hhead := scheduled_head hcs hids
    have htail := scheduled_tail hcs hids
    rw [plan]
    split
    · next hnil => exact gives_pure (selects_self hx fun w _ => pending_of_nil hids hnil w)
    · refine runNode_gives (k := (⟨.pair h t, x⟩, first)) hcs hx ?_ (pending_pair hcs hids)
      split
      · next hnull =>
        exact gives_pure (selects_self hx fun w _ =>
          ⟨pending_of_nil hhead (plan_null hnull.1) w.1,
            pending_of_nil htail (plan_null hnull.2) w.2⟩)
      · refine (runArcs_gives
          (fun a ha => run_gives hcs h first _ a.prime hhead (hx'.canon a ha).1)
          fun a ha => run_gives hcs t (first + h.width) _ a.sub htail (hx'.canon a ha).2).bind ?_
        intro arcs harcs
        obtain ⟨hcanon, hden⟩ := canonize_correct (laws N h) (laws N t) harcs.1
        refine gives_pure ⟨hcanon, fun w => ?_⟩
        rw [← harcs.2 w, ← hden]
        rfl

end Correct

/-! ## The conjunction -/

theorem mem_sorted {c : Constraint} {cs : List Constraint} : c ∈ sorted cs ↔ c ∈ cs :=
  (List.perm_insertionSort _ cs).mem_iff

/-- A constraint in its normal form, at the top of the shape. -/
theorem meets_iff_holds {s : Shape} {c c' : Constraint} (h : normalize s.width c = .ok c')
    (w : Word s) : c'.Meets c'.target 0 w ↔ c.Holds (frontier s w) := by
  obtain ⟨-, -, -, -, htarget, hatMost⟩ := normalize_ok h
  rw [holds_iff_of_normalize h w, Constraint.Meets, Constraint.sum, htarget, hatMost]

/-- A constraint without terms holds of every word or of none. -/
theorem meets_empty {s : Shape} {c : Constraint} (h : c.terms = []) (w : Word s) :
    c.Meets c.target 0 w ↔ c.emptyHolds = true := by
  have hzero : c.sum 0 w = 0 := sum_outside (fun t ht => nomatch h ▸ ht) w
  rw [Constraint.Meets, hzero, Constraint.emptyHolds, eq_comm (a := (0 : Int))]
  split <;> exact decide_eq_true_iff.symm

theorem gather_ok {s : Shape} (rest : List Constraint) : ∀ {cs : List Constraint}
    {r : Option (List Constraint)}, gather s.width rest cs = .ok r →
      (∀ c ∈ cs, Normal c ∧ Inside c s 0) →
      match r with
      | none => ∀ w : Word s, ¬ ∀ c ∈ rest, c.Holds (frontier s w)
      | some cs' => (∀ c ∈ cs', Normal c ∧ Inside c s 0) ∧ ∀ w : Word s,
          (∀ c ∈ cs', c.Meets c.target 0 w) ↔
            (∀ c ∈ cs, c.Meets c.target 0 w) ∧ ∀ c ∈ rest, c.Holds (frontier s w) := by
  induction rest with
  | nil =>
    rintro cs _ ⟨⟩ hcs
    exact ⟨hcs, fun w => (and_iff_left nofun).symm⟩
  | cons c rest ih =>
    intro cs r h hcs
    rw [gather] at h
    split at h
    · cases h
    · next c' hc' =>
      obtain ⟨hasc, hin, -, -, -, -⟩ := normalize_ok hc'
      have hholds := meets_iff_holds hc'
      split at h
      · next hempty =>
        have hdecide := fun w : Word s => (hholds w).symm.trans (meets_empty hempty w)
        split at h
        · next hno =>
          cases h
          intro w hall
          have hyes := (hdecide w).mp (hall c List.mem_cons_self)
          exact absurd (hno.symm.trans hyes) nofun
        · next hyes =>
          have hyes := Bool.of_not_eq_false hyes
          have hlater := ih h hcs
          cases r with
          | none =>
            exact fun w hall => hlater w fun d hd => hall d (List.mem_cons_of_mem c hd)
          | some cs' =>
            refine ⟨hlater.1, fun w => ?_⟩
            rw [hlater.2 w, List.forall_mem_cons, and_iff_right ((hdecide w).mpr hyes)]
      · next hne =>
        have hlater := ih h fun d hd => by
          rcases List.mem_append.mp hd with hd | hd
          · exact hcs d hd
          · obtain rfl := List.mem_singleton.mp hd
            exact ⟨⟨hasc, hne⟩, fun t ht => ⟨Nat.zero_le _, by
              rw [Nat.zero_add]
              exact hin t ht⟩⟩
        cases r with
        | none =>
          exact fun w hall => hlater w fun d hd => hall d (List.mem_cons_of_mem c hd)
        | some cs' =>
          refine ⟨hlater.1, fun w => ?_⟩
          rw [hlater.2 w, List.forall_mem_append, List.forall_mem_singleton,
            List.forall_mem_cons, hholds w, and_assoc]

theorem gather_error {width : Nat} (rest : List Constraint) : ∀ {cs : List Constraint}
    {e : Failure}, gather width rest cs = .error e →
      e.isOverflow ∨ ∃ c ∈ rest, ∃ t ∈ c.terms, width ≤ t.1 := by
  induction rest with
  | nil => exact fun h => nomatch h
  | cons c rest ih =>
    intro cs e h
    have hlater : ∀ {cs : List Constraint}, gather width rest cs = .error e →
        e.isOverflow ∨ ∃ d ∈ c :: rest, ∃ t ∈ d.terms, width ≤ t.1 := fun h =>
      (ih h).imp_right fun ⟨d, hd, hout⟩ => ⟨d, List.mem_cons_of_mem c hd, hout⟩
    rw [gather] at h
    split at h
    · next hc =>
      cases h
      exact (normalize_error hc).imp_right fun hout => ⟨c, List.mem_cons_self .., hout⟩
    · split at h
      · split at h
        · cases h
        · exact hlater h
      · exact hlater h

/-- The words of the input that satisfy every constraint, or an overflow. -/
theorem conjunction_gives (N : Numbering) {top : Shape} {input : Code top}
    (hx : Canon N top input) (constraints : List Constraint) :
    match conjunction N top input constraints with
    | .ok y => Canon N top y ∧ ∀ w, w ∈ den top y ↔
        w ∈ den top input ∧ ∀ c ∈ constraints, c.Holds (frontier top w)
    | .error e => e.isOverflow ∨ ∃ c ∈ constraints, ∃ t ∈ c.terms, top.width ≤ t.1 := by
  unfold conjunction
  cases hg : gather top.width constraints [] with
  | error e => exact gather_error constraints hg
  | ok r =>
    have hgather := gather_ok constraints hg nofun
    cases r with
    | none =>
      refine ⟨(laws N top).canon_none, fun w => ?_⟩
      rw [(laws N top).den_none]
      exact ⟨fun hw => absurd hw (Set.notMem_empty w), fun hw => absurd hw.2 (hgather w)⟩
    | some cs =>
      have hmem : ∀ c, c ∈ unique (sorted cs) ↔ c ∈ cs := fun c => mem_unique.trans mem_sorted
      have hnormal : ∀ i, Normal ((unique (sorted cs)).get i) :=
        fun i => (hgather.1 _ ((hmem _).mp (List.get_mem _ i))).1
      have hids : Scheduled (unique (sorted cs)).get top 0 (List.finRange _) := fun i =>
        ⟨fun _ => (hgather.1 _ ((hmem _).mp (List.get_mem _ i))).2, fun _ => List.mem_finRange i⟩
      have hrun := run_gives (N := N) hnormal top 0 _ input hids hx _ kept_empty
      dsimp only
      generalize run N (unique (sorted cs)).get top 0 _ input _ = r at hrun ⊢
      cases r with
      | error e => exact .inl hrun
      | ok r =>
        refine ⟨hrun.1.1, fun w => ?_⟩
        rw [hrun.1.2 w]
        refine and_congr_right fun _ => Iff.trans ?_ (hgather.2 w |>.trans (and_iff_right nofun))
        constructor
        · intro hpending c hc
          obtain ⟨i, rfl⟩ := List.mem_iff_get.mp ((hmem c).mpr hc)
          exact hpending i ((hids i).mp (List.mem_finRange i))
        · exact fun hall i _ => hall _ ((hmem _).mp (List.get_mem _ i))

/-- The same constraints up to the order of the list and of the terms of each. -/
def Reordered (cs cs' : List Constraint) : Prop :=
  ∃ ds, cs.Perm ds ∧ List.Forall₂ (fun c d => c.terms.Perm d.terms ∧ c.target = d.target ∧
    c.atMost = d.atMost) ds cs'

theorem Reordered.holds {cs cs' : List Constraint} (h : Reordered cs cs') (vs : List Int) :
    (∀ c ∈ cs, c.Holds vs) ↔ ∀ c ∈ cs', c.Holds vs := by
  obtain ⟨ds, hperm, hsame⟩ := h
  have hds : (∀ c ∈ cs, c.Holds vs) ↔ ∀ d ∈ ds, d.Holds vs :=
    forall_congr' fun c => by rw [hperm.mem_iff]
  refine hds.trans ?_
  clear hperm hds
  induction hsame with
  | nil => exact Iff.rfl
  | @cons c d ds cs' hcd _ ih =>
    obtain ⟨hterms, htarget, hatMost⟩ := hcd
    have hvalue : formValue c.terms vs = formValue d.terms vs := (hterms.map _).sum_eq
    have hhead : c.Holds vs ↔ d.Holds vs := by
      rw [Constraint.Holds, Constraint.Holds, hvalue, htarget, hatMost]
    rw [List.forall_mem_cons, List.forall_mem_cons, hhead]
    exact and_congr_right fun _ => ih

/-- The words of the input that satisfy every constraint, or an overflow. -/
def Exactly (N : Numbering) {top : Shape} (input : Code top) (constraints : List Constraint) :
    Except Failure (Code top) → Prop
  | .ok y => Canon N top y ∧ ∀ w, w ∈ den top y ↔
      w ∈ den top input ∧ ∀ c ∈ constraints, c.Holds (frontier top w)
  | .error e => e.isOverflow

/-- The words of the input that satisfy all constraints, or an overflow; and when two orders
of the same constraints both give a result, they give the same diagram. -/
theorem conjunction_exact (N : Numbering) (top : Shape) (input : Code top)
    (hx : Canon N top input) (constraints : List Constraint)
    (hin : ∀ c ∈ constraints, ∀ t ∈ c.terms, t.1 < top.width) :
    Exactly N input constraints (conjunction N top input constraints) ∧
    ∀ constraints' y y', Reordered constraints constraints' →
      conjunction N top input constraints = .ok y →
      conjunction N top input constraints' = .ok y' → y = y' := by
  have hgives := conjunction_gives N hx constraints
  refine ⟨?_, fun constraints' y y' hre hy hy' => ?_⟩
  · cases hr : conjunction N top input constraints with
    | ok y =>
      rw [hr] at hgives
      exact hgives
    | error e =>
      rw [hr] at hgives
      refine hgives.resolve_right fun ⟨c, hc, t, ht, hle⟩ => ?_
      have := hin c hc t ht
      omega
  · have hgives' := conjunction_gives N hx constraints'
    rw [hy] at hgives
    rw [hy'] at hgives'
    refine (laws N top).ext hgives.1 hgives'.1 (Set.ext fun w => ?_)
    rw [hgives.2 w, hgives'.2 w, hre.holds]

/-- Two bits, the first at most the second and the sum of both 1, with terms that repeat and
cancel. -/
def bitConstraints : List Constraint :=
  [⟨[(1, -1), (0, 2), (0, -1)], 0, true⟩, ⟨[(1, 1), (0, 1)], 1, false⟩]

def bitSquare : Code (.pair .leaf .leaf) :=
  rectCode (h := .leaf) (t := .leaf) .standard [0, 1] [0, 1]

theorem canon_bitSquare : Canon .standard (.pair .leaf .leaf) bitSquare := by
  have hbits : IntSet.Canon [0, 1] := ⟨by decide, by decide⟩
  exact canon_rectCode (h := .leaf) (t := .leaf) hbits hbits

theorem conjunction_exact_bits :
    Exactly .standard bitSquare bitConstraints
      (conjunction .standard (.pair .leaf .leaf) bitSquare bitConstraints) ∧
    ∀ constraints' y y', Reordered bitConstraints constraints' →
      conjunction .standard (.pair .leaf .leaf) bitSquare bitConstraints = .ok y →
      conjunction .standard (.pair .leaf .leaf) bitSquare constraints' = .ok y' → y = y' :=
  conjunction_exact .standard (.pair .leaf .leaf) bitSquare canon_bitSquare bitConstraints
    (by decide)

end LibHSC.Linear
