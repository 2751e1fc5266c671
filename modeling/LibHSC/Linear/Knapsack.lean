import LibHSC.IntTerm
import LibHSC.Library.Tables
import LibHSC.Linear.Constraint

/-!
One constraint over the words of a diagram: the range of the sums a code can have, its words
by their sum, and the words whose sum meets a target. The position of the leaves travels down,
and every answer is kept by sort, position and code.
-/

namespace LibHSC.Linear

open Tables

/-! ## The terms of a stretch of positions -/

namespace Constraint

variable (c : Constraint)

/-- The terms from a position on. -/
def begin (first : Nat) : List (Nat × Int) := c.terms.dropWhile fun t => t.1 < first

def touches (s : Shape) (first : Nat) : Bool :=
  match c.begin first with
  | [] => false
  | t :: _ => t.1 < first + s.width

def coefficient (first : Nat) : Int :=
  match c.begin first with
  | [] => 0
  | t :: _ => if t.1 = first then t.2 else 0

/-- The sum of a word that sits at a position. -/
def sum {s : Shape} (first : Nat) (w : Word s) : Int :=
  linearSum (coeffOf c.terms) first (frontier s w)

/-- What the constraint asks of a word, against a target of its own. -/
def Meets {s : Shape} (target : Int) (first : Nat) (w : Word s) : Prop :=
  if c.atMost then c.sum first w ≤ target else c.sum first w = target

end Constraint

theorem begin_spec {terms : List (Nat × Int)} (h : Ascending terms) (first : Nat) :
    Ascending (terms.dropWhile fun t => t.1 < first) ∧
      (∀ t ∈ terms.dropWhile fun t => t.1 < first, first ≤ t.1) ∧
      ∀ p, first ≤ p → coeffOf terms p = coeffOf (terms.dropWhile fun t => t.1 < first) p := by
  induction terms with
  | nil => exact ⟨h, nofun, fun _ _ => rfl⟩
  | cons t terms ih =>
    obtain ⟨hhead, htail⟩ := List.pairwise_cons.mp h
    rw [List.dropWhile_cons]
    by_cases ht : t.1 < first
    · simp only [ht, decide_true, if_true]
      obtain ⟨h1, h2, h3⟩ := ih htail
      refine ⟨h1, h2, fun p hp => ?_⟩
      rw [coeffOf_cons, if_neg (by omega), Int.zero_add, h3 p hp]
    · simp only [ht, decide_false, Bool.false_eq_true, if_false]
      refine ⟨h, fun u hu => ?_, fun _ _ => trivial⟩
      rcases List.mem_cons.mp hu with rfl | hu
      · omega
      · have := hhead u hu
        omega

theorem coefficient_eq {c : Constraint} (h : Ascending c.terms) (first : Nat) :
    c.coefficient first = coeffOf c.terms first := by
  obtain ⟨hasc, hfrom, hcoeff⟩ := begin_spec h first
  rw [hcoeff first le_rfl]
  unfold Constraint.coefficient Constraint.begin
  split
  · next hb => rw [hb]; rfl
  · next t rest hb =>
    rw [hb] at hasc hfrom ⊢
    have hrest : coeffOf rest first = 0 := by
      refine coeffOf_eq_zero fun u hu => ?_
      have h1 := (List.pairwise_cons.mp hasc).1 u hu
      have h2 := hfrom t List.mem_cons_self
      omega
    rw [coeffOf_cons, hrest, Int.add_zero]

/-- A stretch without terms has no coefficient. -/
theorem coeffOf_untouched {c : Constraint} (h : Ascending c.terms) {s : Shape} {first : Nat}
    (ht : c.touches s first = false) {p : Nat} (h1 : first ≤ p) (h2 : p < first + s.width) :
    coeffOf c.terms p = 0 := by
  obtain ⟨hasc, -, hcoeff⟩ := begin_spec h first
  rw [hcoeff p h1]
  unfold Constraint.touches Constraint.begin at ht
  refine coeffOf_eq_zero fun u hu => ?_
  split at ht
  · next hb =>
    rw [hb] at hu
    exact nomatch hu
  · next t rest hb =>
    rw [hb] at hu hasc
    have hge := decide_eq_false_iff_not.mp ht
    rcases List.mem_cons.mp hu with rfl | hu
    · omega
    · have := (List.pairwise_cons.mp hasc).1 u hu
      omega

theorem touches_unit {c : Constraint} (h : Ascending c.terms) (first : Nat) :
    c.touches .unit first = false := by
  obtain ⟨-, hfrom, -⟩ := begin_spec h first
  unfold Constraint.touches Constraint.begin
  split
  · rfl
  · next t rest hb =>
    rw [hb] at hfrom
    have hle := hfrom t List.mem_cons_self
    exact decide_eq_false (Nat.not_lt.mpr hle)

theorem sum_untouched {c : Constraint} (h : Ascending c.terms) {s : Shape} {first : Nat}
    (ht : c.touches s first = false) (w : Word s) : c.sum first w = 0 := by
  have hlen := frontier_length s w
  rw [Constraint.sum, linearSum_congr _ _ fun p h1 h2 => coeffOf_untouched h ht h1 (by omega),
    linearSum_zero]

theorem sum_leaf {c : Constraint} (h : Ascending c.terms) (first : Nat) (v : Int) :
    c.sum (s := .leaf) first v = c.coefficient first * v := by
  rw [coefficient_eq h]
  exact Int.add_zero _

theorem sum_pair (c : Constraint) {h t : Shape} (first : Nat) (w : Word (.pair h t)) :
    c.sum first w = c.sum first w.1 + c.sum (first + h.width) w.2 := linearSum_pair _ first w

/-! ## The tables -/

abbrev PlaceKey := NodeKey × Nat

/-- Words by their sum, the sums ascending. -/
abbrev Sums (C : Type) := List (Int × C)

structure Caches where
  partitions : Table fun k : PlaceKey => Sums (Code k.1.1)
  ranges : Table fun _ : PlaceKey => Int × Int
  filtered : Table fun k : PlaceKey × Int => Code k.1.1.1

def Caches.empty : Caches := ⟨[], [], []⟩

abbrev Knap := StateT Caches (Except Failure)

/-! ## Ranges -/

def rangeLeaf (a : Int) (x : IntSet) : Except Failure (Int × Int) :=
  match multiply a (x.headD 0) with
  | .error e => .error e
  | .ok lo =>
    match multiply a (x.getLastD 0) with
    | .error e => .error e
    | .ok hi => .ok (min lo hi, max lo hi)

section Arcs

variable {C D : Type} (head : C → Knap (Int × Int)) (tail : D → Knap (Int × Int))

/-- The first arc gives the range, the others widen it. -/
def rangeArc (r : Option (Int × Int)) (a : Arc C D) : Knap (Option (Int × Int)) := do
  let h ← head a.prime
  let t ← tail a.sub
  let lo ← lift (add h.1 t.1)
  let hi ← lift (add h.2 t.2)
  match r with
  | none => pure (some (lo, hi))
  | some r => pure (some (min r.1 lo, max r.2 hi))

def rangeArcs (as : List (Arc C D)) : Knap (Int × Int) := do
  let r ← as.foldlM (rangeArc head tail) none
  pure (r.getD (0, 0))

end Arcs

/-- A range that is known, or computed for a code that a term touches. -/
def rangeNode (k : PlaceKey) (touched : Bool) (compute : Knap (Int × Int)) : Knap (Int × Int) :=
  remember Caches.ranges (fun t s => { s with ranges := t }) k
    (if touched = true then compute else pure (0, 0))

def range (c : Constraint) : (s : Shape) → Code s → Nat → Knap (Int × Int)
  | .unit, x, first => rangeNode (⟨.unit, x⟩, first) (c.touches .unit first) (pure (0, 0))
  | .leaf, x, first => rangeNode (⟨.leaf, x⟩, first) (c.touches .leaf first)
      (lift (rangeLeaf (c.coefficient first) x))
  | .pair h t, x, first => rangeNode (⟨.pair h t, x⟩, first) (c.touches (.pair h t) first)
      (rangeArcs (fun p => range c h p first) (fun q => range c t q (first + h.width)) x)

/-! ## Partitions -/

/-- The part joins what is there for its sum. -/
def mergeSum {C : Type} (join : C → C → C) (n : Int) (part : C) : Sums C → Sums C
  | [] => [(n, part)]
  | p :: out =>
    if n < p.1 then (n, part) :: p :: out
    else if n = p.1 then (p.1, join p.2 part) :: out
    else p :: mergeSum join n part out

/-- The values of a leaf by what they contribute. -/
def groupValues (a : Int) : List Int → Sums (List Int) → Except Failure (Sums (List Int))
  | [], groups => .ok groups
  | v :: vs, groups =>
    match multiply a v with
    | .error e => .error e
    | .ok n => groupValues a vs (mergeSum (· ++ ·) n [v] groups)

def partitionLeaf (a : Int) (x : IntSet) : Except Failure (Sums IntSet) :=
  (groupValues a x []).map fun groups => groups.map fun p => (p.1, IntSet.of p.2)

section Rectangles

variable {C D R : Type} (join : R → R → R) (rect : C → D → R)

def crossTail (n : Int) (prime : C) : Sums D → Sums R → Except Failure (Sums R)
  | [], out => .ok out
  | q :: ts, out =>
    match add n q.1 with
    | .error e => .error e
    | .ok m => crossTail n prime ts (mergeSum join m (rect prime q.2) out)

/-- Every part of the head with every part of the tail. -/
def crossSums (ts : Sums D) : Sums C → Sums R → Except Failure (Sums R)
  | [], out => .ok out
  | p :: hs, out =>
    match crossTail join rect p.1 p.2 ts out with
    | .error e => .error e
    | .ok out => crossSums ts hs out

def partitionArc (head : C → Knap (Sums C)) (tail : D → Knap (Sums D)) (out : Sums R)
    (a : Arc C D) : Knap (Sums R) := do
  let hs ← head a.prime
  let ts ← tail a.sub
  lift (crossSums join rect ts hs out)

end Rectangles

def partitionNode (k : PlaceKey) (touched : Bool) (compute : Knap (Sums (Code k.1.1))) :
    Knap (Sums (Code k.1.1)) :=
  remember Caches.partitions (fun t s => { s with partitions := t }) k
    (if touched = true then compute else pure [(0, k.1.2)])

section Diagrams

variable (N : Numbering)

def partition (c : Constraint) : (s : Shape) → Code s → Nat → Knap (Sums (Code s))
  | .unit, x, first => partitionNode (⟨.unit, x⟩, first) (c.touches .unit first) (pure [])
  | .leaf, x, first => partitionNode (⟨.leaf, x⟩, first) (c.touches .leaf first)
      (lift (partitionLeaf (c.coefficient first) x))
  | .pair h t, x, first => partitionNode (⟨.pair h t, x⟩, first) (c.touches (.pair h t) first)
      (List.foldlM (partitionArc (algebra N (.pair h t)).join
        (rectangle (algebra N h) (algebra N t)) (fun p => partition c h p first)
        fun q => partition c t q (first + h.width)) [] x)

/-! ## Filtering -/

def filterLeaf (c : Constraint) (a target : Int) : List Int → List Int → Except Failure (List Int)
  | [], vs => .ok vs
  | v :: rest, vs =>
    match multiply a v with
    | .error e => .error e
    | .ok n =>
      filterLeaf c a target rest
        (if (if c.atMost then n ≤ target else n = target) then vs ++ [v] else vs)

section Arcs

variable {C D R : Type} [DecidableEq D] (join : R → R → R) (rect : C → D → R) (none : D)

/-- The tail of a part of the head is filtered by what its sum leaves of the target. -/
def filterPart (tail : Int → Knap D) (target : Int) (out : R) (p : Int × C) : Knap R := do
  let residual ← lift (subtract target p.1)
  let y ← tail residual
  pure (if y ≠ none then join out (rect p.2 y) else out)

def filterArc (head : C → Knap (Sums C)) (tail : D → Int → Knap D) (target : Int) (out : R)
    (a : Arc C D) : Knap R := do
  let hs ← head a.prime
  hs.foldlM (filterPart join rect none (tail a.sub) target) out

end Arcs

/-- The range decides, or the code is filtered. -/
def filterNode {C : Type} [DecidableEq C] (c : Constraint) (none x : C) (target : Int)
    (range : Knap (Int × Int)) (compute : Knap C) : Knap C := do
  let r ← range
  if target < r.1 ∨ (c.atMost = false ∧ r.2 < target) then pure none
  else if (c.atMost = true ∧ r.2 ≤ target) ∨ (r.1 = r.2 ∧ r.1 = target) then pure x
  else compute

def filterKept (k : PlaceKey × Int) (none : Code k.1.1.1) (compute : Knap (Code k.1.1.1)) :
    Knap (Code k.1.1.1) :=
  if k.1.1.2 = none then pure k.1.1.2
  else remember Caches.filtered (fun t s => { s with filtered := t }) k compute

/-- The words of a code whose sum meets the target. -/
def apply (c : Constraint) : (s : Shape) → Code s → Nat → Int → Knap (Code s)
  | .unit, x, first, target =>
    filterKept ((⟨.unit, x⟩, first), target) (algebra N .unit).none
      (filterNode c (algebra N .unit).none x target (range c .unit x first)
        (pure (algebra N .unit).none))
  | .leaf, x, first, target =>
    filterKept ((⟨.leaf, x⟩, first), target) (algebra N .leaf).none
      (filterNode c (algebra N .leaf).none x target (range c .leaf x first)
        (lift ((filterLeaf c (c.coefficient first) target x []).map IntSet.of)))
  | .pair h t, x, first, target =>
    filterKept ((⟨.pair h t, x⟩, first), target) (algebra N (.pair h t)).none
      (filterNode c (algebra N (.pair h t)).none x target (range c (.pair h t) x first)
        (List.foldlM (filterArc (algebra N (.pair h t)).join
          (rectangle (algebra N h) (algebra N t)) (algebra N t).none
          (fun p => partition N c h p first) (fun q => apply c t q (first + h.width)) target)
          (algebra N (.pair h t)).none x))

end Diagrams

/-! ## What the answers mean -/

section Right

variable (N : Numbering) (c : Constraint)

/-- Bounds of the sums of a code. -/
def Bounds {s : Shape} (x : Code s) (first : Nat) (r : Int × Int) : Prop :=
  ∀ w ∈ den s x, r.1 ≤ c.sum first w ∧ c.sum first w ≤ r.2

/-- The range of a code, 0 where no term touches it. -/
def RangeOf {s : Shape} (x : Code s) (first : Nat) (r : Int × Int) : Prop :=
  Bounds c x first r ∧ (c.touches s first = false → r = (0, 0))

/-- A part of a set of words, all of one sum. -/
def PartOf {s : Shape} (S : Set (Word s)) (first : Nat) (n : Int) (d : Code s) : Prop :=
  Canon N s d ∧ d ≠ (algebra N s).none ∧ ∀ w ∈ den s d, w ∈ S ∧ c.sum first w = n

/-- The words of a code by their sum. -/
def PartsOf {s : Shape} (x : Code s) (first : Nat) (out : Sums (Code s)) : Prop :=
  (∀ p ∈ out, PartOf N c (den s x) first p.1 p.2) ∧ ∀ w ∈ den s x, ∃ p ∈ out, w ∈ den s p.2

/-- The words of a code whose sum meets the target. -/
def FilterOf {s : Shape} (x : Code s) (first : Nat) (target : Int) (y : Code s) : Prop :=
  Canon N s y ∧ ∀ w, w ∈ den s y ↔ w ∈ den s x ∧ c.Meets target first w

/-- Every answer kept is right. -/
structure Right (s : Caches) : Prop where
  ranges : Sound (fun k r => RangeOf c k.1.2 k.2 r) s.ranges
  partitions : Sound (fun k out => PartsOf N c k.1.2 k.2 out) s.partitions
  filtered : Sound (fun k y => FilterOf N c k.1.1.2 k.1.2 k.2 y) s.filtered

theorem right_empty : Right N c .empty := ⟨sound_nil, sound_nil, sound_nil⟩

/-- With right answers kept, a value of `Q` or an overflow. -/
abbrev KnapGives {A : Type} (Q : A → Prop) (m : Knap A) : Prop :=
  Gives (Right N c) Q Failure.isOverflow m

variable {N c}

theorem gives_rangeNode {k : PlaceKey} {compute : Knap (Int × Int)} (hc : Ascending c.terms)
    (h : KnapGives N c (Bounds c k.1.2 k.2) compute) :
    KnapGives N c (RangeOf c k.1.2 k.2) (rangeNode k (c.touches k.1.1 k.2) compute) := by
  have hget : ∀ s r, Right N c s → find s.ranges k = some r → RangeOf c k.1.2 k.2 r :=
    fun s r hs hf => hs.ranges.find hf
  have hput : ∀ s r, Right N c s → RangeOf c k.1.2 k.2 r →
      Right N c { s with ranges := ⟨k, r⟩ :: s.ranges } :=
    fun s r hs hr => { hs with ranges := hs.ranges.cons hr }
  refine gives_remember Caches.ranges (fun t s => { s with ranges := t }) hget hput ?_
  split
  · next ht => exact h.mono fun r hr => ⟨hr, fun hno => absurd (ht.symm.trans hno) nofun⟩
  · next ht =>
    refine gives_pure ⟨fun w _ => ?_, fun _ => rfl⟩
    rw [sum_untouched hc (Bool.eq_false_iff.mpr ht)]
    exact ⟨Int.le_refl 0, Int.le_refl 0⟩

theorem gives_partitionNode {k : PlaceKey} {compute : Knap (Sums (Code k.1.1))}
    (hc : Ascending c.terms) (hx : Canon N k.1.1 k.1.2) (hne : k.1.2 ≠ (algebra N k.1.1).none)
    (h : KnapGives N c (PartsOf N c k.1.2 k.2) compute) :
    KnapGives N c (PartsOf N c k.1.2 k.2) (partitionNode k (c.touches k.1.1 k.2) compute) := by
  have hget : ∀ s out, Right N c s → find s.partitions k = some out →
      PartsOf N c k.1.2 k.2 out := fun s out hs hf => hs.partitions.find hf
  have hput : ∀ s out, Right N c s → PartsOf N c k.1.2 k.2 out →
      Right N c { s with partitions := ⟨k, out⟩ :: s.partitions } :=
    fun s out hs hout => { hs with partitions := hs.partitions.cons hout }
  refine gives_remember Caches.partitions (fun t s => { s with partitions := t }) hget hput ?_
  split
  · exact h
  · next ht =>
    refine gives_pure ⟨fun p hp => ?_, fun w hw => ⟨_, List.mem_cons_self .., hw⟩⟩
    obtain rfl := List.mem_singleton.mp hp
    exact ⟨hx, hne, fun w hw => ⟨hw, sum_untouched hc (Bool.eq_false_iff.mpr ht) w⟩⟩

theorem gives_filterKept {k : PlaceKey × Int} {compute : Knap (Code k.1.1.1)}
    (hx : Canon N k.1.1.1 k.1.1.2)
    (h : k.1.1.2 ≠ (algebra N k.1.1.1).none →
      KnapGives N c (FilterOf N c k.1.1.2 k.1.2 k.2) compute) :
    KnapGives N c (FilterOf N c k.1.1.2 k.1.2 k.2)
      (filterKept k (algebra N k.1.1.1).none compute) := by
  unfold filterKept
  split
  · next hnone =>
    refine gives_pure ⟨hx, fun w => ⟨fun hw => ?_, fun hw => hw.1⟩⟩
    rw [hnone, (laws N k.1.1.1).den_none] at hw
    exact nomatch hw
  · next hne =>
    have hget : ∀ s y, Right N c s → find s.filtered k = some y →
        FilterOf N c k.1.1.2 k.1.2 k.2 y := fun s y hs hf => hs.filtered.find hf
    have hput : ∀ s y, Right N c s → FilterOf N c k.1.1.2 k.1.2 k.2 y →
        Right N c { s with filtered := ⟨k, y⟩ :: s.filtered } :=
      fun s y hs hy => { hs with filtered := hs.filtered.cons hy }
    exact gives_remember Caches.filtered (fun t s => { s with filtered := t }) hget hput (h hne)

/-! ### Ranges -/

theorem rangeLeaf_gives {x : IntSet} (hx : IntSet.Canon x) (hne : x ≠ []) (hc : Ascending c.terms)
    (first : Nat) : KnapGives N c (Bounds c (s := .leaf) x first)
      (lift (rangeLeaf (c.coefficient first) x)) := by
  obtain ⟨v, vs, rfl⟩ := List.exists_cons_of_ne_nil hne
  have hbounds : ∀ u ∈ v :: vs, v ≤ u ∧ u ≤ (v :: vs).getLastD 0 := by
    intro u hu
    constructor
    · rcases List.mem_cons.mp hu with rfl | hu
      · exact Int.le_refl u
      · exact Int.le_of_lt ((List.pairwise_cons.mp hx.1).1 u hu)
    · obtain ⟨pre, last, heq⟩ := List.eq_nil_or_concat (v :: vs) |>.resolve_left hne
      rw [List.concat_eq_append] at heq
      rw [heq, List.getLastD_concat]
      rw [heq] at hu hx
      rcases List.mem_append.mp hu with hu | hu
      · exact Int.le_of_lt ((List.pairwise_append.mp hx.1).2.2 u hu last
          (List.mem_singleton.mpr rfl))
      · exact Int.le_of_eq (List.mem_singleton.mp hu)
  refine gives_lift (fun r hr => ?_) fun e he => ?_
  · unfold rangeLeaf at hr
    split at hr
    · cases hr
    · next lo hlo =>
      split at hr
      · cases hr
      · next hi hhi =>
        cases hr
        obtain rfl := multiply_ok hlo
        obtain rfl := multiply_ok hhi
        rintro u hu
        obtain ⟨h1, h2⟩ := hbounds u hu
        have hsum := sum_leaf hc first u
        rcases Int.le_total 0 (c.coefficient first) with ha | ha
        · have hl := Int.mul_le_mul_of_nonneg_left h1 ha
          have hr := Int.mul_le_mul_of_nonneg_left h2 ha
          exact ⟨((Int.min_le_left _ _).trans hl).trans_eq hsum.symm,
            hsum.trans_le (hr.trans (Int.le_max_right _ _))⟩
        · have hl := Int.mul_le_mul_of_nonpos_left ha h1
          have hr := Int.mul_le_mul_of_nonpos_left ha h2
          exact ⟨((Int.min_le_right _ _).trans hr).trans_eq hsum.symm,
            hsum.trans_le (hl.trans (Int.le_max_left _ _))⟩
  · unfold rangeLeaf at he
    split at he
    · next hlo =>
      cases he
      exact multiply_error hlo
    · split at he
      · next hhi =>
        cases he
        exact multiply_error hhi
      · cases he

section Pair

variable {h t : Shape} {x : List (Arc (Code h) (Code t))} {first : Nat}

/-- A word of a pair is in the rectangle of an arc. -/
def InArc (a : Arc (Code h) (Code t)) (w : Word (.pair h t)) : Prop :=
  w.1 ∈ den h a.prime ∧ w.2 ∈ den t a.sub

theorem mem_den_pair {w : Word (.pair h t)} :
    w ∈ den (.pair h t) x ↔ ∃ a ∈ x, InArc a w := mem_nodeDen (den h) (den t)

theorem rangeArcs_gives {head : Code h → Knap (Int × Int)} {tail : Code t → Knap (Int × Int)}
    (hh : ∀ a ∈ x, KnapGives N c (RangeOf c a.prime first) (head a.prime))
    (ht : ∀ a ∈ x, KnapGives N c (RangeOf c a.sub (first + h.width)) (tail a.sub)) :
    KnapGives N c (Bounds c (s := .pair h t) x first) (rangeArcs head tail x) := by
  -- the range so far holds for every word but those of the arcs that are left
  let J : List (Arc (Code h) (Code t)) → Option (Int × Int) → Prop := fun rest r =>
    (∀ a ∈ rest, a ∈ x) ∧ ∀ w ∈ den (.pair h t) x, (∃ a ∈ rest, InArc a w) ∨
      ∃ b, r = some b ∧ b.1 ≤ c.sum first w ∧ c.sum first w ≤ b.2
  have hloop : KnapGives N c (J []) (x.foldlM (rangeArc head tail) none) := by
    refine gives_foldlM (J := J) (fun a rest r hJ => ?_) x none
      ⟨fun _ ha => ha, fun w hw => .inl (mem_den_pair.mp hw)⟩
    obtain ⟨hmem, hcover⟩ := hJ
    have ha := hmem a List.mem_cons_self
    refine (hh a ha).bind fun hr hhr => (ht a ha).bind fun tr htr => ?_
    refine (gives_lift (Q := (· = hr.1 + tr.1)) (fun _ => add_ok) fun _ => add_error).bind ?_
    rintro _ rfl
    refine (gives_lift (Q := (· = hr.2 + tr.2)) (fun _ => add_ok) fun _ => add_error).bind ?_
    rintro _ rfl
    have hmem' : ∀ b ∈ rest, b ∈ x := fun b hb => hmem b (List.mem_cons_of_mem a hb)
    have harc : ∀ w, InArc a w → hr.1 + tr.1 ≤ c.sum first w ∧ c.sum first w ≤ hr.2 + tr.2 := by
      rintro w ⟨h1, h2⟩
      have b1 := hhr.1 w.1 h1
      have b2 := htr.1 w.2 h2
      rw [sum_pair]
      omega
    cases r with
    | none =>
      refine gives_pure ⟨hmem', fun w hw => ?_⟩
      rcases hcover w hw with ⟨b, hb, hin⟩ | ⟨b, hb, -⟩
      · rcases List.mem_cons.mp hb with rfl | hb
        · exact .inr ⟨_, rfl, harc w hin⟩
        · exact .inl ⟨b, hb, hin⟩
      · cases hb
    | some r =>
      refine gives_pure ⟨hmem', fun w hw => ?_⟩
      rcases hcover w hw with ⟨b, hb, hin⟩ | ⟨b, hb, hold⟩
      · rcases List.mem_cons.mp hb with rfl | hb
        · have := harc w hin
          exact .inr ⟨_, rfl, by omega, by omega⟩
        · exact .inl ⟨b, hb, hin⟩
      · cases hb
        exact .inr ⟨_, rfl, by omega, by omega⟩
  refine hloop.bind fun r hr => gives_pure fun w hw => ?_
  rcases hr.2 w hw with ⟨b, hb, -⟩ | ⟨b, rfl, hb⟩
  · exact nomatch hb
  · exact hb

end Pair

theorem range_gives (hc : Ascending c.terms) : (s : Shape) → (x : Code s) → Canon N s x →
    x ≠ (algebra N s).none → (first : Nat) → KnapGives N c (RangeOf c x first) (range c s x first)
  | .unit, x, _, _, first => gives_rangeNode (k := (⟨.unit, x⟩, first)) hc
      (gives_pure fun _ _ => ⟨Int.le_refl 0, Int.le_refl 0⟩)
  | .leaf, x, hx, hne, first => gives_rangeNode (k := (⟨.leaf, x⟩, first)) hc
      (rangeLeaf_gives hx hne hc first)
  | .pair h t, x, hx, _, first => by
    have hx : NodeCanon (algebra N h) (algebra N t) (den h) (Canon N h) (Canon N t) x := hx
    exact gives_rangeNode (k := (⟨.pair h t, x⟩, first)) hc (rangeArcs_gives
      (fun a ha => range_gives hc h a.prime (hx.canon a ha).1 (hx.prime_ne a ha) first)
      fun a ha => range_gives hc t a.sub (hx.canon a ha).2 (hx.sub_ne a ha) (first + h.width))

/-! ### Partitions -/

section Merge

variable {C W : Type} {join : C → C → C} {G : Int → C → Prop} {M : C → W → Prop}

/-- What is merged for a sum has the property that all there is for that sum has. -/
theorem mergeSum_good (hjoin : ∀ n a b, G n a → G n b → G n (join a b)) {n : Int} {part : C}
    (hpart : G n part) : ∀ {out : Sums C}, (∀ p ∈ out, G p.1 p.2) →
      ∀ p ∈ mergeSum join n part out, G p.1 p.2 := by
  intro out
  induction out with
  | nil => exact fun _ p hp => List.mem_singleton.mp hp ▸ hpart
  | cons q out ih =>
    intro hout p hp
    obtain ⟨hq, hrest⟩ := List.forall_mem_cons.mp hout
    rw [mergeSum] at hp
    split at hp
    · rcases List.mem_cons.mp hp with rfl | hp
      · exact hpart
      · exact hout p hp
    · split at hp
      · next heq =>
        rcases List.mem_cons.mp hp with rfl | hp
        · exact hjoin _ _ _ hq (heq ▸ hpart)
        · exact hrest p hp
      · rcases List.mem_cons.mp hp with rfl | hp
        · exact hq
        · exact ih hrest p hp

/-- And nothing that was there or is merged is lost. -/
theorem mergeSum_holds (hjoin : ∀ n a b w, G n a → G n b → M a w ∨ M b w → M (join a b) w)
    {n : Int} {part : C} (hpart : G n part) {w : W} : ∀ {out : Sums C}, (∀ p ∈ out, G p.1 p.2) →
      (M part w ∨ ∃ p ∈ out, M p.2 w) → ∃ p ∈ mergeSum join n part out, M p.2 w := by
  intro out
  induction out with
  | nil =>
    rintro - (h | ⟨p, hp, -⟩)
    · exact ⟨_, List.mem_cons_self .., h⟩
    · exact nomatch hp
  | cons q out ih =>
    intro hout h
    obtain ⟨hq, hrest⟩ := List.forall_mem_cons.mp hout
    rw [mergeSum]
    split
    · rcases h with h | ⟨p, hp, h⟩
      · exact ⟨_, List.mem_cons_self .., h⟩
      · exact ⟨p, List.mem_cons_of_mem _ hp, h⟩
    · split
      · next heq =>
        have hpart' : G q.1 part := heq ▸ hpart
        rcases h with h | ⟨p, hp, h⟩
        · exact ⟨_, List.mem_cons_self .., hjoin _ _ _ _ hq hpart' (.inr h)⟩
        · rcases List.mem_cons.mp hp with rfl | hp
          · exact ⟨_, List.mem_cons_self .., hjoin _ _ _ _ hq hpart' (.inl h)⟩
          · exact ⟨p, List.mem_cons_of_mem _ hp, h⟩
      · rcases h with h | ⟨p, hp, h⟩
        · obtain ⟨p, hp, h⟩ := ih hrest (.inl h)
          exact ⟨p, List.mem_cons_of_mem _ hp, h⟩
        · rcases List.mem_cons.mp hp with rfl | hp
          · exact ⟨_, List.mem_cons_self .., h⟩
          · obtain ⟨p, hp, h⟩ := ih hrest (.inr ⟨p, hp, h⟩)
            exact ⟨p, List.mem_cons_of_mem _ hp, h⟩

end Merge

/-- A group of values of one contribution. -/
def GroupOf (x : IntSet) (a n : Int) (vs : List Int) : Prop :=
  vs ≠ [] ∧ ∀ v ∈ vs, v ∈ x ∧ a * v = n

theorem groupValues_ok {x : IntSet} {a : Int} (rest : List Int) :
    ∀ {groups out : Sums (List Int)}, groupValues a rest groups = .ok out → (∀ v ∈ rest, v ∈ x) →
      (∀ p ∈ groups, GroupOf x a p.1 p.2) → (∀ p ∈ out, GroupOf x a p.1 p.2) ∧
        ∀ v, (v ∈ rest ∨ ∃ p ∈ groups, v ∈ p.2) → ∃ p ∈ out, v ∈ p.2 := by
  have hjoin : ∀ n vs us, GroupOf x a n vs → GroupOf x a n us → GroupOf x a n (vs ++ us) := by
    rintro n vs us ⟨hne, h1⟩ ⟨-, h2⟩
    exact ⟨fun h => hne (List.append_eq_nil_iff.mp h).1, fun v hv =>
      (List.mem_append.mp hv).elim (h1 v) (h2 v)⟩
  have hkeep : ∀ n (vs us : List Int) v, GroupOf x a n vs → GroupOf x a n us →
      v ∈ vs ∨ v ∈ us → v ∈ vs ++ us := fun _ _ _ _ _ _ h => List.mem_append.mpr h
  induction rest with
  | nil =>
    rintro groups _ ⟨⟩ - hg
    exact ⟨hg, fun v h => h.resolve_left List.not_mem_nil⟩
  | cons u rest ih =>
    intro groups out h hin hg
    obtain ⟨hu, hrest⟩ := List.forall_mem_cons.mp hin
    rw [groupValues] at h
    split at h
    · cases h
    · next n hn =>
      obtain rfl := multiply_ok hn
      have hpart : GroupOf x a (a * u) [u] := by
        refine ⟨List.cons_ne_nil _ _, fun v hv => ?_⟩
        obtain rfl := List.mem_singleton.mp hv
        exact ⟨hu, rfl⟩
      obtain ⟨hgood, hall⟩ := ih h hrest (mergeSum_good hjoin hpart hg)
      refine ⟨hgood, fun v hv => hall v ?_⟩
      rcases hv with hv | hv
      · rcases List.mem_cons.mp hv with rfl | hv
        · exact .inr (mergeSum_holds (M := fun vs v => v ∈ vs) hkeep hpart hg
            (.inl List.mem_cons_self))
        · exact .inl hv
      · exact .inr (mergeSum_holds (M := fun vs v => v ∈ vs) hkeep hpart hg (.inr hv))

theorem groupValues_error {a : Int} (rest : List Int) : ∀ {groups : Sums (List Int)} {e : Failure},
    groupValues a rest groups = .error e → e.isOverflow := by
  induction rest with
  | nil => exact fun h => nomatch h
  | cons u rest ih =>
    intro groups e h
    rw [groupValues] at h
    split at h
    · next hm =>
      cases h
      exact multiply_error hm
    · exact ih h

theorem partitionLeaf_gives {x : IntSet} (hx : IntSet.Canon x) (hc : Ascending c.terms)
    (first : Nat) : KnapGives N c (PartsOf N c (s := .leaf) x first)
      (lift (partitionLeaf (c.coefficient first) x)) := by
  refine gives_lift (fun out hout => ?_) fun e he => ?_
  · unfold partitionLeaf at hout
    cases hg : groupValues (c.coefficient first) x [] with
    | error e =>
      rw [hg] at hout
      cases hout
    | ok groups =>
      rw [hg] at hout
      cases hout
      obtain ⟨hgood, hall⟩ := groupValues_ok x hg (fun _ hv => hv) nofun
      constructor
      · intro p hp
        obtain ⟨g, hgin, rfl⟩ := List.mem_map.mp hp
        obtain ⟨hne, hvs⟩ := hgood g hgin
        refine ⟨IntSet.canon_of fun v hv => hx.2 v (hvs v hv).1, fun h => ?_, fun v hv => ?_⟩
        · obtain ⟨v, hv⟩ := List.exists_mem_of_ne_nil _ hne
          have hin : v ∈ IntSet.of g.2 := IntSet.mem_of.mpr hv
          rw [show IntSet.of g.2 = [] from h] at hin
          exact nomatch hin
        · have hv := hvs v (IntSet.mem_of.mp hv)
          exact ⟨hv.1, (sum_leaf hc first v).trans hv.2⟩
      · intro v hv
        obtain ⟨g, hgin, hin⟩ := hall v (.inl hv)
        exact ⟨_, List.mem_map_of_mem hgin, IntSet.mem_of.mpr hin⟩
  · unfold partitionLeaf at he
    cases hg : groupValues (c.coefficient first) x [] with
    | error e' =>
      rw [hg] at he
      cases he
      exact groupValues_error x hg
    | ok groups =>
      rw [hg] at he
      cases he

section Pair

variable {h t : Shape} {first : Nat} {S : Set (Word (.pair h t))}

theorem partOf_join {n : Int} {d d' : Code (.pair h t)} (hd : PartOf N c S first n d)
    (hd' : PartOf N c S first n d') :
    PartOf N c S first n ((algebra N (.pair h t)).join d d') := by
  have hl := laws N (.pair h t)
  refine ⟨hl.canon_join hd.1 hd'.1, hl.join_ne_none hd.1 hd'.1 hd.2.1, fun w hw => ?_⟩
  rw [hl.den_join hd.1 hd'.1] at hw
  exact hw.elim (hd.2.2 w) (hd'.2.2 w)

theorem mem_partOf_join {n : Int} {d d' : Code (.pair h t)} (w : Word (.pair h t))
    (hd : PartOf N c S first n d) (hd' : PartOf N c S first n d')
    (hw : w ∈ den (.pair h t) d ∨ w ∈ den (.pair h t) d') :
    w ∈ den (.pair h t) ((algebra N (.pair h t)).join d d') := by
  rw [(laws N (.pair h t)).den_join hd.1 hd'.1]
  exact hw

/-- The rectangle of two nodes, as a code of the pair. -/
abbrev rectCode (N : Numbering) (p : Code h) (q : Code t) : Code (.pair h t) :=
  rectangle (algebra N h) (algebra N t) p q

theorem mem_rectCode {p : Code h} {q : Code t} (hp : Canon N h p) (hq : Canon N t q)
    {w : Word (.pair h t)} : w ∈ den (.pair h t) (rectCode N p q) ↔ w.1 ∈ den h p ∧ w.2 ∈ den t q :=
  Set.ext_iff.mp (rectangle_correct (laws N h) (laws N t) hp hq).2 w

theorem canon_rectCode {p : Code h} {q : Code t} (hp : Canon N h p) (hq : Canon N t q) :
    Canon N (.pair h t) (rectCode N p q) :=
  (rectangle_correct (laws N h) (laws N t) hp hq).1

theorem partOf_rectCode {p : Code h} {q : Code t} {S₁ : Set (Word h)} {S₂ : Set (Word t)}
    (hS : ∀ w : Word (.pair h t), w.1 ∈ S₁ → w.2 ∈ S₂ → w ∈ S) {n m : Int}
    (hp : PartOf N c S₁ first n p) (hq : PartOf N c S₂ (first + h.width) m q) :
    PartOf N c S first (n + m) (rectCode N p q) := by
  refine ⟨canon_rectCode hp.1 hq.1, fun hnone => ?_, fun w hw => ?_⟩
  · obtain ⟨u, hu⟩ := (laws N h).nonempty_of_ne_none hp.1 hp.2.1
    obtain ⟨v, hv⟩ := (laws N t).nonempty_of_ne_none hq.1 hq.2.1
    have hin := (mem_rectCode hp.1 hq.1 (w := (u, v))).mpr ⟨hu, hv⟩
    rw [hnone, (laws N (.pair h t)).den_none] at hin
    exact nomatch hin
  · obtain ⟨h1, h2⟩ := (mem_rectCode hp.1 hq.1).mp hw
    obtain ⟨hin1, hsum1⟩ := hp.2.2 w.1 h1
    obtain ⟨hin2, hsum2⟩ := hq.2.2 w.2 h2
    exact ⟨hS w hin1 hin2, by rw [sum_pair, hsum1, hsum2]⟩

/-- The parts so far, all of them good, and a word they hold. -/
def Holds (out : Sums (Code (.pair h t))) (w : Word (.pair h t)) : Prop :=
  ∃ p ∈ out, w ∈ den (.pair h t) p.2

theorem crossTail_ok {S₁ : Set (Word h)} {S₂ : Set (Word t)}
    (hS : ∀ w : Word (.pair h t), w.1 ∈ S₁ → w.2 ∈ S₂ → w ∈ S) {n : Int} {p : Code h}
    (hp : PartOf N c S₁ first n p) (ts : Sums (Code t)) :
    ∀ {out out' : Sums (Code (.pair h t))},
      crossTail (algebra N (.pair h t)).join (rectCode N) n p ts out = .ok out' →
      (∀ q ∈ ts, PartOf N c S₂ (first + h.width) q.1 q.2) →
      (∀ q ∈ out, PartOf N c S first q.1 q.2) → (∀ q ∈ out', PartOf N c S first q.1 q.2) ∧
        ∀ w, (Holds out w ∨ ∃ q ∈ ts, w.1 ∈ den h p ∧ w.2 ∈ den t q.2) → Holds out' w := by
  induction ts with
  | nil =>
    rintro out _ ⟨⟩ - hout
    exact ⟨hout, fun w hw => hw.resolve_right fun ⟨_, hq, _⟩ => nomatch hq⟩
  | cons q ts ih =>
    intro out out' hrun hts hout
    obtain ⟨hq, hrest⟩ := List.forall_mem_cons.mp hts
    rw [crossTail] at hrun
    split at hrun
    · cases hrun
    · next m hm =>
      obtain rfl := add_ok hm
      have hpart := partOf_rectCode hS hp hq
      obtain ⟨hgood, hall⟩ := ih hrun hrest (mergeSum_good (fun _ _ _ => partOf_join) hpart hout)
      have hmerge : ∀ w, (w ∈ den (.pair h t) (rectCode N p q.2) ∨ Holds out w) →
          Holds (mergeSum (algebra N (.pair h t)).join (n + q.1) (rectCode N p q.2) out) w :=
        fun w => mergeSum_holds (G := PartOf N c S first)
          (M := fun d w => w ∈ den (.pair h t) d) (fun _ _ _ w => mem_partOf_join w) hpart hout
      refine ⟨hgood, fun w hw => hall w ?_⟩
      rcases hw with hw | ⟨r, hr, h1, h2⟩
      · exact .inl (hmerge w (.inr hw))
      · rcases List.mem_cons.mp hr with rfl | hr
        · exact .inl (hmerge w (.inl ((mem_rectCode hp.1 hq.1).mpr ⟨h1, h2⟩)))
        · exact .inr ⟨r, hr, h1, h2⟩

theorem crossTail_error {C D R : Type} {join : R → R → R} {rect : C → D → R} {n : Int} {p : C}
    (ts : Sums D) : ∀ {out : Sums R} {e : Failure},
      crossTail join rect n p ts out = .error e → e.isOverflow := by
  induction ts with
  | nil => exact fun h => nomatch h
  | cons q ts ih =>
    intro out e h
    rw [crossTail] at h
    split at h
    · next hadd =>
      cases h
      exact add_error hadd
    · exact ih h

theorem crossSums_ok {S₁ : Set (Word h)} {S₂ : Set (Word t)}
    (hS : ∀ w : Word (.pair h t), w.1 ∈ S₁ → w.2 ∈ S₂ → w ∈ S) {ts : Sums (Code t)}
    (hts : ∀ q ∈ ts, PartOf N c S₂ (first + h.width) q.1 q.2) (hs : Sums (Code h)) :
    ∀ {out out' : Sums (Code (.pair h t))},
      crossSums (algebra N (.pair h t)).join (rectCode N) ts hs out = .ok out' →
      (∀ p ∈ hs, PartOf N c S₁ first p.1 p.2) →
      (∀ q ∈ out, PartOf N c S first q.1 q.2) → (∀ q ∈ out', PartOf N c S first q.1 q.2) ∧
        ∀ w, (Holds out w ∨ ∃ p ∈ hs, ∃ q ∈ ts, w.1 ∈ den h p.2 ∧ w.2 ∈ den t q.2) →
          Holds out' w := by
  induction hs with
  | nil =>
    rintro out _ ⟨⟩ - hout
    exact ⟨hout, fun w hw => hw.resolve_right fun ⟨_, hp, _⟩ => nomatch hp⟩
  | cons p hs ih =>
    intro out out' hrun hhs hout
    obtain ⟨hp, hrest⟩ := List.forall_mem_cons.mp hhs
    rw [crossSums] at hrun
    split at hrun
    · cases hrun
    · next mid hmid =>
      obtain ⟨hgood, hall⟩ := crossTail_ok hS hp ts hmid hts hout
      obtain ⟨hgood', hall'⟩ := ih hrun hrest hgood
      refine ⟨hgood', fun w hw => hall' w ?_⟩
      rcases hw with hw | ⟨r, hr, q, hq, h12⟩
      · exact .inl (hall w (.inl hw))
      · rcases List.mem_cons.mp hr with rfl | hr
        · exact .inl (hall w (.inr ⟨q, hq, h12⟩))
        · exact .inr ⟨r, hr, q, hq, h12⟩

theorem crossSums_error {C D R : Type} {join : R → R → R} {rect : C → D → R} {ts : Sums D}
    (hs : Sums C) : ∀ {out : Sums R} {e : Failure},
      crossSums join rect ts hs out = .error e → e.isOverflow := by
  induction hs with
  | nil => exact fun h => nomatch h
  | cons p hs ih =>
    intro out e h
    rw [crossSums] at h
    split at h
    · next htail =>
      cases h
      exact crossTail_error ts htail
    · exact ih h

theorem partitionArcs_gives {x : List (Arc (Code h) (Code t))}
    {head : Code h → Knap (Sums (Code h))} {tail : Code t → Knap (Sums (Code t))}
    (hh : ∀ a ∈ x, KnapGives N c (PartsOf N c a.prime first) (head a.prime))
    (ht : ∀ a ∈ x, KnapGives N c (PartsOf N c a.sub (first + h.width)) (tail a.sub)) :
    KnapGives N c (PartsOf N c (s := .pair h t) x first)
      (x.foldlM (partitionArc (algebra N (.pair h t)).join (rectCode N) head tail) []) := by
  -- the parts so far hold every word but those of the arcs that are left
  let J : List (Arc (Code h) (Code t)) → Sums (Code (.pair h t)) → Prop := fun rest out =>
    (∀ a ∈ rest, a ∈ x) ∧ (∀ p ∈ out, PartOf N c (den (.pair h t) x) first p.1 p.2) ∧
      ∀ w ∈ den (.pair h t) x, (∃ a ∈ rest, InArc a w) ∨ Holds out w
  have hloop : KnapGives N c (J [])
      (x.foldlM (partitionArc (algebra N (.pair h t)).join (rectCode N) head tail) []) := by
    refine gives_foldlM (J := J) (fun a rest out hJ => ?_) x []
      ⟨fun _ ha => ha, nofun, fun w hw => .inl (mem_den_pair.mp hw)⟩
    obtain ⟨hmem, hout, hcover⟩ := hJ
    have ha := hmem a List.mem_cons_self
    refine (hh a ha).bind fun hs hhs => (ht a ha).bind fun ts hts => ?_
    have hS : ∀ w : Word (.pair h t), w.1 ∈ den h a.prime → w.2 ∈ den t a.sub →
        w ∈ den (.pair h t) x := fun w h1 h2 => mem_den_pair.mpr ⟨a, ha, h1, h2⟩
    refine gives_lift (fun out' hrun => ?_) fun e he => crossSums_error hs he
    obtain ⟨hgood, hall⟩ := crossSums_ok hS hts.1 hs hrun hhs.1 hout
    refine ⟨fun b hb => hmem b (List.mem_cons_of_mem a hb), hgood, fun w hw => ?_⟩
    rcases hcover w hw with ⟨b, hb, hin⟩ | hold
    · rcases List.mem_cons.mp hb with rfl | hb
      · obtain ⟨p, hp, h1⟩ := hhs.2 w.1 hin.1
        obtain ⟨q, hq, h2⟩ := hts.2 w.2 hin.2
        exact .inr (hall w (.inr ⟨p, hp, q, hq, h1, h2⟩))
      · exact .inl ⟨b, hb, hin⟩
    · exact .inr (hall w (.inl hold))
  refine hloop.mono fun out hout => ⟨hout.2.1, fun w hw => ?_⟩
  exact (hout.2.2 w hw).resolve_left fun ⟨_, ha, _⟩ => nomatch ha

end Pair

theorem partition_gives (hc : Ascending c.terms) : (s : Shape) → (x : Code s) → Canon N s x →
    x ≠ (algebra N s).none → (first : Nat) →
    KnapGives N c (PartsOf N c x first) (partition N c s x first)
  | .unit, x, hx, hne, first => by
    have hno := touches_unit hc first
    have hskip : partition N c .unit x first =
        partitionNode (⟨.unit, x⟩, first) (c.touches .unit first) (pure [(0, x)]) := by
      rw [partition, hno]
      rfl
    rw [hskip]
    refine gives_partitionNode (k := (⟨.unit, x⟩, first)) hc hx hne (gives_pure ⟨fun p hp => ?_,
      fun w hw => ⟨_, List.mem_cons_self .., hw⟩⟩)
    obtain rfl := List.mem_singleton.mp hp
    exact ⟨hx, hne, fun w hw => ⟨hw, rfl⟩⟩
  | .leaf, x, hx, hne, first => gives_partitionNode (k := (⟨.leaf, x⟩, first)) hc hx hne
      (partitionLeaf_gives hx hc first)
  | .pair h t, x, hx, hne, first => by
    have hx' : NodeCanon (algebra N h) (algebra N t) (den h) (Canon N h) (Canon N t) x := hx
    exact gives_partitionNode (k := (⟨.pair h t, x⟩, first)) hc hx hne (partitionArcs_gives
      (fun a ha => partition_gives hc h a.prime (hx'.canon a ha).1 (hx'.prime_ne a ha) first)
      fun a ha => partition_gives hc t a.sub (hx'.canon a ha).2 (hx'.sub_ne a ha) (first + h.width))

/-! ### Filtering -/

theorem filterLeaf_ok {a target : Int} (rest : List Int) : ∀ {vs out : List Int},
    filterLeaf c a target rest vs = .ok out → ∀ v, v ∈ out ↔ v ∈ vs ∨
      (v ∈ rest ∧ if c.atMost then a * v ≤ target else a * v = target) := by
  induction rest with
  | nil =>
    rintro vs _ ⟨⟩ v
    simp
  | cons u rest ih =>
    intro vs out h v
    rw [filterLeaf] at h
    split at h
    · cases h
    · next n hn =>
      obtain rfl := multiply_ok hn
      rw [ih h v, List.mem_cons]
      by_cases hk : if c.atMost then a * u ≤ target else a * u = target
      · rw [if_pos hk, List.mem_append, List.mem_singleton]
        constructor
        · rintro ((hv | rfl) | hv)
          · exact .inl hv
          · exact .inr ⟨.inl rfl, hk⟩
          · exact .inr ⟨.inr hv.1, hv.2⟩
        · rintro (hv | ⟨rfl | hv, hm⟩)
          · exact .inl (.inl hv)
          · exact .inl (.inr rfl)
          · exact .inr ⟨hv, hm⟩
      · rw [if_neg hk]
        constructor
        · exact Or.imp_right fun hv => ⟨.inr hv.1, hv.2⟩
        · rintro (hv | ⟨rfl | hv, hm⟩)
          · exact .inl hv
          · exact absurd hm hk
          · exact .inr ⟨hv, hm⟩

theorem filterLeaf_error {a target : Int} (rest : List Int) : ∀ {vs : List Int} {e : Failure},
    filterLeaf c a target rest vs = .error e → e.isOverflow := by
  induction rest with
  | nil => exact fun h => nomatch h
  | cons u rest ih =>
    intro vs e h
    rw [filterLeaf] at h
    split at h
    · next hm =>
      cases h
      exact multiply_error hm
    · exact ih h

theorem filterLeaf_gives {x : IntSet} (hx : IntSet.Canon x) (hc : Ascending c.terms) (first : Nat)
    (target : Int) : KnapGives N c (FilterOf N c (s := .leaf) x first target)
      (lift ((filterLeaf c (c.coefficient first) target x []).map IntSet.of)) := by
  have hmeets : ∀ v : Int, c.Meets (s := .leaf) target first v ↔
      if c.atMost then c.coefficient first * v ≤ target else c.coefficient first * v = target := by
    intro v
    unfold Constraint.Meets
    rw [sum_leaf hc first v]
  refine gives_lift (fun out hout => ?_) fun e he => ?_
  · cases hf : filterLeaf c (c.coefficient first) target x [] with
    | error e =>
      rw [hf] at hout
      cases hout
    | ok vs =>
      rw [hf] at hout
      cases hout
      have hmem : ∀ v, v ∈ IntSet.of vs ↔ v ∈ x ∧ c.Meets (s := .leaf) target first v := by
        intro v
        rw [IntSet.mem_of, filterLeaf_ok x hf v, hmeets]
        simp
      exact ⟨IntSet.canon_of fun v hv => hx.2 v ((hmem v).mp (IntSet.mem_of.mpr hv)).1, hmem⟩
  · cases hf : filterLeaf c (c.coefficient first) target x [] with
    | error e' =>
      rw [hf] at he
      cases he
      exact filterLeaf_error x hf
    | ok vs =>
      rw [hf] at he
      cases he

/-- The range decides rightly, and where it does not a term touches the code. -/
theorem gives_filterNode {s : Shape} {x : Code s} {first : Nat} {target : Int}
    {range : Knap (Int × Int)} {compute : Knap (Code s)} (hx : Canon N s x)
    (hrange : KnapGives N c (RangeOf c x first) range)
    (h : c.touches s first = true → KnapGives N c (FilterOf N c x first target) compute) :
    KnapGives N c (FilterOf N c x first target)
      (filterNode c (algebra N s).none x target range compute) := by
  refine hrange.bind fun r hr => ?_
  split
  · next hout =>
    refine gives_pure ⟨(laws N s).canon_none, fun w => ⟨fun hw => ?_, fun ⟨hw, hm⟩ => ?_⟩⟩
    · rw [(laws N s).den_none] at hw
      exact nomatch hw
    · have hb := hr.1 w hw
      unfold Constraint.Meets at hm
      split at hm
      · next hle =>
        rcases hout with hout | ⟨hno, -⟩
        · omega
        · rw [hle] at hno
          cases hno
      · rcases hout with hout | ⟨-, hout⟩ <;> omega
  · split
    · next hin =>
      refine gives_pure ⟨hx, fun w => ⟨fun hw => ⟨hw, ?_⟩, fun hw => hw.1⟩⟩
      have hb := hr.1 w hw
      unfold Constraint.Meets
      split
      · rcases hin with ⟨-, hin⟩ | ⟨h1, h2⟩ <;> omega
      · next hle =>
        rcases hin with ⟨hin, -⟩ | ⟨h1, h2⟩
        · exact absurd hin hle
        · omega
    · next hout hin =>
      refine h (Bool.of_not_eq_false fun hno => ?_)
      rw [hr.2 hno] at hout hin
      cases hm : c.atMost <;> simp [hm] at hout hin <;> omega

section Pair

variable {h t : Shape} {first : Nat} {target : Int} {x : List (Arc (Code h) (Code t))}

/-- What the head contributes is taken off the target of the tail. -/
theorem meets_pair (w : Word (.pair h t)) : c.Meets target first w ↔
    c.Meets (target - c.sum first w.1) (first + h.width) w.2 := by
  unfold Constraint.Meets
  rw [sum_pair]
  split <;> omega

/-- What was filtered so far is right, and nothing is missing but the words `Left`. -/
structure Filtering (N : Numbering) (c : Constraint) (x : List (Arc (Code h) (Code t)))
    (first : Nat) (target : Int) (Left : Word (.pair h t) → Prop) (out : Code (.pair h t)) :
    Prop where
  canon : Canon N (.pair h t) out
  sound : ∀ w ∈ den (.pair h t) out, w ∈ den (.pair h t) x ∧ c.Meets target first w
  complete : ∀ w ∈ den (.pair h t) x, c.Meets target first w → Left w ∨ w ∈ den (.pair h t) out

theorem filterPart_gives {a : Arc (Code h) (Code t)} (ha : a ∈ x)
    {tail : Int → Knap (Code t)} {Left Left' : Word (.pair h t) → Prop} {n : Int} {p : Code h}
    (hp : PartOf N c (den h a.prime) first n p)
    (htail : ∀ residual, KnapGives N c (FilterOf N c a.sub (first + h.width) residual)
      (tail residual))
    (hleft : ∀ w, Left w → Left' w ∨ (w.1 ∈ den h p ∧ w.2 ∈ den t a.sub))
    {out : Code (.pair h t)} (hout : Filtering N c x first target Left out) :
    KnapGives N c (Filtering N c x first target Left')
      (filterPart (algebra N (.pair h t)).join (rectCode N) (algebra N t).none tail target out
        (n, p)) := by
  refine (gives_lift (Q := (· = target - n)) (fun _ => subtract_ok) fun _ => subtract_error).bind ?_
  rintro _ rfl
  refine (htail (target - n)).bind fun y hy => gives_pure ?_
  have hmeets : ∀ w : Word (.pair h t), w.1 ∈ den h p →
      (c.Meets target first w ↔ c.Meets (target - n) (first + h.width) w.2) := by
    intro w h1
    rw [meets_pair, (hp.2.2 w.1 h1).2]
  split
  · have hl := laws N (.pair h t)
    have hrect := canon_rectCode hp.1 hy.1
    refine ⟨hl.canon_join hout.canon hrect, fun w hw => ?_, fun w hw hm => ?_⟩
    · rw [hl.den_join hout.canon hrect] at hw
      rcases hw with hw | hw
      · exact hout.sound w hw
      · obtain ⟨h1, h2⟩ := (mem_rectCode hp.1 hy.1).mp hw
        obtain ⟨h2, hm⟩ := (hy.2 w.2).mp h2
        exact ⟨mem_den_pair.mpr ⟨a, ha, (hp.2.2 w.1 h1).1, h2⟩, (hmeets w h1).mpr hm⟩
    · rw [hl.den_join hout.canon hrect]
      rcases hout.complete w hw hm with hl | hin
      · rcases hleft w hl with hl | ⟨h1, h2⟩
        · exact .inl hl
        · exact .inr (.inr ((mem_rectCode hp.1 hy.1).mpr
            ⟨h1, (hy.2 w.2).mpr ⟨h2, (hmeets w h1).mp hm⟩⟩))
      · exact .inr (.inl hin)
  · next hnone =>
    rw [not_not] at hnone
    refine ⟨hout.canon, hout.sound, fun w hw hm => ?_⟩
    rcases hout.complete w hw hm with hl | hin
    · rcases hleft w hl with hl | ⟨h1, h2⟩
      · exact .inl hl
      · have hin := (hy.2 w.2).mpr ⟨h2, (hmeets w h1).mp hm⟩
        rw [hnone, (laws N t).den_none] at hin
        exact nomatch hin
    · exact .inr hin

theorem filterArcs_gives {head : Code h → Knap
    (Sums (Code h))} {tail : Code t → Int → Knap (Code t)}
    (hh : ∀ a ∈ x, KnapGives N c (PartsOf N c a.prime first) (head a.prime))
    (ht : ∀ a ∈ x, ∀ residual,
      KnapGives N c (FilterOf N c a.sub (first + h.width) residual) (tail a.sub residual)) :
    KnapGives N c (FilterOf N c (s := .pair h t) x first target)
      (x.foldlM (filterArc (algebra N (.pair h t)).join (rectCode N) (algebra N t).none head tail
        target) (algebra N (.pair h t)).none) := by
  let J : List (Arc (Code h) (Code t)) → Code (.pair h t) → Prop := fun rest out =>
    (∀ a ∈ rest, a ∈ x) ∧ Filtering N c x first target (fun w => ∃ a ∈ rest, InArc a w) out
  have hloop : KnapGives N c (J []) (x.foldlM (filterArc (algebra N (.pair h t)).join (rectCode N)
      (algebra N t).none head tail target) (algebra N (.pair h t)).none) := by
    refine gives_foldlM (J := J) (fun a rest out hJ => ?_) x _ ⟨fun _ ha => ha,
      (laws N (.pair h t)).canon_none, fun w hw => ?_, fun w hw _ => .inl (mem_den_pair.mp hw)⟩
    · obtain ⟨hmem, hout⟩ := hJ
      have ha := hmem a List.mem_cons_self
      refine (hh a ha).bind fun hs hhs => ?_
      -- within the arc, what is left is in one of the parts that are left
      let J' : Sums (Code h) → Code (.pair h t) → Prop := fun parts out =>
        (∀ p ∈ parts, p ∈ hs) ∧ Filtering N c x first target (fun w => (∃ b ∈ rest, InArc b w) ∨
          ∃ p ∈ parts, w.1 ∈ den h p.2 ∧ w.2 ∈ den t a.sub) out
      have hinner : KnapGives N c (J' []) (hs.foldlM (filterPart (algebra N (.pair h t)).join
          (rectCode N) (algebra N t).none (tail a.sub) target) out) := by
        refine gives_foldlM (J := J') (fun p parts out hJ' => ?_) hs out ⟨fun _ hp => hp,
          hout.canon, hout.sound, fun w hw hm => ?_⟩
        · obtain ⟨hin, hout⟩ := hJ'
          refine (filterPart_gives ha (hhs.1 p (hin p List.mem_cons_self)) (ht a ha)
            (fun w hl => ?_) hout).mono fun out' hout' =>
              ⟨fun q hq => hin q (List.mem_cons_of_mem p hq), hout'⟩
          rcases hl with hl | ⟨q, hq, hw⟩
          · exact .inl (.inl hl)
          · rcases List.mem_cons.mp hq with rfl | hq
            · exact .inr hw
            · exact .inl (.inr ⟨q, hq, hw⟩)
        · refine (hout.complete w hw hm).imp_left fun ⟨b, hb, hin⟩ => ?_
          rcases List.mem_cons.mp hb with rfl | hb
          · obtain ⟨p, hp, h1⟩ := hhs.2 w.1 hin.1
            exact .inr ⟨p, hp, h1, hin.2⟩
          · exact .inl ⟨b, hb, hin⟩
      refine hinner.mono fun out' hJ' => ⟨fun b hb => hmem b (List.mem_cons_of_mem a hb),
        hJ'.2.canon, hJ'.2.sound, fun w hw hm => ?_⟩
      refine (hJ'.2.complete w hw hm).imp_left fun hl => hl.resolve_right ?_
      exact fun ⟨_, hp, _⟩ => nomatch hp
    · rw [(laws N (.pair h t)).den_none] at hw
      exact nomatch hw
  refine hloop.mono fun out hJ => ⟨hJ.2.canon, fun w => ⟨hJ.2.sound w, fun ⟨hw, hm⟩ => ?_⟩⟩
  exact (hJ.2.complete w hw hm).resolve_left fun ⟨_, ha, _⟩ => nomatch ha

end Pair

/-- The words of a code whose sum meets a target, or an overflow. -/
theorem apply_gives (hc : Ascending c.terms) : (s : Shape) → (x : Code s) → Canon N s x →
    (first : Nat) → (target : Int) →
    KnapGives N c (FilterOf N c x first target) (apply N c s x first target)
  | .unit, x, hx, first, target =>
    gives_filterKept (k := ((⟨.unit, x⟩, first), target)) hx fun hne =>
      gives_filterNode hx (range_gives hc .unit x hx hne first) fun htouch =>
        absurd (htouch.symm.trans (touches_unit hc first)) nofun
  | .leaf, x, hx, first, target =>
    gives_filterKept (k := ((⟨.leaf, x⟩, first), target)) hx fun hne =>
      gives_filterNode hx (range_gives hc .leaf x hx hne first) fun _ =>
        filterLeaf_gives hx hc first target
  | .pair h t, x, hx, first, target => by
    have hx' : NodeCanon (algebra N h) (algebra N t) (den h) (Canon N h) (Canon N t) x := hx
    refine gives_filterKept (k := ((⟨.pair h t, x⟩, first), target)) hx fun hne =>
      gives_filterNode hx (range_gives hc (.pair h t) x hx hne first) fun _ => ?_
    exact filterArcs_gives
      (fun a ha => partition_gives hc h a.prime (hx'.canon a ha).1 (hx'.prime_ne a ha) first)
      fun a ha residual => apply_gives hc t a.sub (hx'.canon a ha).2 (first + h.width) residual

end Right

end LibHSC.Linear
