import LibHSC.Library.Distributions
import LibHSC.Surface.Declarations
import LibHSC.Surface.Numerals
import LibHSC.Words
import Mathlib.Algebra.BigOperators.Fin

/-!
Counting a diagram when a leaf stands for several places of a free component: a value `v`
over `K` places represents as many markings as there are ways to distribute it. Two walks, the
plain weighted count and the one in which a place of each demanded leaf holds its demand.
-/

namespace LibHSC.Surface

open Distribution

/-! ## The declarations -/

/-- `(leaf-weight NAME K)` by leaf name: how many places it stands for, `K > 1` only. -/
structure LeafWeights where
  places : String → Option Int
  many : ∀ name k, places name = some k → 1 < k ∧ k ≤ 2147483647

def LeafWeights.none : LeafWeights := ⟨fun _ => Option.none, fun _ _ h => nomatch h⟩

/-- `K = 1` is the default and is not recorded. -/
def LeafWeights.set (weights : LeafWeights) (name : String) (k : Int)
    (hk : 1 ≤ k ∧ k ≤ 2147483647) : LeafWeights where
  places n := if n = name then (if k = 1 then Option.none else some k) else weights.places n
  many n k' h := by
    split at h
    · split at h
      · cases h
      · cases h
        omega
    · exact weights.many n k' h

theorem needInt_inInt32 {d : Datum} {v : Int} (h : needInt d = .ok v) : InInt32 v := by
  unfold needInt at h
  split at h
  · cases h
  · split at h
    · next hv =>
      cases h
      exact asInt_inInt32 hv
    · cases h

/-- `(leaf-weight NAME K)`. -/
def doLeafWeight (leaves : List String) (weights : LeafWeights) (form : Datum) :
    Except Thrown LeafWeights := do
  let name ← sym (← arg form 1 "leaf name")
  let number ← arg form 2 "number of places"
  match h : needInt number with
  | .error e => .error e
  | .ok k =>
    if hk : k < 1 then refuseForm form "a leaf stands for at least one place"
    else if name ∉ leaves then refuseForm form ("unknown leaf '" ++ name ++ "'")
    else .ok (weights.set name k ⟨by omega, (needInt_inInt32 h).2⟩)

/-- `(PLACE DEMAND) …`, by frontier position. -/
structure Demands where
  of : Nat → Option Int
  nonneg : ∀ p d, of p = some d → 0 ≤ d

def Demands.none : Demands := ⟨fun _ => Option.none, fun _ _ h => nomatch h⟩

def Demands.set (demands : Demands) (p : Nat) (d : Int) (hd : 0 ≤ d) : Demands where
  of q := if q = p then some d else demands.of q
  nonneg q d' h := by
    split at h
    · cases h
      exact hd
    · exact demands.nonneg q d' h

/-- The frontier position of a placed leaf. -/
def positionOf (order : List String) (name : String) : Option Nat := order.idxOf? name

/-- The demands of `(count-enabled RESULT (PLACE DEMAND) …)`. -/
def readDemands (order : List String) : List Datum → Demands → Except Thrown Demands
  | [], demands => .ok demands
  | term :: terms, demands =>
    if term.isAtom ∨ term.items.length ≠ 2 then refuseForm term "expected (PLACE DEMAND)"
    else match sym (term.item 0) with
      | .error e => .error e
      | .ok name => match positionOf order name, stoll (term.item 1).text with
        | .none, _ => refuseForm term "unknown enabling leaf"
        | some _, .none => .error .number
        | some p, some d =>
          if h : d < 0 ∨ (demands.of p).isSome then
            refuseForm term "negative or duplicate enabling demand"
          else readDemands order terms (demands.set p d (by omega))

/-! ## The two walks -/

/-- The answers for a node at a frontier position. -/
abbrev PlacedMemo := List ((NodeKey × Nat) × Nat)

/-- How many markings of a free component of `k` places hold `tokens`, as the library of large
integers is asked for it. -/
def binomial (tokens k : Int) : Nat := (sizeOfInt (tokens + k - 1)).choose (sizeOfInt (k - 1))

def weighLeaf (k : Int) (c : IntSet) : Nat := (c.map fun v => binomial v k).sum

/-- The weighted count of `c`, whose leftmost leaf sits at `base`. The same sort can sit at
several places, so the memo is keyed by the position too. -/
def weigherCount (weight : List Int) : (s : Shape) → Code s → Nat → PlacedMemo → Nat × PlacedMemo
  | .unit, _, _, memo => (1, memo)
  | .leaf, c, base, memo => (weighLeaf (weight.getD base 1) c, memo)
  | .pair h t, c, base, memo =>
    countNode (fun p => weigherCount weight h p base)
      (fun q => weigherCount weight t q (base + h.width)) (⟨.pair h t, c⟩, base) c memo

/-- The declarations are by name, the walk needs them by frontier position. -/
def perPosition (order : List String) (weights : LeafWeights) : List Int :=
  order.map fun name => (weights.places name).getD 1

def weightedCount (order : List String) (weights : LeafWeights) (s : Shape) (c : Code s) : Nat :=
  (weigherCount (perPosition order weights) s c 0 []).1

/-- The multiplicative binomial. -/
def waysLoop (base : Nat) : Nat → Nat
  | 0 => 1
  | i + 1 => waysLoop base i * (base + (i + 1)) / (i + 1)

def waysOf (tokens k : Int) : Nat :=
  if tokens < 0 then 0
  else waysLoop (max tokens (k - 1)).toNat (min tokens (k - 1)).toNat

def enabledLeaf (k demand : Int) (c : IntSet) : Nat :=
  (c.map fun v => if demand ≤ v then waysOf (v - demand) k else 0).sum

/-- A code that is not absent, answered from the memo when it is there. -/
def countPresent {C : Type} [DecidableEq C] (none c : C) (key : NodeKey × Nat) (value : Nat)
    (memo : PlacedMemo) : Nat × PlacedMemo :=
  if c = none then (0, memo) else Memo.remember key (fun memo => (value, memo)) memo

def enabledCounter (weights demands : Nat → Option Int) :
    (s : Shape) → Code s → Nat → PlacedMemo → Nat × PlacedMemo
  | .unit, c, first, memo => countPresent false c (⟨.unit, c⟩, first) 1 memo
  | .leaf, c, first, memo =>
    countPresent ([] : IntSet) c (⟨.leaf, c⟩, first)
      (enabledLeaf ((weights first).getD 1) ((demands first).getD 0) c) memo
  | .pair h t, c, first, memo =>
    countNode (fun p => enabledCounter weights demands h p first)
      (fun q => enabledCounter weights demands t q (first + h.width))
      (⟨.pair h t, c⟩, first) c memo

def weightAt (order : List String) (weights : LeafWeights) (p : Nat) : Option Int :=
  (order[p]?).bind weights.places

def enabledCount (order : List String) (weights : LeafWeights) (demands : Demands) (s : Shape)
    (c : Code s) : Nat :=
  (enabledCounter (weightAt order weights) demands.of s c 0 []).1

/-- `(count-enabled RESULT (PLACE DEMAND) …)`. -/
def doCountEnabled (order : List String) (weights : LeafWeights) (s : Shape) (c : Code s)
    (terms : List Datum) : Except Thrown Nat :=
  match readDemands order terms .none with
  | .error e => .error e
  | .ok demands => .ok (enabledCount order weights demands s c)

/-! ## Sums of products -/

section Weighed

variable (f : Nat → Int → Nat)

/-- The product over the leaves of what each value counts for, from position `base` on. -/
def leafProduct : Nat → List Int → Nat
  | _, [] => 1
  | base, v :: vs => f base v * leafProduct (base + 1) vs

/-- The sum of the products over the words of a code that sits at `base`. -/
def weighed (s : Shape) (c : Code s) (base : Nat) : Nat :=
  ((wordList s c).map fun w => leafProduct f base (frontier s w)).sum

/-- The right answer for a node at a position. -/
def Weighed (k : NodeKey × Nat) (n : Nat) : Prop := n = weighed f k.1.1 k.1.2 k.2

variable {f}

theorem leafProduct_append (us vs : List Int) : ∀ base,
    leafProduct f base (us ++ vs) = leafProduct f base us * leafProduct f
      (base + us.length) vs := by
  induction us with
  | nil => simp [leafProduct]
  | cons u us ih =>
    intro base
    rw [List.cons_append, leafProduct, leafProduct, ih, List.length_cons, Nat.mul_assoc,
      Nat.add_assoc base 1, Nat.add_comm 1]

theorem leafProduct_eq_prod (vs : List Int) : ∀ (n base : Nat), vs.length = n →
    leafProduct f base vs = ∏ i : Fin n, f (base + i) (vs.getD i 0) := by
  induction vs with
  | nil =>
    rintro _ base rfl
    rfl
  | cons v vs ih =>
    rintro _ base rfl
    rw [leafProduct, ih _ _ rfl, List.length_cons, Fin.prod_univ_succ]
    simp [Nat.add_assoc, Nat.add_comm 1]

theorem leafProduct_congr {g : Nat → Int → Nat} {vs : List Int} (h : ∀ v ∈ vs, ∀ p, f p v = g p v) :
    ∀ base, leafProduct f base vs = leafProduct g base vs := by
  induction vs with
  | nil => exact fun _ => rfl
  | cons v vs ih =>
    intro base
    rw [leafProduct, leafProduct, h v List.mem_cons_self,
      ih fun u hu => h u (List.mem_cons_of_mem v hu)]

/-- A node whose sides are answered right is answered right. -/
theorem gives_weighed {h t : Shape} {base : Nat} {c : List (Arc (Code h) (Code t))}
    {head : Code h → PlacedMemo → Nat × PlacedMemo}
    {tail : Code t → PlacedMemo → Nat × PlacedMemo}
    (hh : ∀ a ∈ c, Memo.Gives (Weighed f) (Weighed f (⟨h, a.prime⟩, base)) (head a.prime))
    (ht : ∀ a ∈ c, Memo.Gives (Weighed f) (Weighed f (⟨t, a.sub⟩, base + h.width)) (tail a.sub)) :
    Memo.Gives (Weighed f) (Weighed f (⟨.pair h t, c⟩, base))
      (countNode head tail (⟨.pair h t, c⟩, base) c) := by
  have hsum : Memo.Gives (Weighed f) (· = 0 + ((arcWords (wordList h) (wordList t) c).map fun w =>
      leafProduct f base (frontier h w.1) *
        leafProduct f (base + h.width) (frontier t w.2)).sum) (sumArcs head tail c 0) :=
    sumArcs_gives (fun w => leafProduct f base (frontier h w))
      (fun w => leafProduct f (base + h.width) (frontier t w)) c hh ht 0
  have hprod : ∀ w : Word (.pair h t), leafProduct f base (frontier h w.1) *
      leafProduct f (base + h.width) (frontier t w.2) =
        leafProduct f base (frontier (.pair h t) w) := by
    intro w
    rw [frontier, leafProduct_append, frontier_length]
  simp only [Nat.zero_add] at hsum
  refine gives_countNode ?_ ?_
  · by_cases hc : c = []
    · exact .inl (by rw [hc]; rfl)
    · exact .inr hc
  · refine fun memo hmemo => ?_
    obtain ⟨hvalue, hkeep⟩ := hsum memo hmemo
    refine ⟨?_, hkeep⟩
    refine hvalue.trans ?_
    exact congrArg List.sum (List.map_congr_left fun w _ => hprod w)

end Weighed

/-! ## What each walk gives -/

section Walks

variable {N : Numbering}

theorem weighLeaf_weighed (weight : List Int) (c : IntSet) (base : Nat) :
    weighLeaf (weight.getD base 1) c =
      weighed (fun p v => binomial v (weight.getD p 1)) .leaf c base := by
  refine congrArg List.sum (List.map_congr_left fun v _ => ?_)
  exact (Nat.mul_one _).symm

/-- The weigher is right on every code but one: the absent code of the unit sort. -/
theorem weigherCount_gives (weight : List Int) : (s : Shape) → (c : Code s) → Canon N s c →
    ¬ (s = .unit ∧ c = (algebra N s).none) → (base : Nat) →
    Memo.Gives (Weighed fun p v => binomial v (weight.getD p 1))
      (Weighed (fun p v => binomial v (weight.getD p 1)) (⟨s, c⟩, base))
      (weigherCount weight s c base)
  | .unit, c, _, hne, base => by
    have hunit : ∀ b : Bool, b ≠ false →
        1 = ((unitWords b).map fun _ => leafProduct (fun p v => binomial v (weight.getD p 1))
          base []).sum := by
      intro b hb
      cases b
      · exact absurd rfl hb
      · rfl
    exact Memo.gives_pure (hunit c fun hc => hne ⟨rfl, hc⟩)
  | .leaf, c, _, _, base => Memo.gives_pure (weighLeaf_weighed weight c base)
  | .pair h t, c, hc, _, base => by
    have hc : NodeCanon (algebra N h) (algebra N t) (den h) (Canon N h) (Canon N t) c := hc
    refine gives_weighed (fun a ha => ?_) fun a ha => ?_
    · exact weigherCount_gives weight h a.prime (hc.canon a ha).1
        (fun hn => hc.prime_ne a ha hn.2) base
    · exact weigherCount_gives weight t a.sub (hc.canon a ha).2
        (fun hn => hc.sub_ne a ha hn.2) (base + h.width)

/-- What a value counts for under a demand. -/
def demanded (weights demands : Nat → Option Int) (p : Nat) (v : Int) : Nat :=
  if (demands p).getD 0 ≤ v then waysOf (v - (demands p).getD 0) ((weights p).getD 1) else 0

theorem gives_countPresent {C : Type} [DecidableEq C] {f : Nat → Int → Nat} {none c : C}
    {key : NodeKey × Nat} {value : Nat} (hnone : c = none → Weighed f key 0)
    (hvalue : c ≠ none → Weighed f key value) :
    Memo.Gives (Weighed f) (Weighed f key) (countPresent none c key value) := by
  unfold countPresent
  by_cases hc : c = none
  · simp only [hc, if_true]
    exact Memo.gives_pure (hnone hc)
  · simp only [hc, if_false]
    exact Memo.gives_remember (Memo.gives_pure (hvalue hc))

/-- The other walk is right on every code. -/
theorem enabledCounter_gives (weights demands : Nat → Option Int) : (s : Shape) → (c : Code s) →
    (first : Nat) → Memo.Gives (Weighed (demanded weights demands))
      (Weighed (demanded weights demands) (⟨s, c⟩, first))
      (enabledCounter weights demands s c first)
  | .unit, c, first => by
    have hunit : ∀ b : Bool, Memo.Gives (Weighed (demanded weights demands))
        (Weighed (demanded weights demands) (⟨.unit, b⟩, first))
        (countPresent false b (⟨.unit, b⟩, first) 1) := by
      intro b
      refine gives_countPresent (fun hb => ?_) fun hb => ?_
      · subst hb
        rfl
      · cases b
        · exact absurd rfl hb
        · rfl
    exact hunit c
  | .leaf, c, first => by
    have hleaf : ∀ vs : IntSet, Memo.Gives (Weighed (demanded weights demands))
        (Weighed (demanded weights demands) (⟨.leaf, vs⟩, first))
        (countPresent ([] : IntSet) vs (⟨.leaf, vs⟩, first)
          (enabledLeaf ((weights first).getD 1) ((demands first).getD 0) vs)) := by
      intro vs
      refine gives_countPresent (fun hvs => ?_) fun _ => ?_
      · subst hvs
        rfl
      · refine congrArg List.sum (List.map_congr_left fun v _ => ?_)
        exact (Nat.mul_one _).symm
    exact hleaf c
  | .pair h t, c, first =>
    gives_weighed (fun a _ => enabledCounter_gives weights demands h a.prime first)
      fun a _ => enabledCounter_gives weights demands t a.sub (first + h.width)

end Walks

/-! ## What a value counts for -/

theorem sizeOfInt_of_small {v : Int} (h0 : 0 ≤ v) (h : v < 2 ^ 64) : sizeOfInt v = v.toNat := by
  rw [sizeOfInt, Int.emod_eq_of_lt h0 h]

/-- No 32-bit value and no recorded number of places makes the binomial wrap. -/
theorem binomial_eq {v k : Int} (hv : 0 ≤ v ∧ v ≤ 2147483647) (hk : 1 ≤ k ∧ k ≤ 2147483647) :
    binomial v k = (ways k.toNat v 0).ncard := by
  obtain ⟨n, rfl⟩ := Int.eq_ofNat_of_zero_le hv.1
  rw [ncard_ways (by omega), if_pos (Nat.zero_le n), binomial,
    sizeOfInt_of_small (by omega) (by omega), sizeOfInt_of_small (by omega) (by omega)]
  congr 1 <;> omega

theorem waysLoop_eq (base : Nat) : ∀ i, waysLoop base i = (base + i).choose i := by
  intro i
  induction i with
  | zero => simp [waysLoop]
  | succ i ih =>
    have hstep : (base + i).choose i * (base + (i + 1)) =
        (base + (i + 1)).choose (i + 1) * (i + 1) := by
      rw [Nat.mul_comm]
      exact Nat.add_one_mul_choose_eq (base + i) i
    rw [waysLoop, ih, hstep, Nat.mul_div_cancel _ (Nat.succ_pos i)]

theorem waysOf_eq {k : Int} (hk : 1 ≤ k) (n : Nat) :
    waysOf n k = (n + (k.toNat - 1)).choose (k.toNat - 1) := by
  obtain ⟨j, rfl⟩ : ∃ j : Nat, k = j + 1 := ⟨(k - 1).toNat, by omega⟩
  rw [waysOf, if_neg (by omega), waysLoop_eq, show ((j : Int) + 1).toNat - 1 = j by omega,
    show (j : Int) + 1 - 1 = j by omega]
  rcases Nat.le_total n j with h | h
  · rw [show (max (n : Int) j).toNat = j by omega, show (min (n : Int) j).toNat = n by omega,
      Nat.add_comm n j, Nat.choose_symm_add]
  · rw [show (max (n : Int) j).toNat = n by omega, show (min (n : Int) j).toNat = j by omega]

theorem demanded_eq {v k d : Int} (hv : 0 ≤ v) (hk : 1 ≤ k) (hd : 0 ≤ d) :
    (if d ≤ v then waysOf (v - d) k else 0) = (ways k.toNat v d.toNat).ncard := by
  obtain ⟨n, rfl⟩ := Int.eq_ofNat_of_zero_le hv
  obtain ⟨m, rfl⟩ := Int.eq_ofNat_of_zero_le hd
  rw [ncard_ways (by omega), Int.toNat_natCast]
  by_cases h : m ≤ n
  · rw [if_pos h, if_pos (by omega), show (n : Int) - m = (n - m : Nat) by omega, waysOf_eq hk]
  · rw [if_neg h, if_neg (by omega)]

/-! ## Markings -/

section Exact

variable (order : List String) (weights : LeafWeights)

/-- The number of places of the leaf at a position. -/
def placesAt (p : Nat) : Nat := ((weightAt order weights p).getD 1).toNat

/-- The demand on the leaf at a position. -/
def Demands.at (ds : Demands) (p : Nat) : Nat := ((ds.of p).getD 0).toNat

/-- The value of a leaf in a word. -/
def valueAt {s : Shape} (w : Word s) (p : Nat) : Int := (frontier s w).getD p 0

/-- The markings of the places that a diagram represents and in which one designated place of
each demanded leaf holds its demand. -/
def enablings (ds : Demands) (s : Shape) (c : Code s) :
    Set ((i : Fin s.width) → Fin (placesAt order weights i) → Nat) :=
  {m | ∃ w ∈ den s c, m ∈ groupWays (fun i : Fin s.width => placesAt order weights i)
    (fun i => ds.at i) fun i => valueAt w i}

/-- What the two counts are for. -/
structure CountsExact (s : Shape) (c : Code s) : Prop where
  weighted : weightedCount order weights s c = ∑ᶠ w ∈ den s c, ∏ i : Fin s.width,
    (ways (placesAt order weights i) (valueAt w i) 0).ncard
  enabled : ∀ ds : Demands, enabledCount order weights ds s c =
    (enablings order weights ds s c).ncard
  agree : ∀ ds : Demands, (∀ p, ds.at p = 0) →
    enabledCount order weights ds s c = weightedCount order weights s c
  plain : (∀ name, weights.places name = Option.none) →
    weightedCount order weights s c = (den s c).ncard ∧
      ∀ ds : Demands, (∀ p, ds.at p = 0) → enabledCount order weights ds s c = (den s c).ncard

variable {order weights}

theorem weightAt_range (p : Nat) : 1 ≤ (weightAt order weights p).getD 1 ∧
    (weightAt order weights p).getD 1 ≤ 2147483647 := by
  cases h : weightAt order weights p with
  | none => decide
  | some k =>
    obtain ⟨name, -, hk⟩ := Option.bind_eq_some_iff.mp h
    obtain ⟨h1, h2⟩ := weights.many name k hk
    exact ⟨Int.le_of_lt h1, h2⟩

theorem placesAt_pos (p : Nat) : 0 < placesAt order weights p := by
  have h := (@weightAt_range order weights p).1
  unfold placesAt
  omega

theorem perPosition_getD (p : Nat) :
    (perPosition order weights).getD p 1 = (weightAt order weights p).getD 1 := by
  rw [perPosition, List.getD_eq_getElem?_getD, List.getElem?_map, weightAt]
  cases order[p]? <;> rfl

variable {N : Numbering} {s : Shape} {c : Code s}

theorem finsum_den (hc : Canon N s c) (g : Word s → Nat) :
    ∑ᶠ w ∈ den s c, g w = ((wordList s c).map g).sum := by
  classical
  have hset : den s c = ↑(wordList s c).toFinset := by
    ext w
    simp [mem_wordList]
  rw [hset, finsum_mem_coe_finset, List.sum_toFinset _ (wordList_nodup s c hc)]

theorem finite_den : (den s c).Finite := by
  classical
  have hset : den s c = ↑(wordList s c).toFinset := by
    ext w
    simp [mem_wordList]
  rw [hset]
  exact Finset.finite_toSet _

/-- The values of a canonical code are 32-bit values. -/
theorem frontier_inInt32 : {s : Shape} → {c : Code s} → Canon N s c → ∀ {w}, w ∈ den s c →
    ∀ v ∈ frontier s w, InInt32 v
  | .unit, _, _, _, _, _, hv => nomatch hv
  | .leaf, _, hc, w, hw, v, hv => by
    obtain rfl := List.mem_singleton.mp hv
    exact (show IntSet.Canon _ from hc).2 _ hw
  | .pair h t, c, hc, w, hw, v, hv => by
    have hc : NodeCanon (algebra N h) (algebra N t) (den h) (Canon N h) (Canon N t) c := hc
    obtain ⟨a, ha, h1, h2⟩ := (mem_nodeDen (den h) (den t)).mp hw
    rcases List.mem_append.mp hv with hv | hv
    · exact frontier_inInt32 (hc.canon a ha).1 h1 v hv
    · exact frontier_inInt32 (hc.canon a ha).2 h2 v hv

/-- A sum of products over the words, each factor the number of ways of a leaf. -/
theorem weighed_eq {f : Nat → Int → Nat} {D : Nat → Nat} (hc : Canon N s c)
    (hf : ∀ w ∈ den s c, ∀ v ∈ frontier s w, ∀ p,
      f p v = (ways (placesAt order weights p) v (D p)).ncard) :
    weighed f s c 0 = ∑ᶠ w ∈ den s c, ∏ i : Fin s.width,
      (ways (placesAt order weights i) (valueAt w i) (D i)).ncard := by
  rw [finsum_den hc]
  refine congrArg List.sum (List.map_congr_left fun w hw => ?_)
  have hw := (mem_wordList s c w).mp hw
  rw [leafProduct_congr (hf w hw), leafProduct_eq_prod _ _ _ (frontier_length s w)]
  refine Finset.prod_congr rfl fun i _ => ?_
  rw [Nat.zero_add]
  rfl

theorem ncard_enablings (ds : Demands) : (enablings order weights ds s c).ncard =
    ∑ᶠ w ∈ den s c, ∏ i : Fin s.width,
      (ways (placesAt order weights i) (valueAt w i) (ds.at i)).ncard := by
  have hunion : enablings order weights ds s c = ⋃ w ∈ den s c,
      groupWays (fun i : Fin s.width => placesAt order weights i) (fun i => ds.at i)
        fun i => valueAt w i := by
    ext m
    simp [enablings]
  have hdisjoint : (den s c).PairwiseDisjoint fun w =>
      groupWays (fun i : Fin s.width => placesAt order weights i) (fun i => ds.at i)
        fun i => valueAt w i := by
    intro v _ w _ hvw
    refine groupWays_disjoint fun heq => hvw (frontier_injective s ?_)
    refine List.ext_getElem ((frontier_length s v).trans (frontier_length s w).symm) ?_
    intro p hp hp'
    have h := congrFun heq ⟨p, frontier_length s v ▸ hp⟩
    simpa [valueAt, hp, hp'] using h
  rw [hunion, Set.Finite.ncard_biUnion finite_den
    (fun w _ => finite_groupWays (fun i => placesAt_pos i) _) hdisjoint]
  exact finsum_congr fun w => finsum_congr fun _ => ncard_groupWays _

/-- On every diagram with values from 0 on, the two counts are what they are for, unless the
diagram is the absent code of the unit sort: the weighted count then is 1 and not 0. -/
theorem counts_exact_iff (hc : Canon N s c) (hpos : ∀ w ∈ den s c, ∀ v ∈ frontier s w, 0 ≤ v) :
    CountsExact order weights s c ↔ ¬ (s = .unit ∧ c = (algebra N s).none) := by
  constructor
  · rintro h ⟨rfl, hnone⟩
    have hone : weightedCount order weights .unit c = 1 := rfl
    have hzero : enabledCount order weights .none .unit c = 0 := by
      rw [hnone]
      rfl
    have := h.agree .none fun _ => rfl
    omega
  · intro hne
    have hvalue : ∀ w ∈ den s c, ∀ v ∈ frontier s w, 0 ≤ v ∧ v ≤ 2147483647 :=
      fun w hw v hv => ⟨hpos w hw v hv, (frontier_inInt32 hc hw v hv).2⟩
    have hplain : weightedCount order weights s c = ∑ᶠ w ∈ den s c, ∏ i : Fin s.width,
        (ways (placesAt order weights i) (valueAt w i) 0).ncard := by
      have hgives := (weigherCount_gives (perPosition order weights) s c hc hne 0 []
        Memo.sound_nil).1
      refine Eq.trans hgives (weighed_eq (D := fun _ => 0) hc fun w hw v hv p => ?_)
      rw [perPosition_getD]
      exact binomial_eq (hvalue w hw v hv) (weightAt_range p)
    have henabled : ∀ ds : Demands, enabledCount order weights ds s c =
        ∑ᶠ w ∈ den s c, ∏ i : Fin s.width,
          (ways (placesAt order weights i) (valueAt w i) (ds.at i)).ncard := by
      intro ds
      have hgives := (enabledCounter_gives (weightAt order weights) ds.of s c 0 [] Memo.sound_nil).1
      refine Eq.trans hgives (weighed_eq (D := ds.at) hc fun w hw v hv p => ?_)
      refine demanded_eq (hvalue w hw v hv).1 (weightAt_range p).1 ?_
      cases hd : ds.of p with
      | none => exact Int.le_refl 0
      | some d => exact ds.nonneg p d hd
    have hagree : ∀ ds : Demands, (∀ p, ds.at p = 0) →
        enabledCount order weights ds s c = weightedCount order weights s c := by
      intro ds hds
      rw [henabled, hplain]
      simp only [hds]
    have hcount : (∀ name, weights.places name = Option.none) →
        weightedCount order weights s c = (den s c).ncard := by
      intro hnone
      have hone : ∀ p, placesAt order weights p = 1 := by
        intro p
        have hp : weightAt order weights p = Option.none := by
          rw [weightAt]
          cases order[p]? with
          | none => rfl
          | some name => exact hnone name
        rw [placesAt, hp]
        rfl
      have hways : ∀ w ∈ den s c, ∏ i : Fin s.width,
          (ways (placesAt order weights i) (valueAt w i) 0).ncard = 1 := by
        intro w hw
        refine Finset.prod_eq_one fun i _ => ?_
        have hlt : (i : Nat) < (frontier s w).length := by
          rw [frontier_length]
          exact i.2
        have hv : 0 ≤ valueAt w i := by
          rw [valueAt, List.getD_eq_getElem _ _ hlt]
          exact hpos w hw _ (List.getElem_mem hlt)
        obtain ⟨n, hn⟩ := Int.eq_ofNat_of_zero_le hv
        rw [hone, hn, ncard_ways Nat.one_pos, if_pos (Nat.zero_le n)]
        exact Nat.choose_zero_right _
      rw [hplain, finsum_mem_congr rfl hways, finsum_den hc, ← length_eq_sum, ncard_den hc]
    exact {
      weighted := hplain
      enabled := fun ds => (henabled ds).trans (ncard_enablings ds).symm
      agree := hagree
      plain := fun hnone => ⟨hcount hnone, fun ds hds => (hagree ds hds).trans (hcount hnone)⟩ }

end Exact

/-! ## An empty result without leaves -/

/-- `(leaf-weight b 2)`. -/
def twoPlaces : LeafWeights := LeafWeights.none.set "b" 2 (by decide)

/-- `(shape unit)`, the leaf `b` declared and weighted but not placed, and an empty result: the
weighted count is 1, there is no word and no marking. -/
theorem weightedCount_absent :
    Canon .standard .unit false ∧ (∀ w ∈ den .unit false, ∀ v ∈ frontier .unit w, 0 ≤ v) ∧
    weightedCount [] twoPlaces .unit false = 1 ∧
    ∑ᶠ w ∈ den .unit false, ∏ i : Fin Shape.unit.width,
      (ways (placesAt [] twoPlaces i) (valueAt w i) 0).ncard = 0 ∧
    enabledCount [] twoPlaces .none .unit false = 0 := by
  have hnone : ∀ w, w ∉ den .unit false := fun w hw => Bool.noConfusion (mem_den_unit.mp hw)
  refine ⟨trivial, fun w hw => absurd hw (hnone w), rfl, ?_, rfl⟩
  rw [Set.eq_empty_of_forall_notMem hnone, finsum_mem_empty]

/-- Over a leaf that is placed the counts are exact. -/
theorem counts_exact_bit : CountsExact ["b"] twoPlaces (bitSpine 1) (allBits 1) := by
  have hpos : ∀ w ∈ wordList (bitSpine 1) (allBits 1), ∀ v ∈ frontier (bitSpine 1) w, 0 ≤ v := by
    decide
  exact (counts_exact_iff (allBits_canon .standard 1) fun w hw =>
    hpos w ((mem_wordList _ _ w).mpr hw)).mpr fun h => Shape.noConfusion h.1

end LibHSC.Surface
