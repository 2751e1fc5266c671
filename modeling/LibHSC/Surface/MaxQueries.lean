import LibHSC.Order.Domains
import LibHSC.Surface.Declarations
import Mathlib.Order.Bounds.Basic

/-!
The largest value of any leaf and the largest value of a linear form over the words of a
result. The first is a walk that visits a node once and starts from 0, the second a memoised
pass in which one number stands for what has no word.
-/

namespace LibHSC.Surface

/-! ## The largest value -/

/-- The maximum so far and the nodes visited. -/
abbrev MaxState := Int × List NodeKey

def collectNode {C D : Type} (head : C → MaxState → MaxState) (tail : D → MaxState → MaxState)
    (key : NodeKey) (c : List (Arc C D)) (st : MaxState) : MaxState :=
  if c = [] ∨ key ∈ st.2 then st
  else c.foldl (fun st a => tail a.sub (head a.prime st)) (st.1, key :: st.2)

/-- A leaf's code is a set to read, a pair's arcs are recursed head then tail. -/
def collectMax : (s : Shape) → Code s → MaxState → MaxState
  | .unit, _, st => st
  | .leaf, c, st => (List.foldl max st.1 c, st.2)
  | .pair h t, c, st => collectNode (collectMax h) (collectMax t) ⟨.pair h t, c⟩ c st

def maxLeafValue (s : Shape) (c : Code s) : Int := (collectMax s c (0, [])).1

/-- The values that any leaf takes in any word. -/
def leafValues (s : Shape) (c : Code s) : Set Int := {v | ∃ w ∈ den s c, v ∈ frontier s w}

theorem foldl_max (vs : List Int) : ∀ m : Int, m ≤ vs.foldl max m ∧ (∀ v ∈ vs, v ≤ vs.foldl max m) ∧
      (vs.foldl max m = m ∨ vs.foldl max m ∈ vs) := by
  induction vs with
  | nil => exact fun m => ⟨Int.le_refl m, nofun, .inl rfl⟩
  | cons u vs ih =>
    intro m
    obtain ⟨h1, h2, h3⟩ := ih (max m u)
    refine ⟨by rw [List.foldl_cons]; omega, fun v hv => ?_, ?_⟩
    · rcases List.mem_cons.mp hv with rfl | hv
      · rw [List.foldl_cons]
        omega
      · exact h2 v hv
    · rcases h3 with h3 | h3
      · rw [List.foldl_cons, h3]
        rcases Int.le_total m u with h | h
        · exact .inr (by rw [Int.max_eq_right h]; exact List.mem_cons_self ..)
        · exact .inl (Int.max_eq_left h)
      · exact .inr (List.mem_cons_of_mem u h3)

section Largest

variable {N : Numbering}

theorem mem_leafValues_pair {h t : Shape} {c : List (Arc (Code h) (Code t))}
    (hp : ∀ a ∈ c, (den h a.prime).Nonempty) (hs : ∀ a ∈ c, (den t a.sub).Nonempty) {v : Int} :
    v ∈ leafValues (.pair h t) c ↔ ∃ a ∈ c, v ∈ leafValues h a.prime ∨ v ∈ leafValues t a.sub := by
  constructor
  · rintro ⟨w, hw, hv⟩
    obtain ⟨a, ha, h1, h2⟩ := (mem_nodeDen (den h) (den t)).mp hw
    rcases List.mem_append.mp hv with hv | hv
    · exact ⟨a, ha, .inl ⟨w.1, h1, hv⟩⟩
    · exact ⟨a, ha, .inr ⟨w.2, h2, hv⟩⟩
  · rintro ⟨a, ha, ⟨u, hu, hv⟩ | ⟨u, hu, hv⟩⟩
    · obtain ⟨u', hu'⟩ := hs a ha
      exact ⟨(u, u'), (mem_nodeDen (den h) (den t)).mpr ⟨a, ha, hu, hu'⟩, List.mem_append_left _ hv⟩
    · obtain ⟨u', hu'⟩ := hp a ha
      exact ⟨(u', u), (mem_nodeDen (den h) (den t)).mpr ⟨a, ha, hu', hu⟩,
        List.mem_append_right _ hv⟩

/-- The maximum is 0 or a value of `bound`; a node is done when none of its values is larger. -/
def maxWalk (bound : Set Int) : Visit.Walk NodeKey MaxState where
  wf st := st.1 = 0 ∨ st.1 ∈ bound
  le st st' := st.1 ≤ st'.1
  seen st k := k ∈ st.2
  Q k st := ∀ v ∈ leafValues k.1 k.2, v ≤ st.1
  refl st := Int.le_refl st.1
  trans := Int.le_trans
  keeps hle hq v hv := Int.le_trans (hq v hv) hle

theorem collectMax_does {bound : Set Int} : (s : Shape) → (c : Code s) → Canon N s c →
    leafValues s c ⊆ bound → (under : Set NodeKey) → (∀ k ∈ under, sizeOf s < sizeOf k.1) →
    Visit.Does (maxWalk bound) under ((maxWalk bound).Q ⟨s, c⟩) (collectMax s c)
  | .unit, _, _, _, _, _ => Visit.does_id fun _ _ ⟨_, _, hv⟩ => nomatch hv
  | .leaf, c, _, hbound, _, _ => by
    intro st hwf hdone
    obtain ⟨hle, hall, hfrom⟩ := foldl_max c st.1
    refine ⟨?_, fun k hk hnot v hv => Int.le_trans (hdone k hk hnot v hv) hle, ?_, hle⟩
    · rcases hfrom with hfrom | hfrom
      · exact hwf.imp (fun h => hfrom.trans h) fun h => by
          change List.foldl max st.1 c ∈ bound
          rwa [hfrom]
      · exact .inr (hbound ⟨_, hfrom, List.mem_singleton.mpr rfl⟩)
    · rintro v ⟨w, hw, hv⟩
      obtain rfl := List.mem_singleton.mp hv
      exact hall _ hw
  | .pair h t, c, hc, hbound, under, hunder => by
    have hc : NodeCanon (algebra N h) (algebra N t) (den h) (Canon N h) (Canon N t) c := hc
    change List (Arc (Code h) (Code t)) at c
    have hp : ∀ a ∈ c, (den h a.prime).Nonempty := fun a ha =>
      (laws N h).nonempty_of_ne_none (hc.canon a ha).1 (hc.prime_ne a ha)
    have hs : ∀ a ∈ c, (den t a.sub).Nonempty := fun a ha =>
      (laws N t).nonempty_of_ne_none (hc.canon a ha).2 (hc.sub_ne a ha)
    have hmem : ∀ v, v ∈ leafValues (.pair h t) c ↔ _ := fun v => mem_leafValues_pair hp hs
    have hsize : sizeOf (Shape.pair h t) = 1 + sizeOf h + sizeOf t := rfl
    have hdeeper : ∀ k ∈ insert (⟨.pair h t, c⟩ : NodeKey) under,
        sizeOf h < sizeOf k.1 ∧ sizeOf t < sizeOf k.1 := by
      intro k hk
      rcases Set.mem_insert_iff.mp hk with rfl | hk
      · change sizeOf h < sizeOf (Shape.pair h t) ∧ sizeOf t < sizeOf (Shape.pair h t)
        omega
      · have := hunder k hk
        omega
    have harcs : Visit.Does (maxWalk bound) (insert (⟨.pair h t, c⟩ : NodeKey) under)
        (fun st => ∀ a ∈ c, (maxWalk bound).Q ⟨h, a.prime⟩ st ∧ (maxWalk bound).Q ⟨t, a.sub⟩ st)
        (c.foldl fun st a => collectMax t a.sub (collectMax h a.prime st)) := by
      refine Visit.does_foldl (fun a _ _ hle hr => ⟨Visit.kept_Q _ _ _ hle hr.1,
        Visit.kept_Q _ _ _ hle hr.2⟩) c fun a ha => ?_
      refine Visit.Does.comp ?_ ?_ (Visit.kept_Q _)
      · exact collectMax_does h a.prime (hc.canon a ha).1
          (fun v hv => hbound ((hmem v).mpr ⟨a, ha, .inl hv⟩)) _ fun k hk => (hdeeper k hk).1
      · exact collectMax_does t a.sub (hc.canon a ha).2
          (fun v hv => hbound ((hmem v).mpr ⟨a, ha, .inr hv⟩)) _ fun k hk => (hdeeper k hk).2
    by_cases hnil : c = []
    · have hsame : ∀ st, collectMax (.pair h t) c st = st := fun st => if_pos (.inl hnil)
      refine fun st hwf hdone => (hsame st).symm ▸ ⟨hwf, hdone, fun v hv => ?_, Int.le_refl _⟩
      obtain ⟨a, ha, -⟩ := (hmem v).mp hv
      rw [hnil] at ha
      exact nomatch ha
    · refine Visit.does_visit (fun st => (st.1, (⟨.pair h t, c⟩ : NodeKey) :: st.2))
        (c.foldl fun st a => collectMax t a.sub (collectMax h a.prime st))
        (fun hin => Nat.lt_irrefl _ (hunder _ hin)) ?_ ?_ ?_ ?_ ?_ ?_
      · exact fun st hseen => if_pos (.inr hseen)
      · exact fun st hnot => if_neg fun hor => hor.elim hnil hnot
      · exact fun st k' hk' => List.mem_cons.mp hk'
      · exact fun st => Int.le_refl _
      · exact fun st hwf => hwf
      · refine harcs.mono fun st hst v hv => ?_
        obtain ⟨a, ha, hv | hv⟩ := (hmem v).mp hv
        · exact (hst a ha).1 v hv
        · exact (hst a ha).2 v hv

variable {s : Shape} {c : Code s}

/-- What `max-value` computes: the largest of 0 and the values. -/
theorem maxLeafValue_greatest (hc : Canon N s c) :
    IsGreatest (insert 0 (leafValues s c)) (maxLeafValue s c) := by
  have hstep := collectMax_does s c hc subset_rfl ∅ nofun (0, []) (.inl rfl) fun k hk _ =>
    nomatch hk
  refine ⟨hstep.wf, ?_⟩
  rintro v (rfl | hv)
  · exact hstep.later
  · exact hstep.brings v hv

/-- It is the largest value exactly when some value is not negative. -/
theorem maxLeafValue_exact_iff (hc : Canon N s c) :
    ((leafValues s c).Nonempty → IsGreatest (leafValues s c) (maxLeafValue s c)) ↔
      ((leafValues s c).Nonempty → ∃ v ∈ leafValues s c, 0 ≤ v) := by
  obtain ⟨hmem, hupper⟩ := maxLeafValue_greatest hc
  refine imp_congr_right fun _ => ⟨fun h => ?_, fun ⟨v, hv, hpos⟩ => ?_⟩
  · exact ⟨_, h.1, hupper (Set.mem_insert _ _)⟩
  · have hle := hupper (Set.mem_insert_of_mem 0 hv)
    refine ⟨?_, fun u hu => hupper (Set.mem_insert_of_mem 0 hu)⟩
    rcases hmem with h0 | h
    · have heq : maxLeafValue s c = v := by omega
      exact heq ▸ hv
    · exact h

end Largest

/-! ## The largest value of a linear form -/

/-- The number that stands for no word: a quarter of the smallest 64-bit number. -/
def lowest : Int := -2 ^ 61

/-- The best of every node at every position. -/
abbrev BestMemo := List (Nat × Int)

def bestLeaf (k : Int) (c : IntSet) : Int := List.foldl max lowest (c.map fun v => k * v)

section Arcs

variable {C D : Type} (head : C → BestMemo → Int × BestMemo) (tail : D → BestMemo → Int × BestMemo)

def bestArcs : List (Arc C D) → Int → BestMemo → Int × BestMemo
  | [], m, memo => (m, memo)
  | a :: as, m, memo =>
    let x := head a.prime memo
    let y := tail a.sub x.2
    bestArcs as (if lowest < x.1 ∧ lowest < y.1 then max m (x.1 + y.1) else m) y.2

def bestNode (key : Nat) (c : List (Arc C D)) (memo : BestMemo) : Int × BestMemo :=
  if c = [] then (lowest, memo) else Memo.remember key (bestArcs head tail c lowest) memo

end Arcs

/-- At a node the best arc is the head's best weighted value plus the tail's best. No sum
overflows 64 bits. -/
def best (ids : NodeIds) (coeff : Nat → Int) :
    (s : Shape) → Code s → Nat → BestMemo → Int × BestMemo
  | .unit, _, _, memo => (0, memo)
  | .leaf, c, first, memo => (bestLeaf (coeff first) c, memo)
  | .pair h t, c, first, memo =>
    bestNode (fun p => best ids coeff h p first) (fun q => best ids coeff t q (first + h.width))
      (ids.placeKey (⟨.pair h t, c⟩, first)) c memo

/-- The absent code. -/
def absent : (s : Shape) → Code s
  | .unit => false
  | .leaf => ([] : IntSet)
  | .pair h t => ([] : List (Arc (Code h) (Code t)))

/-- The printed maximum, or `none`. -/
def maxSum (ids : NodeIds) (coeff : Nat → Int) (s : Shape) (c : Code s) : Option Int :=
  let m := if c = absent s then lowest else (best ids coeff s c 0 []).1
  if m = lowest then none else some m

/-- The terms of `(max-sum NAME [(* C LEAF)]*)`, added up by position. -/
def readSumTerms (order : List String) : List Datum → (Nat → Int) → Except Thrown (Nat → Int)
  | [], coeff => .ok coeff
  | term :: terms, coeff =>
    if term.isAtom ∨ term.items.length ≠ 3 ∨ (term.item 0).isAtom = false ∨
        (term.item 0).text ≠ "*" then
      refuseForm term "max-sum takes terms (* COEFF LEAF)"
    else match order.idxOf? (term.item 2).text, stoll (term.item 1).text with
      | none, _ => refuseForm (term.item 2) "max-sum: unknown leaf"
      | some _, none => .error .number
      | some p, some k =>
        readSumTerms order terms (Function.update coeff p (coeff p + k))

/-- Without a term every leaf has coefficient 1. -/
def doMaxSum (ids : NodeIds) (order : List String) (terms : List Datum) (s : Shape) (c : Code s) :
    Except Thrown (Option Int) :=
  match readSumTerms order terms fun _ => if terms = [] then 1 else 0 with
  | .error e => .error e
  | .ok coeff => .ok (maxSum ids coeff s c)

section Sums

variable (coeff : Nat → Int)

/-- The values of the form over the words. -/
def formValues (s : Shape) (c : Code s) : Set Int :=
  {m | ∃ w ∈ den s c, linearSum coeff 0 (frontier s w) = m}

/-- No side of a pair is as low as the number that stands for no word. -/
def Above : (s : Shape) → Nat → Word s → Prop
  | .unit, _, _ => True
  | .leaf, _, _ => True
  | .pair h t, first, w => (Above h first w.1 ∧ Above t (first + h.width) w.2) ∧
      lowest < linearSum coeff first (frontier h w.1) ∧
        lowest < linearSum coeff (first + h.width) (frontier t w.2)

/-- The sums the pass can find below a node. -/
def aboveSums (s : Shape) (c : Code s) (first : Nat) : Set Int :=
  {m | ∃ w ∈ den s c, Above coeff s first w ∧ linearSum coeff first (frontier s w) = m}

/-- The right answer for a node at a position. -/
def IsBest (k : NodeKey × Nat) (m : Int) : Prop :=
  IsGreatest (insert lowest (aboveSums coeff k.1.1 k.1.2 k.2)) m

/-- Right for every node and position that are packed in the key. -/
def BestFor (ids : NodeIds) (key : Nat) (m : Int) : Prop :=
  ∀ k : NodeKey × Nat, k.2 < 2 ^ 20 → ids.placeKey k = key → IsBest coeff k m

variable {coeff}

theorem bestFor_placeKey {ids : NodeIds} {k : NodeKey × Nat} (hk : k.2 < 2 ^ 20) {m : Int} :
    BestFor coeff ids (ids.placeKey k) m ↔ IsBest coeff k m := by
  constructor
  · exact fun h => h k hk rfl
  · intro h k' hk' he
    exact ids.placeKey_inj hk' hk he ▸ h

/-- The sums of an arc, both sides above the lowest. -/
def arcSums (xs ys : Set Int) : Set Int :=
  {m | ∃ x ∈ xs, ∃ y ∈ ys, (lowest < x ∧ lowest < y) ∧ x + y = m}

theorem greatest_arc {xs ys : Set Int} {x y m : Int} (hx : IsGreatest (insert lowest xs) x)
    (hy : IsGreatest (insert lowest ys) y) {S : Set Int} (hm : IsGreatest S m) :
    IsGreatest (S ∪ arcSums xs ys) (if lowest < x ∧ lowest < y then max m (x + y) else m) := by
  have hupper : ∀ {zs : Set Int} {z : Int}, IsGreatest (insert lowest zs) z → ∀ u ∈ zs, u ≤ z :=
    fun hz u hu => hz.2 (Set.mem_insert_of_mem _ hu)
  split
  · next hlow =>
    have hxin : x ∈ xs := hx.1.resolve_left (by omega)
    have hyin : y ∈ ys := hy.1.resolve_left (by omega)
    constructor
    · rcases Int.le_total m (x + y) with h | h
      · rw [Int.max_eq_right h]
        exact .inr ⟨x, hxin, y, hyin, hlow, rfl⟩
      · rw [Int.max_eq_left h]
        exact .inl hm.1
    · rintro n (hn | ⟨u, hu, v, hv, -, rfl⟩)
      · have := hm.2 hn
        omega
      · have := hupper hx u hu
        have := hupper hy v hv
        omega
  · next hlow =>
    refine ⟨.inl hm.1, ?_⟩
    rintro n (hn | ⟨u, hu, v, hv, habove, rfl⟩)
    · exact hm.2 hn
    · have := hupper hx u hu
      have := hupper hy v hv
      omega

/-- The loop over the arcs keeps the greatest sum met so far. -/
theorem bestArcs_gives {C D : Type} {P : Nat → Int → Prop} (xs : C → Set Int) (ys : D → Set Int)
    {head : C → BestMemo → Int × BestMemo} {tail : D → BestMemo → Int × BestMemo} :
    ∀ as : List (Arc C D),
      (∀ a ∈ as, Memo.Gives P (IsGreatest (insert lowest (xs a.prime))) (head a.prime)) →
      (∀ a ∈ as, Memo.Gives P (IsGreatest (insert lowest (ys a.sub))) (tail a.sub)) →
      ∀ (m : Int) (S : Set Int), IsGreatest S m → Memo.Gives P
        (IsGreatest (S ∪ {n | ∃ a ∈ as, n ∈ arcSums (xs a.prime) (ys a.sub)}))
        (bestArcs head tail as m) := by
  intro as
  induction as with
  | nil =>
    intro _ _ m S hm
    refine Memo.gives_pure ?_
    simpa using hm
  | cons a as ih =>
    intro hh ht m S hm
    refine Memo.Gives.bind (hh a List.mem_cons_self) (d := fun x memo =>
      bestArcs head tail as (if lowest < x ∧ lowest < (tail a.sub memo).1
        then max m (x + (tail a.sub memo).1) else m) (tail a.sub memo).2) fun x hx => ?_
    refine Memo.Gives.bind (ht a List.mem_cons_self) (d := fun y => bestArcs head tail as
      (if lowest < x ∧ lowest < y then max m (x + y) else m)) fun y hy => ?_
    have hset : S ∪ {n | ∃ b ∈ a :: as, n ∈ arcSums (xs b.prime) (ys b.sub)} =
        S ∪ arcSums (xs a.prime) (ys a.sub) ∪
          {n | ∃ b ∈ as, n ∈ arcSums (xs b.prime) (ys b.sub)} := by
      ext n
      simp [or_assoc]
    rw [hset]
    exact ih (fun b hb => hh b (List.mem_cons_of_mem a hb))
      (fun b hb => ht b (List.mem_cons_of_mem a hb)) _ _ (greatest_arc hx hy hm)

theorem bestLeaf_best (first : Nat) (c : Code .leaf) :
    IsBest coeff (⟨.leaf, c⟩, first) (bestLeaf (coeff first) c) := by
  have hvalue : ∀ m, m ∈ aboveSums coeff .leaf c first ↔
      m ∈ List.map (fun v => coeff first * v) c := by
    intro m
    refine Iff.trans ?_ List.mem_map.symm
    exact exists_congr fun v => and_congr_right fun _ => by
      simp [Above, frontier, linearSum]
  obtain ⟨hle, hall, hfrom⟩ := foldl_max (List.map (fun v => coeff first * v) c) lowest
  refine ⟨hfrom.imp id fun h => (hvalue _).mpr h, ?_⟩
  rintro m (rfl | hm)
  · exact hle
  · exact hall m ((hvalue m).mp hm)

/-- The words of a node whose sides are above the lowest, arc by arc. -/
theorem aboveSums_pair {h t : Shape} {c : List (Arc (Code h) (Code t))} {first : Nat} {m : Int} :
    m ∈ aboveSums coeff (.pair h t) c first ↔ ∃ a ∈ c, m ∈ arcSums
      (aboveSums coeff h a.prime first) (aboveSums coeff t a.sub (first + h.width)) := by
  constructor
  · rintro ⟨w, hw, ⟨⟨habove1, habove2⟩, hlow1, hlow2⟩, rfl⟩
    obtain ⟨a, ha, h1, h2⟩ := (mem_nodeDen (den h) (den t)).mp hw
    exact ⟨a, ha, _, ⟨w.1, h1, habove1, rfl⟩, _, ⟨w.2, h2, habove2, rfl⟩, ⟨hlow1, hlow2⟩,
      (linearSum_pair coeff first w).symm⟩
  · rintro ⟨a, ha, _, ⟨u, hu, habove1, rfl⟩, _, ⟨v, hv, habove2, rfl⟩, hlow, rfl⟩
    exact ⟨(u, v), (mem_nodeDen (den h) (den t)).mpr ⟨a, ha, hu, hv⟩,
      ⟨⟨habove1, habove2⟩, hlow⟩, linearSum_pair coeff first (u, v)⟩

variable {N : Numbering}

theorem best_gives (ids : NodeIds) : (s : Shape) → (c : Code s) → Canon N s c →
    c ≠ (algebra N s).none → (first : Nat) → first + s.width < 2 ^ 20 →
    Memo.Gives (BestFor coeff ids) (IsBest coeff (⟨s, c⟩, first)) (best ids coeff s c first)
  | .unit, c, hc, hne, first, _ => by
    refine Memo.gives_pure ⟨.inr ?_, ?_⟩
    · obtain ⟨w, hw⟩ := (laws N .unit).nonempty_of_ne_none hc hne
      exact ⟨w, hw, trivial, rfl⟩
    · rintro m (rfl | ⟨w, -, -, rfl⟩)
      · decide
      · exact Int.le_refl 0
  | .leaf, c, _, _, first, _ => Memo.gives_pure (bestLeaf_best first c)
  | .pair h t, c, hc, hne, first, hsmall => by
    have hc : NodeCanon (algebra N h) (algebra N t) (den h) (Canon N h) (Canon N t) c := hc
    change List (Arc (Code h) (Code t)) at c
    rw [Shape.width] at hsmall
    have harcs : Memo.Gives (BestFor coeff ids)
        (BestFor coeff ids (ids.placeKey (⟨.pair h t, c⟩, first)))
        (bestArcs (fun p => best ids coeff h p first)
          (fun q => best ids coeff t q (first + h.width)) c lowest) := by
      have hbestArcs : Memo.Gives (BestFor coeff ids) (IsGreatest ({lowest} ∪ {n | ∃ a ∈ c, n ∈
          arcSums (aboveSums coeff h a.prime first) (aboveSums coeff t a.sub (first + h.width))}))
          (bestArcs (fun p => best ids coeff h p first)
            (fun q => best ids coeff t q (first + h.width)) c lowest) :=
        bestArcs_gives (fun p => aboveSums coeff h p first)
          (fun q => aboveSums coeff t q (first + h.width)) c
          (fun a ha => best_gives ids h a.prime (hc.canon a ha).1 (hc.prime_ne a ha) first
            (by omega))
          (fun a ha => best_gives ids t a.sub (hc.canon a ha).2 (hc.sub_ne a ha)
            (first + h.width) (by omega)) lowest {lowest} ⟨rfl, fun _ h => Int.le_of_eq h⟩
      intro memo hmemo
      obtain ⟨hbest, hkeep⟩ := hbestArcs memo hmemo
      refine ⟨(bestFor_placeKey (by omega)).mpr ?_, hkeep⟩
      have hset : insert lowest (aboveSums coeff (.pair h t) c first) = {lowest} ∪
          {n | ∃ a ∈ c, n ∈ arcSums (aboveSums coeff h a.prime first)
            (aboveSums coeff t a.sub (first + h.width))} := by
        ext m
        exact or_congr Iff.rfl aboveSums_pair
      exact (congrArg (fun S => IsGreatest S _) hset).mpr hbest
    intro memo hmemo
    have hnode : best ids coeff (.pair h t) c first memo = Memo.remember
        (ids.placeKey (⟨.pair h t, c⟩, first)) (bestArcs (fun p => best ids coeff h p first)
          (fun q => best ids coeff t q (first + h.width)) c lowest) memo := if_neg hne
    rw [hnode]
    obtain ⟨hbest, hkeep⟩ := Memo.gives_remember harcs memo hmemo
    exact ⟨(bestFor_placeKey (by omega)).mp hbest, hkeep⟩

variable {s : Shape} {c : Code s}

/-- The printed number is the maximum exactly when some word of greatest sum is above the
lowest, as a whole and in every side of its pairs. -/
theorem maxSum_exact_iff (ids : NodeIds) (hc : Canon N s c) (hne : c ≠ (algebra N s).none)
    (hwidth : s.width < 2 ^ 20) :
    (∃ m, maxSum ids coeff s c = some m ∧ IsGreatest (formValues coeff s c) m) ↔
      ∃ w ∈ den s c, linearSum coeff 0 (frontier s w) ∈ upperBounds (formValues coeff s c) ∧
        lowest < linearSum coeff 0 (frontier s w) ∧ Above coeff s 0 w := by
  have hbest : IsBest coeff (⟨s, c⟩, 0) (best ids coeff s c 0 []).1 :=
    (best_gives ids s c hc hne 0 (by omega) [] Memo.sound_nil).1
  have habsent : c ≠ absent s := by
    cases s with
    | unit => exact hne
    | leaf => exact hne
    | pair _ _ => exact hne
  have hprint : ∀ m, maxSum ids coeff s c = some m ↔
      lowest ≠ m ∧ (best ids coeff s c 0 []).1 = m := by
    intro m
    rw [maxSum, if_neg habsent]
    by_cases hlow : (best ids coeff s c 0 []).1 = lowest
    · simp only [hlow, if_true]
      exact ⟨nofun, fun h => absurd h.2 h.1⟩
    · simp only [hlow, if_false, Option.some.injEq]
      exact ⟨fun h => ⟨fun h' => hlow (h.trans h'.symm), h⟩, fun h => h.2⟩
  obtain ⟨hmem, hupper⟩ := hbest
  constructor
  · rintro ⟨m, hm, hgreatest⟩
    obtain ⟨hlow, rfl⟩ := (hprint m).mp hm
    obtain ⟨w, hw, habove, heq⟩ := hmem.resolve_left (Ne.symm hlow)
    have hle := hupper (Set.mem_insert lowest _)
    refine ⟨w, hw, ?_, ?_, habove⟩
    · rw [heq]
      exact hgreatest.2
    · rw [heq]
      omega
  · rintro ⟨w, hw, hgreatest, hlow, habove⟩
    have hle : linearSum coeff 0 (frontier s w) ≤ (best ids coeff s c 0 []).1 :=
      hupper (Set.mem_insert_of_mem _ ⟨w, hw, habove, rfl⟩)
    have hform : (best ids coeff s c 0 []).1 ∈ formValues coeff s c := by
      obtain ⟨v, hv, -, heq⟩ := hmem.resolve_left (by omega)
      exact ⟨v, hv, heq⟩
    have hle' := hgreatest hform
    refine ⟨_, (hprint _).mpr ⟨by omega, rfl⟩, hform, fun n hn => ?_⟩
    exact Int.le_trans (hgreatest hn) hle

end Sums

/-! ## The positional statistics -/

open LibHSC.Order

/-- When each statistic is exact, over every shape of less than 2^20 leaves and every diagram
that is not empty. -/
theorem statistics_exact_iff {N : Numbering} (ids : NodeIds) {s : Shape} {c : Code s}
    (hc : Canon N s c) (hne : c ≠ (algebra N s).none) (hwidth : s.width < 2 ^ 20) :
    (leafDomains ids s c = some ((List.range s.width).map fun p => (positionValues s c p).ncard) ↔
      (s.headed = true ∧ s.noUnitHead = true)) ∧
    (∀ coeff, (∃ m, maxSum ids coeff s c = some m ∧ IsGreatest (formValues coeff s c) m) ↔
      ∃ w ∈ den s c, linearSum coeff 0 (frontier s w) ∈ upperBounds (formValues coeff s c) ∧
        lowest < linearSum coeff 0 (frontier s w) ∧ Above coeff s 0 w) ∧
    (((leafValues s c).Nonempty → IsGreatest (leafValues s c) (maxLeafValue s c)) ↔
      ((leafValues s c).Nonempty → ∃ v ∈ leafValues s c, 0 ≤ v)) :=
  ⟨leafDomains_exact_iff ids hc hne hwidth, fun _ => maxSum_exact_iff ids hc hne hwidth,
    maxLeafValue_exact_iff hc⟩

/-- `(balanced a b)`, both leaves -1. -/
def minusOnes : Code (.pair .leaf .leaf) :=
  ([⟨([-1] : IntSet), ([-1] : IntSet)⟩] : List (Arc IntSet IntSet))

theorem mem_minusOnes (w : Word (.pair .leaf .leaf)) :
    w ∈ den (.pair .leaf .leaf) minusOnes ↔ w = ((-1 : Int), (-1 : Int)) :=
  (mem_wordList _ _ w).symm.trans List.mem_singleton

theorem minusOnes_canon : Canon .standard (.pair .leaf .leaf) minusOnes := by
  have hleaf : IntSet.Canon [-1] := by decide
  exact {
    canon := fun a ha => by
      obtain rfl := List.mem_singleton.mp ha
      exact ⟨hleaf, hleaf⟩
    prime_ne := fun a ha => by
      obtain rfl := List.mem_singleton.mp ha
      exact List.cons_ne_nil _ _
    sub_ne := fun a ha => by
      obtain rfl := List.mem_singleton.mp ha
      exact List.cons_ne_nil _ _
    disjoint := List.pairwise_singleton _ _
    distinct := List.nodup_singleton _
    ordered := List.pairwise_singleton _ _ }

/-- All three fail here: the second leaf has no domain, the largest value is said to be 0, and
the maximum of `(* 2305843009213693952 a)` is said to be none. -/
theorem statistics_wrong :
    Canon .standard (.pair .leaf .leaf) minusOnes ∧
    (leafDomains .standard (.pair .leaf .leaf) minusOnes = some [1, 0] ∧
      (positionValues (.pair .leaf .leaf) minusOnes 1).ncard = 1) ∧
    (maxSum .standard (fun p => if p = 0 then 2 ^ 61 else 0) (.pair .leaf .leaf) minusOnes = none ∧
      IsGreatest (formValues (fun p => if p = 0 then 2 ^ 61 else 0) (.pair .leaf .leaf) minusOnes)
        (-2 ^ 61)) ∧
    (maxLeafValue (.pair .leaf .leaf) minusOnes = 0 ∧
      IsGreatest (leafValues (.pair .leaf .leaf) minusOnes) (-1)) := by
  have hword : ((-1 : Int), (-1 : Int)) ∈ den (.pair .leaf .leaf) minusOnes :=
    (mem_minusOnes _).mpr rfl
  refine ⟨minusOnes_canon, ⟨rfl, ?_⟩, ⟨rfl, ⟨_, hword, rfl⟩, ?_⟩, rfl,
    ⟨_, hword, List.mem_cons_self ..⟩, ?_⟩
  · have hset : positionValues (.pair .leaf .leaf) minusOnes 1 = {-1} := by
      ext v
      constructor
      · rintro ⟨w, hw, hv⟩
        obtain rfl := (mem_minusOnes w).mp hw
        exact (Option.some.inj hv).symm
      · rintro rfl
        exact ⟨_, hword, rfl⟩
    rw [hset, Set.ncard_singleton]
  · rintro m ⟨w, hw, rfl⟩
    obtain rfl := (mem_minusOnes w).mp hw
    decide
  · rintro v ⟨w, hw, hv⟩
    obtain rfl := (mem_minusOnes w).mp hw
    rcases List.mem_cons.mp hv with rfl | hv
    · decide
    · rcases List.mem_cons.mp hv with rfl | hv
      · decide
      · exact nomatch hv

/-- Over a spine of two bits the three are exact. -/
theorem statistics_exact_bits :
    leafDomains .standard (bitSpine 2) (allBits 2) = some ((List.range (bitSpine 2).width).map
      fun p => (positionValues (bitSpine 2) (allBits 2) p).ncard) ∧
    (∃ m, maxSum .standard (fun _ => 1) (bitSpine 2) (allBits 2) = some m ∧
      IsGreatest (formValues (fun _ => 1) (bitSpine 2) (allBits 2)) m) ∧
    IsGreatest (leafValues (bitSpine 2) (allBits 2)) (maxLeafValue (bitSpine 2) (allBits 2)) := by
  obtain ⟨hdomains, hsum, hvalue⟩ := statistics_exact_iff .standard (allBits_canon .standard 2)
    (allBits_ne .standard 2) (by decide)
  have hword : ((1 : Int), (1 : Int), ()) ∈ den (bitSpine 2) (allBits 2) := by
    obtain ⟨w, hw, hval⟩ : ∃ w ∈ wordList (bitSpine 2) (allBits 2),
        frontier (bitSpine 2) w = [1, 1] := by decide
    have heq : w = ((1 : Int), (1 : Int), ()) := frontier_injective (bitSpine 2) hval
    exact heq ▸ (mem_wordList _ _ _).mp hw
  have hone : (1 : Int) ∈ leafValues (bitSpine 2) (allBits 2) := ⟨_, hword, List.mem_cons_self ..⟩
  refine ⟨hdomains.mpr ⟨rfl, rfl⟩, (hsum fun _ => 1).mpr ⟨_, hword, ?_, by decide, ?_⟩,
    hvalue.mpr (fun _ => ⟨1, hone, by decide⟩) ⟨1, hone⟩⟩
  · have hall : ∀ w ∈ wordList (bitSpine 2) (allBits 2),
        linearSum (fun _ => 1) 0 (frontier (bitSpine 2) w) ≤ 2 := by decide
    rintro m ⟨w, hw, rfl⟩
    exact hall w ((mem_wordList _ _ w).mpr hw)
  · exact ⟨⟨trivial, ⟨trivial, trivial⟩, by decide, by decide⟩, by decide, by decide⟩

end LibHSC.Surface
