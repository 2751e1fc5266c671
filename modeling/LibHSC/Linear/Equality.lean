import LibHSC.Linear.Box
import LibHSC.Linear.Conjunction

/-!
The diagram of one linear constraint over leaf domains, built bottom-up: the words of a subtree
by their partial sum, and no part that what is outside the subtree cannot complete. Sums are
exact here.
-/

namespace LibHSC.Linear

open Tables

/-! ## Feasible sums -/

/-- The least contribution of a position, 0 without values. -/
def leastOf (a : Int) : List Int → Int
  | [] => 0
  | v :: vs => vs.foldl (fun lo u => min lo (a * u)) (a * v)

def greatestOf (a : Int) : List Int → Int
  | [] => 0
  | v :: vs => vs.foldl (fun hi u => max hi (a * u)) (a * v)

def prefixSum (f : Nat → Int) : Nat → Int
  | 0 => 0
  | i + 1 => prefixSum f i + f i

/-- What the equality is about: coefficients, leaf values, the constant, `at_most`, and the
number of leaves. -/
structure Problem where
  coeff : Nat → Int
  values : Nat → IntSet
  target : Int
  atMost : Bool
  total : Nat

namespace Problem

variable (q : Problem)

def plo : Nat → Int := prefixSum fun i => leastOf (q.coeff i) (q.values i)

def phi : Nat → Int := prefixSum fun i => greatestOf (q.coeff i) (q.values i)

/-- What is outside `[first, first + w)` can complete the sum `x`. -/
def feasible (x : Int) (first w : Nat) : Bool :=
  if q.atMost then x + (q.plo first + (q.plo q.total - q.plo (first + w))) ≤ q.target
  else q.plo first + (q.plo q.total - q.plo (first + w)) ≤ q.target - x ∧
    q.target - x ≤ q.phi first + (q.phi q.total - q.phi (first + w))

/-- The sum of a word that sits at a position. -/
def sum {s : Shape} (first : Nat) (w : Word s) : Int := linearSum q.coeff first (frontier s w)

end Problem

/-! ## Words by their sum -/

section Sums

variable (q : Problem)

def groupFeasible (first : Nat) (groups : Sums (List Int)) (v : Int) : Sums (List Int) :=
  if q.feasible (q.coeff first * v) first 1 = true then
    mergeSum (· ++ ·) (q.coeff first * v) [v] groups
  else groups

def leafSums (first : Nat) : Sums IntSet :=
  ((q.values first).foldl (groupFeasible q first) []).map fun g => (g.1, IntSet.of g.2)

section Rectangles

variable {C D R : Type} [DecidableEq R] (none : R) (join : R → R → R) (rect : C → D → R)
  (first w : Nat)

def crossPart (p : Int × C) (out : Sums R) (t : Int × D) : Sums R :=
  if q.feasible (p.1 + t.1) first w = false then out
  else if rect p.2 t.2 = none then out
  else mergeSum join (p.1 + t.1) (rect p.2 t.2) out

def crossFeasible (heads : Sums C) (tails : Sums D) : Sums R :=
  heads.foldl (fun out p => tails.foldl (crossPart q none join rect first w p) out) []

end Rectangles

variable (N : Numbering) (ids : ShapeIds)

def sums : (s : Shape) → Nat → Placed (fun s => Sums (Code s)) (Sums (Code s))
  | .unit, first => rememberPacked ids.pack ⟨ids.pack (.unit, first)⟩ (.unit, first)
      (pure [(0, true)])
  | .leaf, first => rememberPacked ids.pack ⟨ids.pack (.leaf, first)⟩ (.leaf, first)
      (pure (leafSums q first))
  | .pair h t, first =>
    rememberPacked ids.pack ⟨ids.pack (.pair h t, first)⟩ (.pair h t, first) do
      let heads ← sums h first
      let tails ← sums t (first + h.width)
      pure (crossFeasible q (algebra N (.pair h t)).none (algebra N (.pair h t)).join
        (rectangle (algebra N h) (algebra N t)) first (Shape.pair h t).width heads tails)

end Sums

/-- The part of one sum, or all parts joined. -/
def answer {C : Type} [DecidableEq C] (A : SupportAlgebra C) (q : Problem) (all : Sums C) : C :=
  if q.atMost then all.foldl (fun r p => if r = A.none then p.2 else A.join r p.2) A.none
  else ((all.find? fun p => p.1 = q.target).map Prod.snd).getD A.none

def equality (N : Numbering) (ids : ShapeIds) (top : Shape) (q : Problem) :
    Except Clash (Code top) :=
  (sums q N ids top 0 []).map fun r => answer (algebra N top) q r.1

/-- `coeff[*pos] += C` for every term. -/
def coefficients (terms : List (Nat × Int)) : Nat → Int :=
  terms.foldl (fun coeff t => Function.update coeff t.1 (coeff t.1 + t.2)) fun _ => 0

def linearConstraint (N : Numbering) (ids : ShapeIds) (top : Shape) (box : Code top)
    (c : Constraint) : Except Clash (Code top) :=
  equality N ids top ⟨coefficients c.terms, domainsOf top box, c.target, c.atMost, top.width⟩

/-! ## Pruning drops nothing that can be completed -/

/-- What a fold takes is on one side of the start and of every value. -/
theorem foldl_side (le : Int → Int → Prop) {op : Int → Int → Int} (f : Int → Int)
    (hrefl : ∀ x, le x x) (htrans : ∀ {x y z}, le x y → le y z → le x z)
    (hleft : ∀ x y, le (op x y) x) (hright : ∀ x y, le (op x y) y) (us : List Int) : ∀ m : Int,
    le (us.foldl (fun b u => op b (f u)) m) m ∧
      ∀ u ∈ us, le (us.foldl (fun b u => op b (f u)) m) (f u) := by
  induction us with
  | nil => exact fun m => ⟨hrefl m, nofun⟩
  | cons u us ih =>
    intro m
    obtain ⟨h1, h2⟩ := ih (op m (f u))
    exact ⟨htrans h1 (hleft _ _), List.forall_mem_cons.mpr ⟨htrans h1 (hright _ _), h2⟩⟩

theorem leastOf_le {a : Int} {vs : List Int} {v : Int} (h : v ∈ vs) : leastOf a vs ≤ a * v := by
  cases vs with
  | nil => exact nomatch h
  | cons u us =>
    have hfold := foldl_side (· ≤ ·) (a * ·) Int.le_refl Int.le_trans Int.min_le_left
      Int.min_le_right us (a * u)
    rcases List.mem_cons.mp h with rfl | h
    · exact hfold.1
    · exact hfold.2 v h

theorem le_greatestOf {a : Int} {vs : List Int} {v : Int} (h : v ∈ vs) :
    a * v ≤ greatestOf a vs := by
  cases vs with
  | nil => exact nomatch h
  | cons u us =>
    have hfold := foldl_side (· ≥ ·) (a * ·) Int.le_refl (fun h h' => Int.le_trans h' h)
      Int.le_max_left Int.le_max_right us (a * u)
    rcases List.mem_cons.mp h with rfl | h
    · exact hfold.1
    · exact hfold.2 v h

variable {q : Problem}

/-- The sum of a word of the product is between the prefix sums. -/
theorem sum_bounds : (s : Shape) → (first : Nat) → (w : Word s) → w ∈ product q.values s first →
    q.plo (first + s.width) ≤ q.plo first + q.sum first w ∧
      q.phi first + q.sum first w ≤ q.phi (first + s.width)
  | .unit, first, _, _ => ⟨Int.le_of_eq (Int.add_zero _).symm, Int.le_of_eq (Int.add_zero _)⟩
  | .leaf, first, w, hw => by
    change Int at w
    have hsum : q.sum (s := .leaf) first w = q.coeff first * w := Int.add_zero _
    have hlo : q.plo (first + 1) = q.plo first + leastOf (q.coeff first) (q.values first) := rfl
    have hhi : q.phi (first + 1) = q.phi first + greatestOf (q.coeff first) (q.values first) :=
      rfl
    have h1 := leastOf_le (a := q.coeff first) hw
    have h2 := le_greatestOf (a := q.coeff first) hw
    rw [hsum]
    change q.plo (first + 1) ≤ _ ∧ _ ≤ q.phi (first + 1)
    omega
  | .pair h t, first, w, hw => by
    have h1 := sum_bounds h first w.1 hw.1
    have h2 := sum_bounds t (first + h.width) w.2 hw.2
    have hsum : q.sum first w = q.sum first w.1 + q.sum (first + h.width) w.2 :=
      linearSum_pair q.coeff first w
    rw [hsum, Shape.width, ← Nat.add_assoc]
    omega

/-- What can be completed on a pair can be completed on its sides. -/
theorem feasible_sides {h t : Shape} {first : Nat} {w : Word (.pair h t)}
    (hw : w ∈ product q.values (.pair h t) first)
    (hf : q.feasible (q.sum first w) first (Shape.pair h t).width = true) :
    q.feasible (q.sum first w.1) first h.width = true ∧
      q.feasible (q.sum (first + h.width) w.2) (first + h.width) t.width = true := by
  have h1 := sum_bounds h first w.1 hw.1
  have h2 := sum_bounds t (first + h.width) w.2 hw.2
  have hsum : q.sum first w = q.sum first w.1 + q.sum (first + h.width) w.2 :=
    linearSum_pair q.coeff first w
  rw [hsum, Shape.width] at hf
  unfold Problem.feasible at hf ⊢
  rw [← Nat.add_assoc] at hf
  by_cases hm : q.atMost = true
  · rw [if_pos hm, decide_eq_true_eq] at hf
    rw [if_pos hm, if_pos hm, decide_eq_true_eq, decide_eq_true_eq]
    omega
  · rw [if_neg hm, decide_eq_true_eq] at hf
    rw [if_neg hm, if_neg hm, decide_eq_true_eq, decide_eq_true_eq]
    omega

/-- At the top nothing is left to complete. -/
theorem feasible_top {x : Int} : q.feasible x 0 q.total = true ↔
    if q.atMost then x ≤ q.target else x = q.target := by
  have hlo : q.plo 0 = 0 := rfl
  have hhi : q.phi 0 = 0 := rfl
  unfold Problem.feasible
  rw [hlo, hhi, Nat.zero_add]
  split
  · rw [decide_eq_true_eq]
    omega
  · rw [decide_eq_true_eq]
    omega

/-! ## The sums of a place -/

section Merge

variable {C : Type} {join : C → C → C}

theorem key_mergeSum {n : Int} {part : C} {out : Sums C} {p : Int × C}
    (h : p ∈ mergeSum join n part out) : p.1 = n ∨ ∃ o ∈ out, o.1 = p.1 := by
  induction out with
  | nil =>
    obtain rfl := List.mem_singleton.mp h
    exact .inl rfl
  | cons o out ih =>
    have hlater : (∃ o' ∈ out, o'.1 = p.1) → ∃ o' ∈ o :: out, o'.1 = p.1 :=
      fun ⟨o', ho, he⟩ => ⟨o', List.mem_cons_of_mem o ho, he⟩
    rw [mergeSum] at h
    split at h
    · rcases List.mem_cons.mp h with rfl | h
      · exact .inl rfl
      · exact .inr ⟨p, h, rfl⟩
    · split at h
      · rcases List.mem_cons.mp h with rfl | h
        · exact .inr ⟨o, List.mem_cons_self .., rfl⟩
        · exact .inr ⟨p, List.mem_cons_of_mem o h, rfl⟩
      · rcases List.mem_cons.mp h with rfl | h
        · exact .inr ⟨p, List.mem_cons_self .., rfl⟩
        · exact (ih h).imp_right hlater

theorem mergeSum_ascending {n : Int} {part : C} {out : Sums C}
    (h : out.Pairwise fun a b => a.1 < b.1) :
    (mergeSum join n part out).Pairwise fun a b => a.1 < b.1 := by
  induction out with
  | nil => exact List.pairwise_singleton _ _
  | cons o out ih =>
    obtain ⟨hhead, htail⟩ := List.pairwise_cons.mp h
    rw [mergeSum]
    split
    · next hlt =>
      refine List.pairwise_cons.mpr ⟨fun p hp => ?_, h⟩
      rcases List.mem_cons.mp hp with rfl | hp
      · exact hlt
      · exact hlt.trans (hhead p hp)
    · next hge =>
      split
      · exact List.pairwise_cons.mpr ⟨hhead, htail⟩
      · next hne =>
        refine List.pairwise_cons.mpr ⟨fun p hp => ?_, ih htail⟩
        rcases key_mergeSum hp with heq | ⟨o', ho, heq⟩
        · show o.1 < p.1
          omega
        · exact heq ▸ hhead o' ho

end Merge

/-- A part: some words of the product, all of one sum, which can be completed. -/
structure SumPart (N : Numbering) (q : Problem) (k : Place) (n : Int) (x : Code k.1) : Prop where
  canon : Canon N k.1 x
  nonempty : x ≠ (algebra N k.1).none
  feasible : k.1 ≠ .unit → q.feasible n k.2 k.1.width = true
  words : ∀ w ∈ den k.1 x, w ∈ product q.values k.1 k.2 ∧ q.sum k.2 w = n

/-- The words of a place by their sum, none missing that can be completed. -/
structure SumsOf (N : Numbering) (q : Problem) (k : Place) (out : Sums (Code k.1)) : Prop where
  ascending : out.Pairwise fun a b => a.1 < b.1
  parts : ∀ p ∈ out, SumPart N q k p.1 p.2
  complete : ∀ w ∈ product q.values k.1 k.2, q.feasible (q.sum k.2 w) k.2 k.1.width = true →
    ∃ p ∈ out, w ∈ den k.1 p.2

variable {N : Numbering}

theorem leafSums_spec {first : Nat} (hv : ∀ v ∈ q.values first, InInt32 v) :
    SumsOf N q (.leaf, first) (leafSums q first) := by
  let Good : Int → List Int → Prop := fun n vs => vs ≠ [] ∧ q.feasible n first 1 = true ∧
    ∀ v ∈ vs, v ∈ q.values first ∧ q.coeff first * v = n
  let J : Sums (List Int) → Prop := fun groups =>
    (groups.Pairwise fun a b => a.1 < b.1) ∧ ∀ g ∈ groups, Good g.1 g.2
  have hjoin : ∀ n vs us, Good n vs → Good n us → Good n (vs ++ us) := by
    rintro n vs us ⟨hne, hf, h1⟩ ⟨-, -, h2⟩
    exact ⟨fun h => hne (List.append_eq_nil_iff.mp h).1, hf, fun v hv =>
      (List.mem_append.mp hv).elim (h1 v) (h2 v)⟩
  have hkeep : ∀ n (vs us : List Int) v, Good n vs → Good n us → v ∈ vs ∨ v ∈ us →
      v ∈ vs ++ us := fun _ _ _ _ _ _ h => List.mem_append.mpr h
  have hgood : ∀ v ∈ q.values first, q.feasible (q.coeff first * v) first 1 = true →
      Good (q.coeff first * v) [v] := by
    refine fun v hv hf => ⟨List.cons_ne_nil _ _, hf, fun u hu => ?_⟩
    obtain rfl := List.mem_singleton.mp hu
    exact ⟨hv, rfl⟩
  have hJ : ∀ v ∈ q.values first, ∀ groups, J groups → J (groupFeasible q first groups v) := by
    intro v hv groups hg
    unfold groupFeasible
    split
    · next hf => exact ⟨mergeSum_ascending hg.1, mergeSum_good hjoin (hgood v hv hf) hg.2⟩
    · exact hg
  have hall := foldl_keeps (J := J) (q.values first) hJ [] ⟨List.Pairwise.nil, nofun⟩
  refine ⟨?_, fun p hp => ?_, ?_⟩
  · exact List.pairwise_map.mpr hall.1
  · obtain ⟨g, hg, rfl⟩ := List.mem_map.mp hp
    obtain ⟨hne, hf, hvs⟩ := hall.2 g hg
    refine ⟨IntSet.canon_of fun v hv' => hv v (hvs v hv').1, fun h => ?_, fun _ => hf, ?_⟩
    · obtain ⟨v, hv⟩ := List.exists_mem_of_ne_nil _ hne
      have hin : v ∈ IntSet.of g.2 := IntSet.mem_of.mpr hv
      rw [show IntSet.of g.2 = [] from h] at hin
      exact nomatch hin
    · intro v hv
      obtain ⟨hin, hsum⟩ := hvs v (IntSet.mem_of.mp hv)
      exact ⟨hin, (Int.add_zero _).trans hsum⟩
  · intro (v : Int) hv hfw
    have hsum : q.sum (s := .leaf) first v = q.coeff first * v := Int.add_zero _
    have hf : q.feasible (q.coeff first * v) first 1 = true := hsum ▸ hfw
    obtain ⟨g, hg, hin⟩ := foldl_makes (J := J)
      (C := fun groups => ∃ g ∈ groups, v ∈ g.2) (q.values first) hJ
      (fun u hu groups hg hold => by
        unfold groupFeasible
        split
        · next hfu =>
          exact mergeSum_holds (M := fun vs v => v ∈ vs) hkeep (hgood u hu hfu) hg.2 (.inr hold)
        · exact hold)
      hv
      (fun groups hg => by
        rw [groupFeasible, if_pos hf]
        exact mergeSum_holds (M := fun vs v => v ∈ vs) hkeep (hgood v hv hf) hg.2
          (.inl List.mem_cons_self))
      ⟨List.Pairwise.nil, nofun⟩
    exact ⟨_, List.mem_map_of_mem hg, IntSet.mem_of.mpr hin⟩

section Pair

variable {h t : Shape} {first : Nat} {heads : Sums (Code h)} {tails : Sums (Code t)}

theorem SumPart.join {k : Place} {n : Int} {x y : Code k.1} (hx : SumPart N q k n x)
    (hy : SumPart N q k n y) : SumPart N q k n ((algebra N k.1).join x y) := by
  have hl := laws N k.1
  refine ⟨hl.canon_join hx.canon hy.canon, hl.join_ne_none hx.canon hy.canon hx.nonempty,
    hx.feasible, fun w hw => ?_⟩
  rw [hl.den_join hx.canon hy.canon] at hw
  exact hw.elim (hx.words w) (hy.words w)

/-- A rectangle of parts of the sides is a part of the pair. -/
theorem sumPart_rect {n m : Int} {x : Code h} {y : Code t} (hx : SumPart N q (h, first) n x)
    (hy : SumPart N q (t, first + h.width) m y)
    (hf : q.feasible (n + m) first (Shape.pair h t).width = true)
    (hne : rectCode N x y ≠ (algebra N (.pair h t)).none) :
    SumPart N q (.pair h t, first) (n + m) (rectCode N x y) := by
  refine ⟨canon_rectCode hx.canon hy.canon, hne, fun _ => hf, fun w hw => ?_⟩
  obtain ⟨h1, h2⟩ := (mem_rectCode hx.canon hy.canon).mp hw
  obtain ⟨hin1, hsum1⟩ := hx.words w.1 h1
  obtain ⟨hin2, hsum2⟩ := hy.words w.2 h2
  refine ⟨⟨hin1, hin2⟩, (linearSum_pair q.coeff first w).trans ?_⟩
  exact congrArg₂ (· + ·) hsum1 hsum2

theorem crossFeasible_spec (hheads : SumsOf N q (h, first) heads)
    (htails : SumsOf N q (t, first + h.width) tails) :
    SumsOf N q (.pair h t, first) (crossFeasible q (algebra N (.pair h t)).none
      (algebra N (.pair h t)).join (rectCode N) first (Shape.pair h t).width heads tails) := by
  let J : Sums (Code (.pair h t)) → Prop := fun out =>
    (out.Pairwise fun a b => a.1 < b.1) ∧ ∀ p ∈ out, SumPart N q (.pair h t, first) p.1 p.2
  let part := crossPart q (algebra N (.pair h t)).none (algebra N (.pair h t)).join (rectCode N)
    first (Shape.pair h t).width
  have hjoin : ∀ n x y, SumPart N q (.pair h t, first) n x → SumPart N q (.pair h t, first) n y →
      SumPart N q (.pair h t, first) n ((algebra N (.pair h t)).join x y) :=
    fun _ _ _ hx hy => hx.join hy
  have hkeep : ∀ n x y (w : Word (.pair h t)), SumPart N q (.pair h t, first) n x →
      SumPart N q (.pair h t, first) n y → w ∈ den (.pair h t) x ∨ w ∈ den (.pair h t) y →
      w ∈ den (.pair h t) ((algebra N (.pair h t)).join x y) := by
    intro n x y w hx hy hw
    rw [(laws N (.pair h t)).den_join hx.canon hy.canon]
    exact hw
  have hstep : ∀ p ∈ heads, ∀ u ∈ tails, ∀ out, J out → J (part p out u) := by
    intro p hp u hu out hout
    show J (crossPart ..)
    unfold crossPart
    split
    · exact hout
    · next hf =>
      split
      · exact hout
      · next hne =>
        have hpart := sumPart_rect (hheads.parts p hp) (htails.parts u hu)
          (Bool.of_not_eq_false hf) hne
        exact ⟨mergeSum_ascending hout.1, mergeSum_good hjoin hpart hout.2⟩
  have hrow : ∀ p ∈ heads, ∀ out, J out → J (tails.foldl (part p) out) :=
    fun p hp => foldl_keeps tails (hstep p hp)
  have hall : J (heads.foldl (fun out p => tails.foldl (part p) out) []) :=
    foldl_keeps heads hrow [] ⟨List.Pairwise.nil, nofun⟩
  refine ⟨hall.1, hall.2, ?_⟩
  intro (w : Word (.pair h t)) hw hf
  obtain ⟨hf1, hf2⟩ := feasible_sides hw hf
  obtain ⟨p, hp, h1⟩ := hheads.complete w.1 hw.1 hf1
  obtain ⟨u, hu, h2⟩ := htails.complete w.2 hw.2 hf2
  have hsum : q.sum first w = p.1 + u.1 := by
    rw [← ((hheads.parts p hp).words w.1 h1).2, ← ((htails.parts u hu).words w.2 h2).2]
    exact linearSum_pair q.coeff first w
  -- a word that is in some part stays in some part
  let C : Sums (Code (.pair h t)) → Prop := fun out => ∃ o ∈ out, w ∈ den (.pair h t) o.2
  have hstay : ∀ p ∈ heads, ∀ u ∈ tails, ∀ out, J out → C out → C (part p out u) := by
    intro p hp u hu out hout hold
    show C (crossPart ..)
    unfold crossPart
    split
    · exact hold
    · next hf =>
      split
      · exact hold
      · next hne =>
        exact mergeSum_holds (M := fun x w => w ∈ den (.pair h t) x) hkeep
          (sumPart_rect (hheads.parts p hp) (htails.parts u hu) (Bool.of_not_eq_false hf) hne)
          hout.2 (.inr hold)
  have hin : w ∈ den (.pair h t) (rectCode N p.2 u.2) :=
    (mem_rectCode (hheads.parts p hp).canon (htails.parts u hu).canon).mpr ⟨h1, h2⟩
  have hne : rectCode N p.2 u.2 ≠ (algebra N (.pair h t)).none := by
    intro hnone
    rw [hnone, (laws N (.pair h t)).den_none] at hin
    exact nomatch hin
  have hmake : ∀ out, J out → C (part p out u) := by
    intro out hout
    have hf' : q.feasible (p.1 + u.1) first (Shape.pair h t).width = true := hsum ▸ hf
    show C (crossPart ..)
    rw [crossPart, if_neg (by rw [hf']; nofun), if_neg hne]
    exact mergeSum_holds (M := fun x w => w ∈ den (.pair h t) x) hkeep
      (sumPart_rect (hheads.parts p hp) (htails.parts u hu) hf' hne) hout.2 (.inl hin)
  have hkeepRow : ∀ p ∈ heads, ∀ out, J out → C out → C (tails.foldl (part p) out) := by
    intro p hp out hout hold
    exact (foldl_keeps (J := fun out => J out ∧ C out) tails
      (fun u hu out hb => ⟨hstep p hp u hu out hb.1, hstay p hp u hu out hb.1 hb.2⟩)
      out ⟨hout, hold⟩).2
  exact foldl_makes (J := J) (C := C) heads hrow hkeepRow hp
    (fun out hout => foldl_makes (J := J) (C := C) tails (hstep p hp) (hstay p hp) hu hmake hout)
    ⟨List.Pairwise.nil, nofun⟩

end Pair

theorem sums_gives (ids : ShapeIds) : (s : Shape) → (first : Nat) → first + s.width < 2 ^ 24 →
    (∀ p, first ≤ p → p < first + s.width → ∀ v ∈ q.values p, InInt32 v) →
    Gives (Sound (Placewise (F := fun s => Sums (Code s)) (SumsOf N q))) (SumsOf N q (s, first))
      (fun _ => False)
      (sums q N ids s first)
  | .unit, first, hsmall, _ => by
    refine gives_placed ids (by show first < _; omega) (gives_pure ⟨List.pairwise_singleton _ _,
      fun p hp => ?_, fun w _ _ => ⟨_, List.mem_cons_self .., rfl⟩⟩)
    obtain rfl := List.mem_singleton.mp hp
    exact ⟨trivial, nofun, fun hne => absurd rfl hne, fun w _ => ⟨trivial, rfl⟩⟩
  | .leaf, first, hsmall, hv => gives_placed ids (by show first < _; omega)
      (gives_pure (leafSums_spec (hv first le_rfl (Nat.lt_succ_self _))))
  | .pair h t, first, hsmall, hv => by
    rw [Shape.width] at hsmall hv
    refine gives_placed ids (by show first < _; omega) ?_
    refine (sums_gives ids h first (by omega) fun p h1 h2 => hv p h1 (by omega)).bind ?_
    intro heads hheads
    refine (sums_gives ids t (first + h.width) (by omega)
      fun p h1 h2 => hv p (by omega) (by omega)).bind ?_
    intro tails htails
    exact gives_pure (crossFeasible_spec hheads htails)

/-! ## The answer -/

/-- What the constraint asks of a sum. -/
def Problem.Meets (q : Problem) (x : Int) : Prop :=
  if q.atMost then x ≤ q.target else x = q.target

theorem join_all {s : Shape} {all : Sums (Code s)} (hc : ∀ p ∈ all, Canon N s p.2) :
    Canon N s (all.foldl (fun r p => if r = (algebra N s).none then p.2
        else (algebra N s).join r p.2) (algebra N s).none) ∧
      ∀ w, w ∈ den s (all.foldl (fun r p => if r = (algebra N s).none then p.2
        else (algebra N s).join r p.2) (algebra N s).none) ↔ ∃ p ∈ all, w ∈ den s p.2 := by
  have hl := laws N s
  let step : Code s → Int × Code s → Code s := fun r p =>
    if r = (algebra N s).none then p.2 else (algebra N s).join r p.2
  have hone : ∀ p ∈ all, ∀ r, Canon N s r → Canon N s (step r p) ∧
      den s (step r p) = den s r ∪ den s p.2 := by
    intro p hp r hr
    show Canon N s (ite ..) ∧ den s (ite ..) = _
    split
    · next hnone =>
      rw [hnone, hl.den_none, Set.empty_union]
      exact ⟨hc p hp, rfl⟩
    · exact ⟨hl.canon_join hr (hc p hp), hl.den_join hr (hc p hp)⟩
  let J : Code s → Prop := fun r => Canon N s r ∧ ∀ w ∈ den s r, ∃ p ∈ all, w ∈ den s p.2
  have hJ : ∀ p ∈ all, ∀ r, J r → J (step r p) := by
    intro p hp r hr
    obtain ⟨hcanon, hden⟩ := hone p hp r hr.1
    refine ⟨hcanon, fun w hw => ?_⟩
    rw [hden] at hw
    exact hw.elim (hr.2 w) fun hw => ⟨p, hp, hw⟩
  have hstart : J (algebra N s).none := ⟨hl.canon_none, fun w hw => by
    rw [hl.den_none] at hw
    exact nomatch hw⟩
  have hend := foldl_keeps (J := J) all hJ _ hstart
  refine ⟨hend.1, fun w => ⟨hend.2 w, fun ⟨p, hp, hw⟩ => ?_⟩⟩
  refine foldl_makes (J := J) (C := fun r => w ∈ den s r) all hJ (fun p hp r hr hold => ?_) hp
    (fun r hr => ?_) hstart
  · show w ∈ den s (step r p)
    rw [(hone p hp r hr.1).2]
    exact .inl hold
  · show w ∈ den s (step r p)
    rw [(hone p hp r hr.1).2]
    exact .inr hw

/-- Over any shape but the unit sort with a negative bound, the answer is the words of the
product whose sum meets the target. -/
theorem answer_spec {top : Shape} {all : Sums (Code top)} (htotal : q.total = top.width)
    (hall : SumsOf N q (top, 0) all) :
    Canon N top (answer (algebra N top) q all) ∧ ((top = .unit → q.atMost = true → 0 ≤ q.target) →
        ∀ w, w ∈ den top (answer (algebra N top) q all) ↔
          w ∈ product q.values top 0 ∧ q.Meets (q.sum 0 w)) := by
  have hl := laws N top
  have hmeets : ∀ x, q.feasible x 0 top.width = true ↔ q.Meets x := by
    intro x
    rw [← htotal]
    exact feasible_top
  unfold answer
  by_cases hm : q.atMost = true
  · rw [if_pos hm]
    obtain ⟨hcanon, hden⟩ := join_all fun p hp => (hall.parts p hp).canon
    refine ⟨hcanon, fun hunit w => (hden w).trans ⟨?_, fun ⟨hw, hx⟩ => ?_⟩⟩
    · rintro ⟨p, hp, hw⟩
      have hpart := hall.parts p hp
      obtain ⟨hin, hsum⟩ := hpart.words w hw
      refine ⟨hin, ?_⟩
      by_cases htop : top = .unit
      · -- the one word of the unit sort has sum 0
        subst htop
        exact (if_pos hm).mpr (hunit rfl hm)
      · exact hsum ▸ (hmeets p.1).mp (hpart.feasible htop)
    · exact hall.complete w hw ((hmeets _).mpr hx)
  · rw [if_neg hm]
    have hmeets' : ∀ x, q.Meets x ↔ x = q.target := fun x => iff_of_eq (if_neg hm)
    cases hf : all.find? fun p => p.1 = q.target with
    | none =>
      refine ⟨hl.canon_none, fun _ w => ?_⟩
      show w ∈ den top (algebra N top).none ↔ _
      rw [hl.den_none]
      refine ⟨fun hw => absurd hw (Set.notMem_empty w), fun ⟨hw, hx⟩ => ?_⟩
      obtain ⟨p, hp, hin⟩ := hall.complete w hw ((hmeets _).mpr hx)
      have hkey : p.1 = q.target :=
        ((hall.parts p hp).words w hin).2.symm.trans ((hmeets' _).mp hx)
      exact absurd hkey (by simpa using List.find?_eq_none.mp hf p hp)
    | some p =>
      have hp := List.mem_of_find?_eq_some hf
      have hkey : p.1 = q.target := by simpa using List.find?_some hf
      have hpart := hall.parts p hp
      refine ⟨hpart.canon, fun _ w => ⟨fun hw => ?_, fun ⟨hw, hx⟩ => ?_⟩⟩
      · obtain ⟨hin, hsum⟩ := hpart.words w hw
        exact ⟨hin, (hmeets' _).mpr (hsum.trans hkey)⟩
      · obtain ⟨p', hp', hin⟩ := hall.complete w hw ((hmeets _).mpr hx)
        have hkey' : p'.1 = q.target :=
          ((hall.parts p' hp').words w hin).2.symm.trans ((hmeets' _).mp hx)
        -- sums ascend, so the part of the target is the only one
        have hsame : p' = p := by
          by_contra hne
          have hsym : Std.Symm fun a b : Int × Code top => a.1 ≠ b.1 := ⟨fun _ _ h => h.symm⟩
          exact (hall.ascending.imp fun h => Int.ne_of_lt h).forall hp' hp hne
            (hkey'.trans hkey.symm)
        exact hsame ▸ hin

/-- The words of the product of the values whose sum meets the target, at every shape of less
than 2^24 leaves. -/
theorem equality_gives (ids : ShapeIds) {top : Shape} (hwidth : top.width < 2 ^ 24)
    (htotal : q.total = top.width) (hv : ∀ p < top.width, ∀ v ∈ q.values p, InInt32 v) :
    ∃ r, equality N ids top q = .ok r ∧ Canon N top r ∧
      ((top = .unit → q.atMost = true → 0 ≤ q.target) →
        ∀ w, w ∈ den top r ↔ w ∈ product q.values top 0 ∧ q.Meets (q.sum 0 w)) := by
  have h := sums_gives (N := N) (q := q) ids top 0 (by omega) (fun p _ hp => hv p (by omega)) []
    sound_nil
  unfold equality
  generalize sums q N ids top 0 [] = r at h ⊢
  cases r with
  | error e => exact h.elim
  | ok r => exact ⟨_, rfl, answer_spec htotal h.1⟩

/-- The unit sort is not pruned: its one word is there whatever the bound. -/
theorem equality_unit (ids : ShapeIds) (hm : q.atMost = true) :
    equality N ids .unit q = .ok true := by
  simp only [equality, sums, rememberPacked, List.find?_nil]
  show Except.ok (answer (algebra N .unit) q [(0, true)]) = Except.ok true
  rw [answer, if_pos hm]
  rfl

theorem coefficients_eq (terms : List (Nat × Int)) : coefficients terms = coeffOf terms := by
  have hfold : ∀ (ts : List (Nat × Int)) (f : Nat → Int),
      ts.foldl (fun coeff t => Function.update coeff t.1 (coeff t.1 + t.2)) f =
        fun p => f p + coeffOf ts p := by
    intro ts
    induction ts with
    | nil => exact fun f => funext fun p => (Int.add_zero _).symm
    | cons t ts ih =>
      intro f
      rw [List.foldl_cons, ih]
      funext p
      rw [coeffOf_cons]
      by_cases hp : t.1 = p
      · subst hp
        rw [Function.update_self, if_pos rfl, Int.add_assoc]
      · rw [Function.update_of_ne (Ne.symm hp), if_neg hp, Int.zero_add]
  rw [coefficients, hfold]
  exact funext fun p => Int.zero_add _

/-- The words of the box that satisfy the constraint, which is what `conjunction` gives for
this one constraint. -/
def Builds (N : Numbering) {top : Shape} (box : Code top) (c : Constraint) (r : Code top) : Prop :=
  (∀ w, w ∈ den top r ↔ w ∈ den top box ∧ c.Holds (frontier top w)) ∧
    ∀ y, conjunction N top box [c] = .ok y → r = y

/-- Every leaf is the head of a pair, or the constraint leaves nothing of the box; and it is not
the bare unit sort with a negative bound. -/
def Built (top : Shape) (box : Code top) (c : Constraint) : Prop :=
  (top.headed = true ∨ ∀ w ∈ den top box, ¬ c.Holds (frontier top w)) ∧
    ¬ (top = .unit ∧ c.atMost = true ∧ c.target < 0)

/-- When a constraint over a box is exact, over every shape of less than 2^24 leaves. -/
theorem linearConstraint_exact_iff (N : Numbering) (ids : ShapeIds) (top : Shape)
    (hwidth : top.width < 2 ^ 24) (domain : Nat → IntSet)
    (hdomain : ∀ p < top.width, IntSet.Canon (domain p) ∧ domain p ≠ []) (c : Constraint)
    (hterms : ∀ t ∈ c.terms, t.1 < top.width) :
    ∃ box r, fullBox N ids domain top = .ok box ∧ linearConstraint N ids top box c = .ok r ∧
      (Builds N box c r ↔ Built top box c) := by
  obtain ⟨box, hfull, hcanon, hbox⟩ := fullBox_gives (N := N) ids hwidth fun p
    hp => (hdomain p hp).1
  have hv : ∀ p < top.width, ∀ v ∈ domainsOf top box p, InInt32 v := fun p _ v hin =>
    recorded_inInt32 top box hcanon 0 p v (mem_domainsOf.mp hin)
  obtain ⟨r, hr, hrc, hden⟩ := equality_gives (N := N) ids (q := ⟨coefficients c.terms,
    domainsOf top box, c.target, c.atMost, top.width⟩) hwidth rfl hv
  refine ⟨box, r, hfull, hr, ?_⟩
  have hholds : ∀ w : Word top, Problem.Meets ⟨coefficients c.terms, domainsOf top box, c.target,
      c.atMost, top.width⟩ (linearSum (coefficients c.terms) 0 (frontier top w)) ↔
        c.Holds (frontier top w) := by
    intro w
    have hvalue := formValue_eq (frontier top w) c.terms fun t ht =>
      (frontier_length top w).symm ▸ hterms t ht
    unfold Problem.Meets Constraint.Holds
    rw [hvalue, coefficients_eq]
  have hmem : ∀ {s : Set (Word top)}, (∀ w, w ∈ den top r ↔ w ∈ s ∧ Problem.Meets
      ⟨coefficients c.terms, domainsOf top box, c.target, c.atMost, top.width⟩
        (linearSum (coefficients c.terms) 0 (frontier top w))) →
      ∀ w, w ∈ den top r ↔ w ∈ s ∧ c.Holds (frontier top w) :=
    fun h w => (h w).trans (and_congr_right fun _ => hholds w)
  constructor
  · rintro ⟨hexact, -⟩
    have hunit : ¬ (top = .unit ∧ c.atMost = true ∧ c.target < 0) := by
      rintro ⟨rfl, hm, hneg⟩
      have hall : (() : Word .unit) ∈ den .unit r := by
        rw [show r = true from Except.ok.inj (hr.symm.trans (equality_unit ids hm))]
        rfl
      have hh := ((hexact ()).mp hall).2
      have hnil : c.terms = [] := List.eq_nil_iff_forall_not_mem.mpr fun t ht =>
        Nat.not_lt_zero _ (hterms t ht)
      rw [Constraint.Holds, if_pos hm, formValue, hnil] at hh
      exact absurd (show (0 : Int) ≤ c.target from hh) (by omega)
    refine ⟨?_, hunit⟩
    by_cases hhead : top.headed = true
    · exact .inl hhead
    · refine .inr fun w hw hh => ?_
      have hin := (hexact w).mpr ⟨hw, hh⟩
      have hnonneg : top = .unit → c.atMost = true → 0 ≤ c.target :=
        fun htop hm => Int.not_lt.mp fun hneg => hunit ⟨htop, hm, hneg⟩
      have hempty := ((hden hnonneg w).mp hin).1
      rw [product_domainsOf_unheaded box (Bool.eq_false_iff.mpr hhead)] at hempty
      exact hempty
  · rintro ⟨hor, hunit⟩
    have hnonneg : top = .unit → c.atMost = true → 0 ≤ c.target :=
      fun htop hm => Int.not_lt.mp fun hneg => hunit ⟨htop, hm, hneg⟩
    have hexact : ∀ w, w ∈ den top r ↔ w ∈ den top box ∧ c.Holds (frontier top w) := by
      by_cases hhead : top.headed = true
      · rw [hbox, ← product_domainsOf hcanon hbox (fun p hp => (hdomain p hp).2) hhead]
        exact hmem (hden hnonneg)
      · intro w
        have hnone := hor.resolve_left hhead
        rw [hmem (hden hnonneg) w, product_domainsOf_unheaded box (Bool.eq_false_iff.mpr hhead)]
        exact ⟨fun h => absurd h.1 (Set.notMem_empty w), fun h => absurd h.2 (hnone w h.1)⟩
    refine ⟨hexact, fun y hy => ?_⟩
    have hconj := conjunction_gives N hcanon [c]
    rw [hy] at hconj
    refine (laws N top).ext hrc hconj.1 (Set.ext fun w => ?_)
    rw [hexact w, hconj.2 w, List.forall_mem_singleton]

/-- Two bits of sum 1. -/
def oneOfTwo : Constraint := ⟨[(0, 1), (1, 1)], 1, false⟩

theorem linearConstraint_exact_iff_spine :
    ∃ box r, fullBox .standard .standard (fun _ => [0, 1]) (.pair .leaf (.pair .leaf .unit)) =
      .ok box ∧
      linearConstraint .standard .standard (.pair .leaf (.pair .leaf .unit)) box oneOfTwo = .ok r ∧
      (Builds .standard box oneOfTwo r ↔ Built (.pair .leaf (.pair .leaf .unit)) box oneOfTwo) :=
  linearConstraint_exact_iff .standard .standard (.pair .leaf (.pair .leaf .unit)) (by decide)
    (fun _ => [0, 1]) (fun _ _ => ⟨by decide, by decide⟩) oneOfTwo (by decide)

/-- In `(balanced a b)` the leaf `b` is the tail of a pair: nothing is read for it. -/
theorem linearConstraint_balanced :
    ∃ box r, fullBox .standard .standard (fun _ => [0, 1]) (.pair .leaf .leaf) = .ok box ∧
      linearConstraint .standard .standard (.pair .leaf .leaf) box oneOfTwo = .ok r ∧
      ¬ Builds .standard box oneOfTwo r := by
  refine ⟨([⟨([0, 1] : IntSet), ([0, 1] : IntSet)⟩] : List (Arc IntSet IntSet)),
    ([] : List (Arc IntSet IntSet)), rfl, rfl, fun h => ?_⟩
  have hin := (h.1 ((0 : Int), (1 : Int))).mpr ⟨mem_den_pair.mpr ⟨_, List.mem_cons_self ..,
    List.mem_cons_self .., List.mem_cons_of_mem 0 List.mem_cons_self⟩,
    show formValue oneOfTwo.terms [0, 1] = 1 from rfl⟩
  exact nomatch mem_den_pair.mp hin

end LibHSC.Linear
