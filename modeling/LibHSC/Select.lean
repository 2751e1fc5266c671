import LibHSC.PointwiseCase
import LibHSC.SumAt

/-!
The filters of a diagram by its values: at one position of the frontier, where
the filter of that leaf is all there is, and at two, where the side above the cut
is split by its value and each class leaves a residual to the other side.
-/

namespace LibHSC

open Lia Grouping

/-- The comparison relating two coordinates, read `x op y`. -/
inductive Cmp where
  | lt
  | le
  | eq
  | ne
  | ge
  | gt
  deriving DecidableEq

def Cmp.eval : Cmp → Int → Int → Bool
  | .lt, l, r => decide (l < r)
  | .le, l, r => decide (l ≤ r)
  | .eq, l, r => decide (l = r)
  | .ne, l, r => decide (l ≠ r)
  | .ge, l, r => decide (l ≥ r)
  | .gt, l, r => decide (l > r)

/-- What is asked of one side once the other is the value `thr`. -/
structure Residual where
  op : Cmp
  thr : Int
  thrLeft : Bool

def Residual.keeps (r : Residual) (v : Int) : Bool :=
  if r.thrLeft then r.op.eval r.thr v else r.op.eval v r.thr

def restrictLeaf (leaf : IntSet) (r : Residual) : IntSet := IntSet.of (List.filter r.keeps leaf)

/-! ## Filtering one side -/

section Sides

variable {C D : Type} [DecidableEq C] [DecidableEq D]

/-- The arcs with their primes filtered; an emptied one is left out. -/
def filterPrimes (none : C) (f : C → Except Err C) : List (Arc C D) → Except Err (List (Arc C D))
  | [] => .ok []
  | a :: as => do
      let np ← f a.prime
      let rest ← filterPrimes none f as
      return if np = none then rest else ⟨np, a.sub⟩ :: rest

def filterSubs (none : D) (f : D → Except Err D) : List (Arc C D) → Except Err (List (Arc C D))
  | [] => .ok []
  | a :: as => do
      let ns ← f a.sub
      let rest ← filterSubs none f as
      return if ns = none then rest else ⟨a.prime, ns⟩ :: rest

/-- The classes of one prime against what their residual leaves of the sub. -/
def crossPieces (none : D) (residual : Int → D → Except Err D) (sub : D) :
    List (Int × C) → Except Err (List (Arc C D))
  | [] => .ok []
  | (v, piece) :: cs => do
      let rsub ← residual v sub
      let rest ← crossPieces none residual sub cs
      return if rsub = none then rest else ⟨piece, rsub⟩ :: rest

def crossRects (none : D) (split : C → Except Err (List (Int × C)))
    (residual : Int → D → Except Err D) : List (Arc C D) → Except Err (List (Arc C D))
  | [] => .ok []
  | a :: as => do
      let cs ← split a.prime
      return (← crossPieces none residual a.sub cs) ++ (← crossRects none split residual as)

/-- The rectangles of a split of the primes, each under its value. -/
def headPieces (split : C → Except Err (List (Int × C))) :
    List (Arc C D) → Except Err (List (Int × Arc C D))
  | [] => .ok []
  | a :: as => do
      let cs ← split a.prime
      return cs.map (fun c => (c.1, ⟨c.2, a.sub⟩)) ++ (← headPieces split as)

def tailPieces (split : D → Except Err (List (Int × D))) :
    List (Arc C D) → Except Err (List (Int × Arc C D))
  | [] => .ok []
  | a :: as => do
      let cs ← split a.sub
      return cs.map (fun c => (c.1, ⟨a.prime, c.2⟩)) ++ (← tailPieces split as)

/-- One diagram per value, the empty ones left out. -/
def valueClasses (H : SupportAlgebra C) (T : SupportAlgebra D) (rects : List (Int × Arc C D)) :
    List (Int × List (Arc C D)) :=
  ((groupAll rects).map fun c => (c.1, canonize H T c.2)).filter fun c => c.2 ≠ []

end Sides

/-- The value a marker stands for. -/
def valueOf : IExpr → Except Err Int
  | .const v => .ok v
  | _ => .error .undefinedBehaviour

def valuesOf {C : Type} : List (IExpr × C) → Except Err (List (Int × C))
  | [] => .ok []
  | c :: cs => do return (← valueOf c.1, c.2) :: (← valuesOf cs)

section Filters

variable (N : Numbering)

/-- Restrict a diagram so that the value at `pos` satisfies `leafOp`. -/
def descend (leafOp : IntSet → Except Err IntSet) : (s : Shape) → Nat → Code s → Except Err (Code s)
  | .unit, _, c => if c = (algebra N .unit).none then .ok c else .error .undefinedBehaviour
  | .leaf, _, c => if c = (algebra N .leaf).none then .ok c else leafOp c
  | .pair h t, pos, c =>
    if c = (algebra N (.pair h t)).none then .ok c
    else if pos < h.width then do
      let rects ← filterPrimes (algebra N h).none (descend leafOp h pos) c
      return canonize (algebra N h) (algebra N t) rects
    else do
      let rects ← filterSubs (algebra N t).none (descend leafOp t (pos - h.width)) c
      return canonize (algebra N h) (algebra N t) rects

/-- The residual as a per-position restriction. -/
def restrict (s : Shape) (c : Code s) (pos : Nat) (r : Residual) : Except Err (Code s) :=
  descend N (fun leaf => .ok (restrictLeaf leaf r)) s pos c

/-- The partition of a diagram by the value at `pos`. -/
def splitPosition : (s : Shape) → Nat → Code s → Except Err (List (Int × Code s))
  | .unit, _, _ => .error .undefinedBehaviour
  | .leaf, _, c => do valuesOf (← splitLeaf c (.var 0))
  | .pair h t, pos, c => do
      let rects ← (if pos < h.width then headPieces (splitPosition h pos) c
        else tailPieces (splitPosition t (pos - h.width)) c)
      return valueClasses (algebra N h) (algebra N t) rects

/-- The words whose values at two distinct positions are related. Both positions are
followed to the cut that separates them; the head is split by the value it holds, and
each class leaves a residual to the tail. -/
def select (op : Cmp) : (s : Shape) → Nat → Nat → Code s → Except Err (Code s)
  | .unit, _, _, c => if c = (algebra N .unit).none then .ok c else .error .undefinedBehaviour
  | .leaf, _, _, c => if c = (algebra N .leaf).none then .ok c else .error .undefinedBehaviour
  | .pair h t, xpos, ypos, c =>
    if c = (algebra N (.pair h t)).none then .ok c
    else if xpos < h.width ∧ ypos < h.width then do
      let rects ← filterPrimes (algebra N h).none (select op h xpos ypos) c
      return canonize (algebra N h) (algebra N t) rects
    else if ¬ xpos < h.width ∧ ¬ ypos < h.width then do
      let rects ← filterSubs (algebra N t).none (select op t (xpos - h.width) (ypos - h.width)) c
      return canonize (algebra N h) (algebra N t) rects
    else do
      let headIsX := decide (xpos < h.width)
      let headPos := if headIsX then xpos else ypos
      let tailPos := (if headIsX then ypos else xpos) - h.width
      let rects ← crossRects (algebra N t).none (splitPosition N h headPos)
        (fun v sub => restrict N t sub tailPos ⟨op, v, headIsX⟩) c
      return canonize (algebra N h) (algebra N t) rects

/-- A position is related to itself in every word or in none. -/
def selectCompare (s : Shape) (d : Code s) (xpos : Nat) (op : Cmp) (ypos : Nat) :
    Except Err (Code s) :=
  if xpos = ypos then .ok (if op.eval 0 0 then d else (algebra N s).none)
  else select N op s xpos ypos d

def selectIn (s : Shape) (d : Code s) (pos : Nat) (set : IntSet) : Except Err (Code s) :=
  descend N (fun leaf => .ok (IntSet.meet leaf set)) s pos d

def selectWhere (s : Shape) (d : Code s) (pos : Nat) (guard : BExpr) : Except Err (Code s) :=
  descend N (fun leaf => IntSet.filter leaf guard) s pos d

end Filters

/-! ## What a filter keeps -/

/-- The value of a word at a position of the frontier. -/
def valueAt (s : Shape) (w : Word s) (pos : Nat) : Int := (frontier s w).getD pos 0

theorem valueAt_head {h t : Shape} {w : Word (.pair h t)} {pos : Nat} (hp : pos < h.width) :
    valueAt (.pair h t) w pos = valueAt h w.1 pos := by
  unfold valueAt
  rw [frontier, List.getD_append _ _ _ _ (by simpa [length_frontier] using hp)]

theorem valueAt_tail {h t : Shape} {w : Word (.pair h t)} {pos : Nat} (hp : ¬ pos < h.width) :
    valueAt (.pair h t) w pos = valueAt t w.2 (pos - h.width) := by
  unfold valueAt
  rw [frontier, List.getD_append_right _ _ _ _ (by simpa [length_frontier] using hp),
    length_frontier]

/-- The call returns the canonical diagram of the words of `d` that satisfy `P`. -/
def Keeps {C W : Type} (den : C → Set W) (Canon : C → Prop) (P : W → Prop) (d : C)
    (x : Except Err C) : Prop :=
  ∃ r, x = .ok r ∧ Canon r ∧ ∀ w, w ∈ den r ↔ w ∈ den d ∧ P w

section Keeps

variable {C W : Type} {A : SupportAlgebra C} {den : C → Set W} {Canon : C → Prop}
  (hA : SupportLaws A den Canon) {P Q : W → Prop} {d : C}

include hA

/-- Two filters of one diagram that keep the same words return the same code. -/
theorem Keeps.unique {x y : Except Err C} (hx : Keeps den Canon P d x)
    (hy : Keeps den Canon Q d y) (h : ∀ w ∈ den d, P w ↔ Q w) : x = y := by
  obtain ⟨r, rfl, hr, hrd⟩ := hx
  obtain ⟨q, rfl, hq, hqd⟩ := hy
  refine congrArg _ (hA.ext hr hq (Set.ext fun w => ?_))
  rw [hrd, hqd]
  exact and_congr_right (h w)

omit hA in
theorem Keeps.all (hd : Canon d) (h : ∀ w ∈ den d, P w) : Keeps den Canon P d (.ok d) :=
  ⟨d, rfl, hd, fun w => ⟨fun hw => ⟨hw, h w hw⟩, And.left⟩⟩

theorem Keeps.nothing (h : ∀ w ∈ den d, ¬ P w) : Keeps den Canon P d (.ok A.none) := by
  refine ⟨A.none, rfl, hA.canon_none, fun w => ?_⟩
  rw [hA.den_none]
  exact ⟨False.elim, fun hw => h w hw.1 hw.2⟩

/-- Nothing is kept of absence. -/
theorem Keeps.absent {x : Except Err C} (h : d ≠ A.none → Keeps den Canon P d x) [DecidableEq C] :
    Keeps den Canon P d (if d = A.none then .ok d else x) := by
  split
  · next hn =>
    subst hn
    refine Keeps.nothing hA fun w hw => ?_
    rw [hA.den_none] at hw
    exact hw.elim
  · next hn => exact h hn

omit hA in
theorem Keeps.ite {x y : Except Err C} {p : Prop} [Decidable p] (hx : p → Keeps den Canon P d x)
    (hy : ¬ p → Keeps den Canon P d y) : Keeps den Canon P d (if p then x else y) := by
  split
  · next h => exact hx h
  · next h => exact hy h

omit hA in
theorem Keeps.congr {x : Except Err C} (hx : Keeps den Canon P d x) (h : ∀ w ∈ den d, P w ↔ Q w) :
    Keeps den Canon Q d x := by
  obtain ⟨r, hr, hc, hd⟩ := hx
  exact ⟨r, hr, hc, fun w => (hd w).trans (and_congr_right (h w))⟩

end Keeps

section Arcs

variable {C D V W : Type} [DecidableEq C] [DecidableEq D] {H : SupportAlgebra C}
  {T : SupportAlgebra D} {denH : C → Set V} {denT : D → Set W} {CanonH : C → Prop}
  {CanonT : D → Prop} (hH : SupportLaws H denH CanonH) (hT : SupportLaws T denT CanonT)

include hH in
omit [DecidableEq D] in
theorem filterPrimes_spec {f : C → Except Err C} {P : V → Prop} : ∀ {l : List (Arc C D)},
    CanonArcs CanonH CanonT l → (∀ a ∈ l, Keeps denH CanonH P a.prime (f a.prime)) →
    ∃ r, filterPrimes H.none f l = .ok r ∧ CanonArcs CanonH CanonT r ∧
      ∀ w, w ∈ nodeDen denH denT r ↔ w ∈ nodeDen denH denT l ∧ P w.1 := by
  intro l
  induction l with
  | nil => exact fun _ _ => ⟨[], rfl, canonArcs_nil, by simp⟩
  | cons a as ih =>
    intro hc hf
    obtain ⟨ha, has⟩ := (canonArcs_cons a as).mp hc
    obtain ⟨⟨np, hnp, hnc, hnd⟩, hfs⟩ := List.forall_mem_cons.mp hf
    obtain ⟨rest, hrest, hrc, hrd⟩ := ih has hfs
    refine ⟨_, bind_of_ok hnp (bind_of_ok hrest rfl), ?_⟩
    split
    · next hn =>
      rw [hn, hH.den_none] at hnd
      refine ⟨hrc, fun w => ?_⟩
      have := hnd w.1
      simp only [Set.mem_empty_iff_false, false_iff, not_and] at this
      simp only [hrd, nodeDen_cons, Set.mem_union, Set.mem_prod]
      tauto
    · refine ⟨(canonArcs_cons _ _).mpr ⟨⟨hnc, ha.2⟩, hrc⟩, fun w => ?_⟩
      simp only [nodeDen_cons, Set.mem_union, Set.mem_prod, hnd, hrd]
      tauto

include hT in
omit [DecidableEq C] in
theorem filterSubs_spec {f : D → Except Err D} {P : W → Prop} : ∀ {l : List (Arc C D)},
    CanonArcs CanonH CanonT l → (∀ a ∈ l, Keeps denT CanonT P a.sub (f a.sub)) →
    ∃ r, filterSubs T.none f l = .ok r ∧ CanonArcs CanonH CanonT r ∧
      ∀ w, w ∈ nodeDen denH denT r ↔ w ∈ nodeDen denH denT l ∧ P w.2 := by
  intro l
  induction l with
  | nil => exact fun _ _ => ⟨[], rfl, canonArcs_nil, by simp⟩
  | cons a as ih =>
    intro hc hf
    obtain ⟨ha, has⟩ := (canonArcs_cons a as).mp hc
    obtain ⟨⟨ns, hns, hnc, hnd⟩, hfs⟩ := List.forall_mem_cons.mp hf
    obtain ⟨rest, hrest, hrc, hrd⟩ := ih has hfs
    refine ⟨_, bind_of_ok hns (bind_of_ok hrest rfl), ?_⟩
    split
    · next hn =>
      rw [hn, hT.den_none] at hnd
      refine ⟨hrc, fun w => ?_⟩
      have := hnd w.2
      simp only [Set.mem_empty_iff_false, false_iff, not_and] at this
      simp only [hrd, nodeDen_cons, Set.mem_union, Set.mem_prod]
      tauto
    · refine ⟨(canonArcs_cons _ _).mpr ⟨⟨ha.1, hnc⟩, hrc⟩, fun w => ?_⟩
      simp only [nodeDen_cons, Set.mem_union, Set.mem_prod, hnd, hrd]
      tauto

/-- A partition of a diagram by a value of its words. -/
structure ByValue {E X : Type} (den : E → Set X) (Canon : E → Prop) (val : X → Int) (d : E)
    (cs : List (Int × E)) : Prop where
  canon : ∀ c ∈ cs, Canon c.2
  cover : ∀ w, w ∈ den d ↔ ∃ c ∈ cs, w ∈ den c.2
  value : ∀ c ∈ cs, ∀ w ∈ den c.2, val w = c.1

/-- The same of keyed rectangles, before the regrouping. -/
structure RectsByValue (denH : C → Set V) (denT : D → Set W) (CanonH : C → Prop)
    (CanonT : D → Prop) (val : V × W → Int) (d : List (Arc C D)) (rs : List (Int × Arc C D)) :
    Prop where
  canon : ∀ c ∈ rs, CanonH c.2.prime ∧ CanonT c.2.sub
  cover : ∀ w, w ∈ nodeDen denH denT d ↔ ∃ c ∈ rs, w.1 ∈ denH c.2.prime ∧ w.2 ∈ denT c.2.sub
  value : ∀ c ∈ rs, ∀ w : V × W, w.1 ∈ denH c.2.prime → w.2 ∈ denT c.2.sub → val w = c.1

omit [DecidableEq C] [DecidableEq D] in
theorem RectsByValue.cons {val : V × W → Int} {a : Arc C D} {as : List (Arc C D)}
    {rs rs' : List (Int × Arc C D)} (hcanon : ∀ c ∈ rs, CanonH c.2.prime ∧ CanonT c.2.sub)
    (hcover : ∀ w : V × W, (w.1 ∈ denH a.prime ∧ w.2 ∈ denT a.sub) ↔
      ∃ c ∈ rs, w.1 ∈ denH c.2.prime ∧ w.2 ∈ denT c.2.sub)
    (hvalue : ∀ c ∈ rs, ∀ w : V × W, w.1 ∈ denH c.2.prime → w.2 ∈ denT c.2.sub → val w = c.1)
    (h : RectsByValue denH denT CanonH CanonT val as rs') :
    RectsByValue denH denT CanonH CanonT val (a :: as) (rs ++ rs') where
  canon := List.forall_mem_append.mpr ⟨hcanon, h.canon⟩
  cover := by
    intro w
    rw [nodeDen_cons, Set.mem_union, Set.mem_prod, hcover, h.cover]
    simp only [List.mem_append, or_and_right, exists_or]
  value := List.forall_mem_append.mpr ⟨hvalue, h.value⟩

omit [DecidableEq C] [DecidableEq D] in
theorem headPieces_spec {split : C → Except Err (List (Int × C))} {val : V → Int} :
    ∀ {l : List (Arc C D)}, CanonArcs CanonH CanonT l →
      (∀ a ∈ l, ∃ cs, split a.prime = .ok cs ∧ ByValue denH CanonH val a.prime cs) →
      ∃ rs, headPieces split l = .ok rs ∧
        RectsByValue denH denT CanonH CanonT (fun w => val w.1) l rs := by
  intro l
  induction l with
  | nil => exact fun _ _ => ⟨[], rfl, by simp, by simp, by simp⟩
  | cons a as ih =>
    intro hc hs
    obtain ⟨ha, has⟩ := (canonArcs_cons a as).mp hc
    obtain ⟨⟨cs, hcs, hby⟩, hss⟩ := List.forall_mem_cons.mp hs
    obtain ⟨rs, hrs, hrby⟩ := ih has hss
    refine ⟨_, bind_of_ok hcs (bind_of_ok hrs rfl), ?_⟩
    refine RectsByValue.cons ?_ ?_ ?_ hrby
    · exact List.forall_mem_map.mpr fun c hc => ⟨hby.canon c hc, ha.2⟩
    · intro w
      simp only [hby.cover, List.mem_map, exists_exists_and_eq_and]
      exact ⟨fun ⟨⟨c, hc, hw⟩, h2⟩ => ⟨c, hc, hw, h2⟩, fun ⟨c, hc, hw, h2⟩ => ⟨⟨c, hc, hw⟩, h2⟩⟩
    · exact List.forall_mem_map.mpr fun c hc w hw _ => hby.value c hc w.1 hw

omit [DecidableEq C] [DecidableEq D] in
theorem tailPieces_spec {split : D → Except Err (List (Int × D))} {val : W → Int} :
    ∀ {l : List (Arc C D)}, CanonArcs CanonH CanonT l →
      (∀ a ∈ l, ∃ cs, split a.sub = .ok cs ∧ ByValue denT CanonT val a.sub cs) →
      ∃ rs, tailPieces split l = .ok rs ∧
        RectsByValue denH denT CanonH CanonT (fun w => val w.2) l rs := by
  intro l
  induction l with
  | nil => exact fun _ _ => ⟨[], rfl, by simp, by simp, by simp⟩
  | cons a as ih =>
    intro hc hs
    obtain ⟨ha, has⟩ := (canonArcs_cons a as).mp hc
    obtain ⟨⟨cs, hcs, hby⟩, hss⟩ := List.forall_mem_cons.mp hs
    obtain ⟨rs, hrs, hrby⟩ := ih has hss
    refine ⟨_, bind_of_ok hcs (bind_of_ok hrs rfl), ?_⟩
    refine RectsByValue.cons ?_ ?_ ?_ hrby
    · exact List.forall_mem_map.mpr fun c hc => ⟨ha.1, hby.canon c hc⟩
    · intro w
      simp only [hby.cover, List.mem_map, exists_exists_and_eq_and]
      exact ⟨fun ⟨h1, c, hc, hw⟩ => ⟨c, hc, h1, hw⟩, fun ⟨c, hc, h1, hw⟩ => ⟨h1, c, hc, hw⟩⟩
    · exact List.forall_mem_map.mpr fun c hc w _ hw => hby.value c hc w.2 hw

include hH hT in
theorem valueClasses_spec {val : V × W → Int} {d : List (Arc C D)} {rs : List (Int × Arc C D)}
    (h : RectsByValue denH denT CanonH CanonT val d rs) :
    ByValue (nodeDen denH denT) (NodeCanon H T denH CanonH CanonT) val d (valueClasses H T rs) := by
  obtain ⟨hclass, hcover⟩ := regrouped_spec hH hT (show _ = valueClasses H T rs from rfl) h.canon
  refine ⟨fun c hc => (hclass c hc).1, fun w => (h.cover w).trans (hcover w), ?_⟩
  intro c hc w hw
  obtain ⟨a, ha, hw1, hw2⟩ := (hclass c hc).2.2 w hw
  exact h.value _ ha w hw1 hw2

include hT in
omit [DecidableEq C] in
theorem crossPieces_spec {residual : Int → D → Except Err D} {sub : D} {Q : Int → W → Prop}
    (hres : ∀ v, Keeps denT CanonT (Q v) sub (residual v sub)) :
    ∀ {cs : List (Int × C)}, (∀ c ∈ cs, CanonH c.2) →
      ∃ r, crossPieces T.none residual sub cs = .ok r ∧ CanonArcs CanonH CanonT r ∧
        ∀ w : V × W, w ∈ nodeDen denH denT r ↔
          w.2 ∈ denT sub ∧ ∃ c ∈ cs, w.1 ∈ denH c.2 ∧ Q c.1 w.2 := by
  intro cs
  induction cs with
  | nil => exact fun _ => ⟨[], rfl, canonArcs_nil, by simp⟩
  | cons c cs ih =>
    intro hc
    obtain ⟨hc1, hcs⟩ := List.forall_mem_cons.mp hc
    obtain ⟨rsub, hrs, hrc, hrd⟩ := hres c.1
    obtain ⟨rest, hrest, hrestc, hrestd⟩ := ih hcs
    refine ⟨_, bind_of_ok hrs (bind_of_ok hrest rfl), ?_⟩
    split
    · next hn =>
      rw [hn, hT.den_none] at hrd
      refine ⟨hrestc, fun w => ?_⟩
      have := hrd w.2
      simp only [Set.mem_empty_iff_false, false_iff, not_and] at this
      simp only [hrestd, List.exists_mem_cons_iff]
      tauto
    · refine ⟨(canonArcs_cons _ _).mpr ⟨⟨hc1, hrc⟩, hrestc⟩, fun w => ?_⟩
      simp only [nodeDen_cons, Set.mem_union, Set.mem_prod, hrd, hrestd, List.exists_mem_cons_iff]
      tauto

include hT in
omit [DecidableEq C] in
/-- Each word is in the class of its value, and passes the residual of that value. -/
theorem crossRects_spec {split : C → Except Err (List (Int × C))}
    {residual : Int → D → Except Err D} {val : V → Int} {Q : Int → W → Prop} :
    ∀ {l : List (Arc C D)}, CanonArcs CanonH CanonT l →
      (∀ a ∈ l, ∃ cs, split a.prime = .ok cs ∧ ByValue denH CanonH val a.prime cs) →
      (∀ a ∈ l, ∀ v, Keeps denT CanonT (Q v) a.sub (residual v a.sub)) →
      ∃ r, crossRects T.none split residual l = .ok r ∧ CanonArcs CanonH CanonT r ∧
        ∀ w : V × W, w ∈ nodeDen denH denT r ↔ w ∈ nodeDen denH denT l ∧ Q (val w.1) w.2 := by
  intro l
  induction l with
  | nil => exact fun _ _ _ => ⟨[], rfl, canonArcs_nil, by simp⟩
  | cons a as ih =>
    intro hc hs hr
    obtain ⟨ha, has⟩ := (canonArcs_cons a as).mp hc
    obtain ⟨⟨cs, hcs, hby⟩, hss⟩ := List.forall_mem_cons.mp hs
    obtain ⟨hra, hrs⟩ := List.forall_mem_cons.mp hr
    obtain ⟨p, hp, hpc, hpd⟩ : ∃ r, crossPieces T.none residual a.sub cs = .ok r ∧
        CanonArcs CanonH CanonT r ∧ ∀ w : V × W, w ∈ nodeDen denH denT r ↔
          w.2 ∈ denT a.sub ∧ ∃ c ∈ cs, w.1 ∈ denH c.2 ∧ Q c.1 w.2 :=
      crossPieces_spec hT hra hby.canon
    obtain ⟨rest, hrest, hrestc, hrestd⟩ := ih has hss hrs
    refine ⟨_, bind_of_ok hcs (bind_of_ok hp (bind_eq_ok.mpr
      ⟨rest, hrest, rfl⟩)), (canonArcs_append _ _).mpr ⟨hpc, hrestc⟩, fun w => ?_⟩
    have hclass : (∃ c ∈ cs, w.1 ∈ denH c.2 ∧ Q c.1 w.2) ↔
        w.1 ∈ denH a.prime ∧ Q (val w.1) w.2 := by
      rw [hby.cover]
      constructor
      · rintro ⟨c, hc, hw, hq⟩
        exact ⟨⟨c, hc, hw⟩, (hby.value c hc w.1 hw).symm ▸ hq⟩
      · rintro ⟨⟨c, hc, hw⟩, hq⟩
        exact ⟨c, hc, hw, hby.value c hc w.1 hw ▸ hq⟩
    simp only [nodeDen_append, nodeDen_cons, Set.mem_union, Set.mem_prod, hpd, hclass, hrestd]
    tauto

end Arcs

/-! ## The filters, at every sort -/

section Exact

variable {N : Numbering}

/-- A node with one side filtered. -/
theorem canonize_keeps {h t : Shape} {P : Word h × Word t → Prop} {d : Code (.pair h t)}
    {x : Except Err (List (Arc (Code h) (Code t)))}
    (hx : ∃ r, x = .ok r ∧ CanonArcs (Canon N h) (Canon N t) r ∧
      ∀ w, w ∈ nodeDen (den h) (den t) r ↔ w ∈ nodeDen (den h) (den t) d ∧ P w) :
    Keeps (den (.pair h t)) (Canon N (.pair h t)) P d (do
      let rects ← x
      return canonize (algebra N h) (algebra N t) rects) := by
  obtain ⟨r, rfl, hc, hr⟩ := hx
  obtain ⟨hcc, hcd⟩ := canonize_correct (laws N h) (laws N t) hc
  exact ⟨_, rfl, hcc, fun w => (Set.ext_iff.mp hcd w).trans (hr w)⟩

/-- The descent filters by the value at one position. By induction on the sort. -/
theorem descend_keeps {leafOp : IntSet → Except Err IntSet} {P : Int → Prop}
    (hop : ∀ c, IntSet.Canon c → Keeps IntSet.den IntSet.Canon P c (leafOp c)) :
    (s : Shape) → ∀ (pos : Nat) (d : Code s), pos < s.width → Canon N s d →
      Keeps (den s) (Canon N s) (fun w => P (valueAt s w pos)) d (descend N leafOp s pos d)
  | .unit => fun _ _ hp _ => absurd hp (Nat.not_lt_zero _)
  | .leaf => fun pos d hp hd => by
    obtain rfl : pos = 0 := Nat.lt_one_iff.mp hp
    exact Keeps.absent (laws N .leaf) fun _ => hop d hd
  | .pair h t => fun pos d hp hd => by
    have hc := hd.canon
    refine Keeps.absent (laws N (.pair h t)) fun _ => Keeps.ite (fun hlt => ?_) fun hlt => ?_
    · refine (canonize_keeps (filterPrimes_spec (laws N h) hc fun a ha =>
        descend_keeps hop h pos a.prime hlt (hc a ha).1)).congr fun w _ => ?_
      rw [valueAt_head hlt]
    · have hpt : pos - h.width < t.width := by
        have : pos < h.width + t.width := hp
        omega
      refine (canonize_keeps (filterSubs_spec (laws N t) hc fun a ha =>
        descend_keeps hop t (pos - h.width) a.sub hpt (hc a ha).2)).congr fun w _ => ?_
      rw [valueAt_tail hlt]

theorem restrictLeaf_keeps (r : Residual) {c : IntSet} (hc : IntSet.Canon c) :
    Keeps IntSet.den IntSet.Canon (fun v => r.keeps v = true) c (.ok (restrictLeaf c r)) := by
  refine ⟨_, rfl, IntSet.canon_of fun v hv => hc.2 v (List.mem_filter.mp hv).1, fun v => ?_⟩
  exact IntSet.mem_of.trans List.mem_filter

theorem restrict_keeps {s : Shape} {d : Code s} {pos : Nat} (r : Residual) (hp : pos < s.width)
    (hd : Canon N s d) : Keeps (den s) (Canon N s) (fun w => r.keeps (valueAt s w pos) = true) d
      (restrict N s d pos r) :=
  descend_keeps (fun _ hc => restrictLeaf_keeps r hc) s pos d hp hd

theorem markerOf_var {v : Int} {m : IExpr} (h : markerOf (.var 0) v = .ok m) : m = .const v := by
  obtain ⟨x, hx, h⟩ := bind_eq_ok.mp h
  cases hx
  obtain ⟨c, hc, h⟩ := bind_eq_ok.mp h
  cases h
  exact congrArg _ (narrow_eq_ok hc).1

theorem markAll_var {set : List Int} (hs : ∀ v ∈ set, InInt32 v) :
    ∃ ms, markAll (.var 0) set = .ok ms := by
  refine markAll_returns fun v hv => ⟨.const v, ?_⟩
  exact bind_of_ok rfl (bind_of_ok (if_pos (hs v hv)) rfl)

theorem valuesOf_spec {C : Type} : ∀ {cs : List (IExpr × C)}, (∀ c ∈ cs, ∃ v, c.1 = .const v) →
    ∃ vs, valuesOf cs = .ok vs ∧ vs.map (fun c => (IExpr.const c.1, c.2)) = cs := by
  intro cs
  induction cs with
  | nil => exact fun _ => ⟨[], rfl, rfl⟩
  | cons c cs ih =>
    intro h
    obtain ⟨⟨v, hv⟩, hcs⟩ := List.forall_mem_cons.mp h
    obtain ⟨vs, hvs, hmap⟩ := ih hcs
    obtain ⟨m, piece⟩ := c
    obtain rfl : m = .const v := hv
    exact ⟨(v, piece) :: vs, bind_of_ok rfl (bind_of_ok hvs rfl), congrArg _ hmap⟩

/-- The classes of a leaf by its own value. -/
theorem splitLeaf_byValue {c : IntSet} (hc : IntSet.Canon c) :
    ∃ cs, (do valuesOf (← splitLeaf c (.var 0))) = .ok cs ∧
      ByValue IntSet.den IntSet.Canon (fun v => v) c cs := by
  obtain ⟨cs, hcs⟩ : ∃ cs, splitLeaf c (.var 0) = .ok cs := by
    unfold splitLeaf
    split
    · exact ⟨[], rfl⟩
    · obtain ⟨ms, hms⟩ := markAll_var hc.2
      exact ⟨_, bind_of_ok hms rfl⟩
  have hcl : Classes IntSet.den IntSet.Canon (fun v m => m = IExpr.const v) c cs :=
    splitLeaf_classes (fun _ _ hm => markerOf_var hm) hc hcs
  have hconst : ∀ c ∈ cs, ∃ v, c.1 = .const v := by
    intro x hx
    have hm := hcl.marker x hx
    unfold splitLeaf at hcs
    split at hcs
    · cases hcs
      cases hx
    · obtain ⟨ms, hms, hcs⟩ := bind_eq_ok.mp hcs
      cases hcs
      obtain ⟨v, hv⟩ := List.exists_mem_of_ne_nil _ (ne_nil_of_mem_groupAll _ hx)
      exact ⟨v, hcl.has x hx v hv⟩
  obtain ⟨vs, hvs, hmap⟩ := valuesOf_spec hconst
  have hmem : ∀ x, x ∈ vs → (IExpr.const x.1, x.2) ∈ cs := fun x hx =>
    hmap ▸ List.mem_map_of_mem hx
  refine ⟨vs, bind_of_ok hcs hvs, fun x hx => hcl.canon _ (hmem x hx), fun w => ?_,
    fun x hx w hw => ?_⟩
  · rw [hcl.cover, ← hmap]
    simp only [List.mem_map, exists_exists_and_eq_and]
  · have := hcl.has _ (hmem x hx) w hw
    exact (IExpr.const.inj this).symm

/-- The partition by a position, at every sort: returned, and by the value there. -/
theorem splitPosition_byValue : (s : Shape) → ∀ (pos : Nat) (d : Code s), pos < s.width →
    Canon N s d → ∃ cs, splitPosition N s pos d = .ok cs ∧
      ByValue (den s) (Canon N s) (fun w => valueAt s w pos) d cs
  | .unit => fun _ _ hp _ => absurd hp (Nat.not_lt_zero _)
  | .leaf => fun pos d hp hd => by
    obtain rfl : pos = 0 := Nat.lt_one_iff.mp hp
    exact splitLeaf_byValue hd
  | .pair h t => fun pos d hp hd => by
    have hc := hd.canon
    have hclasses : ∀ {x : Except Err (List (Int × Arc (Code h) (Code t)))},
        (∃ rs, x = .ok rs ∧ RectsByValue (den h) (den t) (Canon N h) (Canon N t)
          (fun w => valueAt (.pair h t) w pos) d rs) →
        ∃ cs, (do
            let rects ← x
            return valueClasses (algebra N h) (algebra N t) rects) = .ok cs ∧
          ByValue (den (.pair h t)) (Canon N (.pair h t))
            (fun w => valueAt (.pair h t) w pos) d cs := by
      rintro x ⟨rs, rfl, hrs⟩
      exact ⟨_, rfl, valueClasses_spec (laws N h) (laws N t) hrs⟩
    refine hclasses ?_
    by_cases hlt : pos < h.width
    · obtain ⟨rs, hrs, hby⟩ := headPieces_spec hc fun a ha =>
        splitPosition_byValue h pos a.prime hlt (hc a ha).1
      exact ⟨rs, (if_pos hlt).trans hrs, hby.canon, hby.cover, fun c hcm w h1 h2 =>
        (valueAt_head hlt).trans (hby.value c hcm w h1 h2)⟩
    · have hpt : pos - h.width < t.width := by
        have : pos < h.width + t.width := hp
        omega
      obtain ⟨rs, hrs, hby⟩ := tailPieces_spec hc fun a ha =>
        splitPosition_byValue t (pos - h.width) a.sub hpt (hc a ha).2
      exact ⟨rs, (if_neg hlt).trans hrs, hby.canon, hby.cover, fun c hcm w h1 h2 =>
        (valueAt_tail hlt).trans (hby.value c hcm w h1 h2)⟩

/-- Two distinct positions, wherever the cut between them is. By induction on the sort. -/
theorem select_keeps (op : Cmp) : (s : Shape) → ∀ (x y : Nat) (d : Code s), x < s.width →
    y < s.width → x ≠ y → Canon N s d → Keeps (den s) (Canon N s)
      (fun w => op.eval (valueAt s w x) (valueAt s w y) = true) d (select N op s x y d)
  | .unit => fun _ _ _ hx => absurd hx (Nat.not_lt_zero _)
  | .leaf => fun x y _ hx hy hne => by
    have hx' : x < 1 := hx
    have hy' : y < 1 := hy
    omega
  | .pair h t => fun x y d hx hy hne hd => by
    have hc := hd.canon
    have hx' : x < h.width + t.width := hx
    have hy' : y < h.width + t.width := hy
    refine Keeps.absent (laws N (.pair h t)) fun _ => Keeps.ite (fun hxy => ?_) fun hxy =>
      Keeps.ite (fun hxy' => ?_) fun hxy' => ?_
    · refine (canonize_keeps (filterPrimes_spec (laws N h) hc fun a ha =>
        select_keeps op h x y a.prime hxy.1 hxy.2 hne (hc a ha).1)).congr fun w _ => ?_
      rw [valueAt_head hxy.1, valueAt_head hxy.2]
    · refine (canonize_keeps (filterSubs_spec (laws N t) hc fun a ha =>
        select_keeps op t (x - h.width) (y - h.width) a.sub (by omega) (by omega) (by omega)
          (hc a ha).2)).congr fun w _ => ?_
      rw [valueAt_tail hxy'.1, valueAt_tail hxy'.2]
    · -- the residual puts the value on the side its coordinate came from
      by_cases hlt : x < h.width
      · have hy1 : ¬ y < h.width := fun hy1 => hxy ⟨hlt, hy1⟩
        simp only [hlt, decide_true, if_true]
        refine (canonize_keeps (crossRects_spec (laws N t) hc
          (fun a ha => splitPosition_byValue h x a.prime hlt (hc a ha).1)
          fun a ha v => restrict_keeps ⟨op, v, true⟩ (show y - h.width < t.width by omega)
            (hc a ha).2)).congr fun w _ => ?_
        rw [valueAt_head hlt, valueAt_tail hy1]
        rfl
      · have hy1 : y < h.width := by
          by_contra hy1
          exact hxy' ⟨hlt, hy1⟩
        simp only [hlt, decide_false, Bool.false_eq_true, if_false]
        refine (canonize_keeps (crossRects_spec (laws N t) hc
          (fun a ha => splitPosition_byValue h y a.prime hy1 (hc a ha).1)
          fun a ha v => restrict_keeps ⟨op, v, false⟩ (show x - h.width < t.width by omega)
            (hc a ha).2)).congr fun w _ => ?_
        rw [valueAt_head hy1, valueAt_tail hlt]
        rfl

theorem Cmp.eval_self (op : Cmp) (v : Int) : op.eval v v = op.eval 0 0 := by
  cases op <;> simp [Cmp.eval]

theorem selectCompare_keeps {s : Shape} {d : Code s} {x y : Nat} (op : Cmp) (hx : x < s.width)
    (hy : y < s.width) (hd : Canon N s d) : Keeps (den s) (Canon N s)
      (fun w => op.eval (valueAt s w x) (valueAt s w y) = true) d (selectCompare N s d x op y) := by
  refine Keeps.ite (fun hxy => ?_) fun hxy => select_keeps op s x y d hx hy hxy hd
  subst hxy
  cases h0 : op.eval 0 0 with
  | true => exact Keeps.all hd fun w _ => (op.eval_self _).trans h0
  | false =>
    refine Keeps.nothing (laws N s) fun w _ => ?_
    simp [op.eval_self, h0]

theorem selectIn_keeps {s : Shape} {d : Code s} {pos : Nat} {set : IntSet} (hp : pos < s.width)
    (hset : IntSet.Canon set) (hd : Canon N s d) :
    Keeps (den s) (Canon N s) (fun w => valueAt s w pos ∈ set) d (selectIn N s d pos set) :=
  descend_keeps (fun _ hc => ⟨_, rfl, IntSet.canon_meet hc hset, fun v =>
    IntSet.mem_meet hc hset v⟩) s pos d hp hd

/-- A filter returns when its guard evaluates on every element. -/
theorem filter_returns {set : IntSet} {guard : BExpr}
    (hg : ∀ v ∈ (show List Int from set), ∃ t, evalBool [v] guard = .ok t) :
    ∃ r, IntSet.filter set guard = .ok r := by
  by_cases h1 : set = [] ∨ guard = .bfalse
  · exact ⟨[], if_pos h1⟩
  by_cases h2 : guard = .btrue
  · exact ⟨set, (if_neg h1).trans (if_pos h2)⟩
  · obtain ⟨r, hr⟩ := IntTerm.filterLoop_returns.mpr hg
    exact ⟨r, (if_neg h1).trans ((if_neg h2).trans hr)⟩

/-- A guard over one coordinate that evaluates on every machine value. -/
theorem selectWhere_keeps {s : Shape} {d : Code s} {pos : Nat} {guard : BExpr}
    (hp : pos < s.width) (hg : ∀ v, InInt32 v → ∃ t, evalBool [v] guard = .ok t)
    (hd : Canon N s d) : Keeps (den s) (Canon N s)
      (fun w => exactBool (.ofEnv [valueAt s w pos]) guard = .yes) d
      (selectWhere N s d pos guard) := by
  refine descend_keeps (P := fun v => exactBool (.ofEnv [v]) guard = .yes) (fun set hs => ?_)
    s pos d hp hd
  obtain ⟨r, hr⟩ := filter_returns fun v hv => hg v (hs.2 v hv)
  obtain ⟨hsub, hmem⟩ := IntSet.filter_spec hr
  exact ⟨r, hr, IntSet.canon_sublist hsub hs, hmem⟩

end Exact

end LibHSC
