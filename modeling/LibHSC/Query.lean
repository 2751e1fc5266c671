import LibHSC.Operation
import LibHSC.Library.Grouping

/-!
`split_equiv`: the partition of a diagram by the value of an expression over
its positions. A class is a marker, the value or the undefined expression, and
the diagram of the words that have it.

The source keeps the classes in a map ordered by marker; here they stand in the
order of a fold. Every consumer joins over them, so the order is immaterial.
-/

namespace LibHSC

open Lia Grouping

/-- Absence has no class; a ground expression is one class, marked by itself. -/
def splitGround {C : Type} [DecidableEq C] (none d : C) (e : IExpr)
    (rest : Except Err (List (IExpr × C))) : Except Err (List (IExpr × C)) :=
  if d = none then .ok []
  else if isConst e ∨ e = .undef then .ok [(e, d)]
  else rest

/-! ## The split of a leaf -/

/-- The marker of one value: a result outside the machine range is loud. -/
def markerOf (e : IExpr) (x : Int) : Except Err IExpr := do
  match ← evalInt [x] e with
  | none => return .undef
  | some v => return .const (← narrow v)

def markAll (e : IExpr) : List Int → Except Err (List (IExpr × Int))
  | [] => .ok []
  | x :: xs => do return (← markerOf e x, x) :: (← markAll e xs)

/-- The theory's own split, by evaluation of each element. -/
def splitLeaf (set : IntSet) (e : IExpr) : Except Err (List (IExpr × IntSet)) :=
  if set = [] then .ok []
  else do return groupAll (← markAll e set)

/-! ## The split of a pair -/

section Pair

variable {C D : Type} [DecidableEq C] [DecidableEq D] (R : ExprIds) (H : SupportAlgebra C)
  (T : SupportAlgebra D) (splitH : C → IExpr → Except Err (List (IExpr × C)))
  (splitT : D → IExpr → Except Err (List (IExpr × D))) (wh : Nat)

/-- The rectangles of the arcs whose primes are split. -/
def headRects (e : IExpr) : List (Arc C D) → Except Err (List (IExpr × Arc C D))
  | [] => .ok []
  | a :: as => do
      let cs ← splitH a.prime e
      return cs.map (fun c => (c.1, ⟨c.2, a.sub⟩)) ++ (← headRects e as)

def tailRects (e : IExpr) : List (Arc C D) → Except Err (List (IExpr × Arc C D))
  | [] => .ok []
  | a :: as => do
      let cs ← splitT a.sub e
      return cs.map (fun c => (c.1, ⟨a.prime, c.2⟩)) ++ (← tailRects e as)

/-- One diagram per marker, the empty ones left out. -/
def classesOf (rects : List (IExpr × Arc C D)) : List (IExpr × List (Arc C D)) :=
  ((groupAll rects).map fun c => (c.1, canonize H T c.2)).filter fun c => c.2 ≠ []

/-- Refine each class of the split by one coordinate, then merge by the final
marker. -/
def refineAll (join : List (Arc C D) → List (Arc C D) → List (Arc C D))
    (refine : IExpr → List (Arc C D) → Except Err (List (IExpr × List (Arc C D)))) :
    List (IExpr × List (Arc C D)) → List (IExpr × List (Arc C D)) →
    Except Err (List (IExpr × List (Arc C D)))
  | [], acc => .ok acc
  | (m, piece) :: cs, acc => do
      let fine ← refine m piece
      refineAll join refine cs (fine.foldl (fun acc c => joinInsert join c.1 c.2 acc) acc)

/-- The split at a pair. An expression on one side is split there; one that
spans the cut is curried by its least coordinate, `fuel` bounding how often. A
ground expression that is not an inline constant has no least coordinate. -/
def splitPair (join : List (Arc C D) → List (Arc C D) → List (Arc C D)) :
    Nat → List (Arc C D) → IExpr → Except Err (List (IExpr × List (Arc C D)))
  | fuel, d, e =>
    splitGround [] d e <|
      match support e with
      | [] => .error .undefinedBehaviour
      | r :: ps =>
        if (r :: ps).getLast (by simp) < wh then do
          return classesOf H T (← headRects splitH e d)
        else if wh ≤ r then do
          return classesOf H T (← tailRects splitT (← shiftPositions R e (-wh)) d)
        else
          match fuel with
          | 0 => .error .fuel
          | n + 1 => do
              let cs ← splitPair join n d (.var r)
              refineAll join (fun m piece => do splitPair join n piece (← subst R e r m)) cs []

end Pair

/-- `split_equiv` at every sort. Each round of currying at a cut grounds one of
the positions the expression reads. -/
def splitEquiv (N : Numbering) (R : ExprIds) :
    (s : Shape) → Code s → IExpr → Except Err (List (IExpr × Code s))
  | .unit => fun d e => splitGround (algebra N .unit).none d e (.error .undefinedBehaviour)
  | .leaf => fun d e => splitGround (algebra N .leaf).none d e (splitLeaf d e)
  | .pair h t => fun d e =>
    splitPair R (algebra N h) (algebra N t) (splitEquiv N R h) (splitEquiv N R t) h.width
      (algebra N (.pair h t)).join (support e).length d e

/-! ## The marker of a word -/

/-- The marker of a word at a cut of width `wh`, by the branch the split takes on
the expression: through one side, or by currying the least coordinate. -/
inductive CutMarks {V W : Type} (R : ExprIds) (wh : Nat) (marksH : IExpr → V → IExpr → Prop)
    (marksT : IExpr → W → IExpr → Prop) : IExpr → V × W → IExpr → Prop
  | ground {e w} : isConst e = true ∨ e = .undef → CutMarks R wh marksH marksT e w e
  | head {e w m} : ¬(isConst e = true ∨ e = .undef) → support e ≠ [] →
      (∀ p ∈ support e, p < wh) → marksH e w.1 m → CutMarks R wh marksH marksT e w m
  | tail {e e' w m} : ¬(isConst e = true ∨ e = .undef) → support e ≠ [] →
      (∀ p ∈ support e, wh ≤ p) → shiftPositions R e (-wh) = .ok e' → marksT e' w.2 m →
      CutMarks R wh marksH marksT e w m
  | span {e e' w r m m'} : ¬(isConst e = true ∨ e = .undef) → r ∈ support e →
      (∀ p ∈ support e, r ≤ p) → r < wh → (∃ p ∈ support e, wh ≤ p) →
      CutMarks R wh marksH marksT (.var r) w m → subst R e r m = .ok e' →
      CutMarks R wh marksH marksT e' w m' → CutMarks R wh marksH marksT e w m'

/-- The marker of a word: it depends on the word and the expression alone, not on
the diagram the word stands in. -/
def Marks (R : ExprIds) : (s : Shape) → IExpr → Word s → IExpr → Prop
  | .unit => fun e _ m => (isConst e = true ∨ e = .undef) ∧ m = e
  | .leaf => fun e (v : Int) m =>
    ((isConst e = true ∨ e = .undef) ∧ m = e) ∨
      (¬(isConst e = true ∨ e = .undef) ∧ markerOf e v = .ok m)
  | .pair h t => CutMarks R h.width (Marks R h) (Marks R t)

theorem CutMarks.unique {V W : Type} {R : ExprIds} {wh : Nat}
    {marksH : IExpr → V → IExpr → Prop} {marksT : IExpr → W → IExpr → Prop}
    (hH : ∀ e w m m', marksH e w m → marksH e w m' → m = m')
    (hT : ∀ e w m m', marksT e w m → marksT e w m' → m = m') {e : IExpr} {w : V × W}
    {m : IExpr} (h : CutMarks R wh marksH marksT e w m) :
    ∀ {m'}, CutMarks R wh marksH marksT e w m' → m = m' := by
  induction h with
  | ground hg =>
    intro m' h'
    cases h' with
    | ground _ => rfl
    | head hng => exact absurd hg hng
    | tail hng => exact absurd hg hng
    | span hng => exact absurd hg hng
  | @head e w m hng hne hlt hm =>
    intro m' h'
    obtain ⟨p, hp⟩ := List.exists_mem_of_ne_nil _ hne
    cases h' with
    | ground hg => exact absurd hg hng
    | head _ _ _ hm' => exact hH _ _ _ _ hm hm'
    | tail _ _ hle => exact absurd (hlt p hp) (not_lt.mpr (hle p hp))
    | span _ _ _ _ hx =>
      obtain ⟨q, hq, hle⟩ := hx
      exact absurd (hlt q hq) (not_lt.mpr hle)
  | @tail e e' w m hng hne hle hs hm =>
    intro m' h'
    obtain ⟨p, hp⟩ := List.exists_mem_of_ne_nil _ hne
    cases h' with
    | ground hg => exact absurd hg hng
    | head _ _ hlt => exact absurd (hlt p hp) (not_lt.mpr (hle p hp))
    | tail _ _ _ hs' hm' =>
      rw [hs] at hs'
      cases hs'
      exact hT _ _ _ _ hm hm'
    | span _ hr _ hlt => exact absurd hlt (not_lt.mpr (hle _ hr))
  | @span e e' w r m m₁ hng hr hmin hlt hx _ hsub _ ih ih' =>
    intro m' h'
    obtain ⟨q, hq, hq'⟩ := hx
    cases h' with
    | ground hg => exact absurd hg hng
    | head _ _ hlt' => exact absurd (hlt' q hq) (not_lt.mpr hq')
    | tail _ _ hle => exact absurd hlt (not_lt.mpr (hle r hr))
    | span _ hr' hmin' _ _ h0 hsub' h1 =>
      obtain rfl := le_antisymm (hmin _ hr') (hmin' _ hr)
      obtain rfl := ih h0
      rw [hsub] at hsub'
      cases hsub'
      exact ih' h1

theorem Marks.unique {R : ExprIds} : (s : Shape) → ∀ e w m m', Marks R s e w m →
    Marks R s e w m' → m = m'
  | .unit => fun _ _ _ _ h h' => h.2.trans h'.2.symm
  | .leaf => by
    rintro e w m m' (⟨hg, rfl⟩ | ⟨hng, hm⟩) (⟨hg', rfl⟩ | ⟨hng', hm'⟩)
    · rfl
    · exact absurd hg hng'
    · exact absurd hg' hng
    · rw [hm] at hm'
      cases hm'
      rfl
  | .pair h t => fun _ _ _ _ hm hm' => CutMarks.unique (Marks.unique h) (Marks.unique t) hm hm'

/-! ## The classes cover the diagram -/

/-- A list of classes of a diagram: markers are normal and ground, pieces are
canonical, together they hold the words of the diagram, and `Has` relates the
words of a piece to its marker. -/
structure Classes {C W : Type} (den : C → Set W) (Canon : C → Prop) (Has : W → IExpr → Prop)
    (d : C) (cs : List (IExpr × C)) : Prop where
  marker : ∀ c ∈ cs, c.1.Normal ∧ immediate c.1 = true
  canon : ∀ c ∈ cs, Canon c.2
  cover : ∀ w, w ∈ den d ↔ ∃ c ∈ cs, w ∈ den c.2
  has : ∀ c ∈ cs, ∀ w ∈ den c.2, Has w c.1

theorem isConst_immediate {e : IExpr} (h : isConst e = true ∨ e = .undef) :
    immediate e = true := by
  rcases h with h | rfl
  · cases e with
    | const v => rfl
    | _ => cases h
  · rfl

theorem splitGround_classes {C W : Type} [DecidableEq C] {A : SupportAlgebra C}
    {den : C → Set W} {Canon : C → Prop} {Has : W → IExpr → Prop} {d : C} {e : IExpr}
    {rest : Except Err (List (IExpr × C))} {cs : List (IExpr × C)}
    (hA : SupportLaws A den Canon) (hd : Canon d) (he : e.Normal)
    (hhas : (isConst e = true ∨ e = .undef) → ∀ w, Has w e)
    (hrest : ¬(isConst e = true ∨ e = .undef) → rest = .ok cs → Classes den Canon Has d cs)
    (h : splitGround A.none d e rest = .ok cs) : Classes den Canon Has d cs := by
  unfold splitGround at h
  split at h
  · next hn =>
    cases h
    subst hn
    exact ⟨by simp, by simp, by simp [hA.den_none], by simp⟩
  split at h
  · next hg =>
    cases h
    exact ⟨by simpa using ⟨he, isConst_immediate hg⟩, by simpa using hd, by simp,
      by simpa using fun w _ => hhas hg w⟩
  · next hg => exact hrest hg h

theorem markAll_spec {e : IExpr} : ∀ {set : List Int} {ms : List (IExpr × Int)},
    markAll e set = .ok ms → ms.map Prod.snd = set ∧ ∀ c ∈ ms, markerOf e c.2 = .ok c.1 := by
  intro set
  induction set with
  | nil =>
    intro ms h
    cases h
    simp
  | cons x xs ih =>
    intro ms h
    obtain ⟨m, hm, h⟩ := bind_eq_ok.mp h
    obtain ⟨ms', hms, h⟩ := bind_eq_ok.mp h
    cases h
    obtain ⟨h1, h2⟩ := ih hms
    exact ⟨by rw [List.map_cons, h1], List.forall_mem_cons.mpr ⟨hm, h2⟩⟩

theorem markerOf_ground {e m : IExpr} {x : Int} (h : markerOf e x = .ok m) :
    m.Normal ∧ immediate m = true := by
  obtain ⟨v, -, h⟩ := bind_eq_ok.mp h
  cases v with
  | none =>
    cases h
    exact ⟨trivial, rfl⟩
  | some v =>
    obtain ⟨c, hc, h⟩ := bind_eq_ok.mp h
    cases h
    exact ⟨(narrow_eq_ok hc).2, rfl⟩

/-- The split of a leaf: each element stands in the class of its marker. -/
theorem splitLeaf_classes {Has : Int → IExpr → Prop} {set : IntSet} {e : IExpr}
    {cs : List (IExpr × IntSet)} (hhas : ∀ v m, markerOf e v = .ok m → Has v m)
    (hs : IntSet.Canon set) (h : splitLeaf set e = .ok cs) :
    Classes IntSet.den IntSet.Canon Has set cs := by
  unfold splitLeaf at h
  split at h
  · next hn =>
    cases h
    subst hn
    exact ⟨by simp, by simp, by simp [IntSet.den], by simp⟩
  · obtain ⟨ms, hms, h⟩ := bind_eq_ok.mp h
    cases h
    obtain ⟨hmap, hmark⟩ := markAll_spec hms
    have hclass : ∀ c ∈ groupAll ms, ∀ v ∈ c.2, markerOf e v = .ok c.1 := fun c hc v hv =>
      hmark (c.1, v) (mem_groupAll.mp ⟨c.2, hc, hv⟩)
    refine ⟨?_, ?_, ?_, fun c hc v hv => hhas v c.1 (hclass c hc v hv)⟩
    · intro c hc
      obtain ⟨v, hv⟩ := List.exists_mem_of_ne_nil _ (ne_nil_of_mem_groupAll _ hc)
      exact markerOf_ground (hclass c hc v hv)
    · intro c hc
      exact IntSet.canon_sublist (hmap ▸ groupAll_sublist (k := c.1) hc) hs
    · intro w
      constructor
      · intro hw
        have hw' : w ∈ ms.map Prod.snd := by rw [hmap]; exact hw
        obtain ⟨c, hc, rfl⟩ := List.mem_map.mp hw'
        obtain ⟨xs, hxs, hx⟩ := mem_groupAll.mpr (show (c.1, c.2) ∈ ms from hc)
        exact ⟨(c.1, xs), hxs, hx⟩
      · rintro ⟨c, hc, hw⟩
        have hm : (c.1, w) ∈ ms := mem_groupAll.mp ⟨c.2, hc, hw⟩
        show w ∈ set
        rw [← hmap]
        exact List.mem_map_of_mem (f := Prod.snd) hm

section PairClasses

variable {C D V W : Type} [DecidableEq C] [DecidableEq D] {R : ExprIds}
  {H : SupportAlgebra C} {T : SupportAlgebra D} {denH : C → Set V} {denT : D → Set W}
  {CanonH : C → Prop} {CanonT : D → Prop} {Has : V × W → IExpr → Prop}
  (hH : SupportLaws H denH CanonH) (hT : SupportLaws T denT CanonT)

/-- Keyed rectangles of a node: what `Classes` says, before the regrouping. -/
structure RectClasses (denH : C → Set V) (denT : D → Set W) (CanonH : C → Prop)
    (CanonT : D → Prop) (Has : V × W → IExpr → Prop) (d : List (Arc C D))
    (rs : List (IExpr × Arc C D)) : Prop where
  marker : ∀ c ∈ rs, c.1.Normal ∧ immediate c.1 = true
  canon : ∀ c ∈ rs, CanonH c.2.prime ∧ CanonT c.2.sub
  cover : ∀ w, w ∈ nodeDen denH denT d ↔ ∃ c ∈ rs, w.1 ∈ denH c.2.prime ∧ w.2 ∈ denT c.2.sub
  has : ∀ c ∈ rs, ∀ w : V × W, w.1 ∈ denH c.2.prime → w.2 ∈ denT c.2.sub → Has w c.1

omit [DecidableEq C] [DecidableEq D] in
theorem RectClasses.nil : RectClasses denH denT CanonH CanonT Has ([] : List (Arc C D)) [] where
  marker := by simp
  canon := by simp
  cover := by simp
  has := by simp

omit [DecidableEq C] [DecidableEq D] in
/-- The rectangles of one more arc, whichever of its sides was split. -/
theorem RectClasses.cons {a : Arc C D} {as : List (Arc C D)}
    {rs rs' : List (IExpr × Arc C D)}
    (h : RectClasses denH denT CanonH CanonT Has [a] rs)
    (h' : RectClasses denH denT CanonH CanonT Has as rs') :
    RectClasses denH denT CanonH CanonT Has (a :: as) (rs ++ rs') where
  marker := List.forall_mem_append.mpr ⟨h.marker, h'.marker⟩
  canon := List.forall_mem_append.mpr ⟨h.canon, h'.canon⟩
  cover := by
    intro w
    have hw := h.cover w
    rw [nodeDen_cons, nodeDen_nil, Set.union_empty] at hw
    rw [nodeDen_cons, Set.mem_union, hw, h'.cover]
    simp only [List.mem_append, or_and_right, exists_or]
  has := List.forall_mem_append.mpr ⟨h.has, h'.has⟩

omit [DecidableEq C] [DecidableEq D] in
theorem headRects_classes {splitH : C → IExpr → Except Err (List (IExpr × C))} {e : IExpr}
    {HasH : V → IExpr → Prop} (hhas : ∀ w m, HasH w.1 m → Has w m)
    (hsplit : ∀ p cs, CanonH p → splitH p e = .ok cs → Classes denH CanonH HasH p cs) :
    ∀ {d : List (Arc C D)} {rs : List (IExpr × Arc C D)}, CanonArcs CanonH CanonT d →
      headRects splitH e d = .ok rs → RectClasses denH denT CanonH CanonT Has d rs := by
  intro d
  induction d with
  | nil =>
    intro rs _ h
    cases h
    exact RectClasses.nil
  | cons a as ih =>
    intro rs hc h
    obtain ⟨⟨hp, hs⟩, hcs⟩ := (canonArcs_cons a as).mp hc
    obtain ⟨cs, hcs', h⟩ := bind_eq_ok.mp h
    obtain ⟨rest, hrest, h⟩ := bind_eq_ok.mp h
    cases h
    have h1 := hsplit a.prime cs hp hcs'
    refine RectClasses.cons ⟨?_, ?_, ?_, ?_⟩ (ih hcs hrest)
    · exact List.forall_mem_map.mpr h1.marker
    · exact List.forall_mem_map.mpr fun c hc => ⟨h1.canon c hc, hs⟩
    · intro w
      simp only [nodeDen_cons, nodeDen_nil, Set.union_empty, Set.mem_prod, h1.cover, List.mem_map]
      constructor
      · rintro ⟨⟨c, hc, hw⟩, hw2⟩
        exact ⟨_, ⟨c, hc, rfl⟩, hw, hw2⟩
      · rintro ⟨_, ⟨c, hc, rfl⟩, hw, hw2⟩
        exact ⟨⟨c, hc, hw⟩, hw2⟩
    · exact List.forall_mem_map.mpr fun c hc w hw _ => hhas w c.1 (h1.has c hc w.1 hw)

omit [DecidableEq C] [DecidableEq D] in
theorem tailRects_classes {splitT : D → IExpr → Except Err (List (IExpr × D))} {e : IExpr}
    {HasT : W → IExpr → Prop} (hhas : ∀ w m, HasT w.2 m → Has w m)
    (hsplit : ∀ p cs, CanonT p → splitT p e = .ok cs → Classes denT CanonT HasT p cs) :
    ∀ {d : List (Arc C D)} {rs : List (IExpr × Arc C D)}, CanonArcs CanonH CanonT d →
      tailRects splitT e d = .ok rs → RectClasses denH denT CanonH CanonT Has d rs := by
  intro d
  induction d with
  | nil =>
    intro rs _ h
    cases h
    exact RectClasses.nil
  | cons a as ih =>
    intro rs hc h
    obtain ⟨⟨hp, hs⟩, hcs⟩ := (canonArcs_cons a as).mp hc
    obtain ⟨cs, hcs', h⟩ := bind_eq_ok.mp h
    obtain ⟨rest, hrest, h⟩ := bind_eq_ok.mp h
    cases h
    have h1 := hsplit a.sub cs hs hcs'
    refine RectClasses.cons ⟨?_, ?_, ?_, ?_⟩ (ih hcs hrest)
    · exact List.forall_mem_map.mpr h1.marker
    · exact List.forall_mem_map.mpr fun c hc => ⟨hp, h1.canon c hc⟩
    · intro w
      simp only [nodeDen_cons, nodeDen_nil, Set.union_empty, Set.mem_prod, h1.cover, List.mem_map]
      constructor
      · rintro ⟨hw1, c, hc, hw⟩
        exact ⟨_, ⟨c, hc, rfl⟩, hw1, hw⟩
      · rintro ⟨_, ⟨c, hc, rfl⟩, hw1, hw⟩
        exact ⟨hw1, c, hc, hw⟩
    · exact List.forall_mem_map.mpr fun c hc w _ hw => hhas w c.1 (h1.has c hc w.2 hw)

include hH hT in
/-- Keyed rectangles collected key by key: a class lists words of rectangles of its own key
only, and no word is lost. -/
theorem regrouped_spec {κ : Type} [DecidableEq κ] {rs : List (κ × Arc C D)}
    {cs : List (κ × List (Arc C D))}
    (hcs : ((groupAll rs).map fun c => (c.1, canonize H T c.2)).filter (fun c => c.2 ≠ []) = cs)
    (hcanon : ∀ c ∈ rs, CanonH c.2.prime ∧ CanonT c.2.sub) :
    (∀ c ∈ cs, NodeCanon H T denH CanonH CanonT c.2 ∧ (∃ a, (c.1, a) ∈ rs) ∧
      ∀ w ∈ nodeDen denH denT c.2, ∃ a, (c.1, a) ∈ rs ∧ w.1 ∈ denH a.prime ∧ w.2 ∈ denT a.sub) ∧
    ∀ w : V × W, (∃ c ∈ rs, w.1 ∈ denH c.2.prime ∧ w.2 ∈ denT c.2.sub) ↔
      ∃ c ∈ cs, w ∈ nodeDen denH denT c.2 := by
  have hrect : ∀ g ∈ groupAll rs, ∀ a ∈ g.2, (g.1, a) ∈ rs := fun g hg a ha =>
    mem_groupAll.mp ⟨g.2, hg, ha⟩
  have hgroup : ∀ g ∈ groupAll rs, CanonArcs CanonH CanonT g.2 := fun g hg a ha =>
    hcanon _ (hrect g hg a ha)
  have hclass : ∀ c ∈ cs, NodeCanon H T denH CanonH CanonT c.2 ∧ (∃ a, (c.1, a) ∈ rs) ∧
      ∀ w ∈ nodeDen denH denT c.2, ∃ a, (c.1, a) ∈ rs ∧ w.1 ∈ denH a.prime ∧ w.2 ∈ denT a.sub := by
    intro c hc
    obtain ⟨g, hg, rfl⟩ := List.mem_map.mp (List.mem_of_mem_filter (hcs ▸ hc))
    have hcorrect := canonize_correct hH hT (hgroup g hg)
    obtain ⟨a, ha⟩ := List.exists_mem_of_ne_nil _ (ne_nil_of_mem_groupAll _ hg)
    refine ⟨hcorrect.1, ⟨a, hrect g hg a ha⟩, fun w hw => ?_⟩
    rw [hcorrect.2] at hw
    obtain ⟨a, ha, hw⟩ := (mem_nodeDen denH denT).mp hw
    exact ⟨a, hrect g hg a ha, hw⟩
  refine ⟨hclass, fun w => ⟨?_, ?_⟩⟩
  · rintro ⟨c, hc, hw⟩
    obtain ⟨as, hg, ha⟩ := mem_groupAll.mpr (show (c.1, c.2) ∈ rs from hc)
    have hw' : w ∈ nodeDen denH denT (canonize H T as) := by
      rw [(canonize_correct hH hT (hgroup (c.1, as) hg)).2]
      exact (mem_nodeDen denH denT).mpr ⟨c.2, ha, hw⟩
    refine ⟨(c.1, canonize H T as), hcs ▸ List.mem_filter.mpr ⟨List.mem_map_of_mem hg, ?_⟩, hw'⟩
    simp only [decide_eq_true_eq]
    intro he
    rw [he, nodeDen_nil] at hw'
    exact hw'
  · rintro ⟨c, hc, hw⟩
    obtain ⟨a, ha, hwa⟩ := (hclass c hc).2.2 w hw
    exact ⟨(c.1, a), ha, hwa⟩

include hH hT in
theorem classesOf_classes {d : List (Arc C D)} {rs : List (IExpr × Arc C D)}
    (h : RectClasses denH denT CanonH CanonT Has d rs) :
    Classes (nodeDen denH denT) (NodeCanon H T denH CanonH CanonT) Has d (classesOf H T rs) := by
  obtain ⟨hclass, hcover⟩ := regrouped_spec hH hT (show _ = classesOf H T rs from rfl) h.canon
  refine ⟨fun c hc => ?_, fun c hc => (hclass c hc).1, fun w => (h.cover w).trans (hcover w),
    fun c hc w hw => ?_⟩
  · obtain ⟨a, ha⟩ := (hclass c hc).2.1
    exact h.marker _ ha
  · obtain ⟨a, ha, hw1, hw2⟩ := (hclass c hc).2.2 w hw
    exact h.has _ ha w hw1 hw2

end PairClasses

/-! ## Refining classes -/

section Refine

variable {C D W : Type} {A : SupportAlgebra (List (Arc C D))} {dn : List (Arc C D) → Set W}
  {Cn : List (Arc C D) → Prop} {Has : W → IExpr → Prop} (hA : SupportLaws A dn Cn)

/-- What is known of one accumulated class. -/
private def Held (dn : List (Arc C D) → Set W) (Cn : List (Arc C D) → Prop)
    (Has : W → IExpr → Prop) (c : IExpr × List (Arc C D)) : Prop :=
  (c.1.Normal ∧ immediate c.1 = true) ∧ Cn c.2 ∧ ∀ w ∈ dn c.2, Has w c.1

include hA in
private theorem held_join (m : IExpr) (x y : List (Arc C D)) (hx : Held dn Cn Has (m, x))
    (hy : Held dn Cn Has (m, y)) : Held dn Cn Has (m, A.join x y) := by
  refine ⟨hx.1, hA.canon_join hx.2.1 hy.2.1, ?_⟩
  intro w hw
  rw [hA.den_join hx.2.1 hy.2.1] at hw
  rcases hw with hw | hw
  · exact hx.2.2 w hw
  · exact hy.2.2 w hw

include hA in
private theorem joinInsert_cover {m : IExpr} {x : List (Arc C D)}
    {acc : List (IExpr × List (Arc C D))} (hx : Cn x) (hacc : ∀ c ∈ acc, Cn c.2) (w : W) :
    (∃ c ∈ joinInsert A.join m x acc, w ∈ dn c.2) ↔ w ∈ dn x ∨ ∃ c ∈ acc, w ∈ dn c.2 := by
  induction acc with
  | nil => simp [joinInsert]
  | cons c acc ih =>
    obtain ⟨m', y⟩ := c
    obtain ⟨hc, hcs⟩ := List.forall_mem_cons.mp hacc
    unfold joinInsert
    split
    · simp only [List.mem_cons, exists_eq_or_imp, hA.den_join hc hx, Set.mem_union]
      rw [or_comm (a := w ∈ dn y), or_assoc]
    · simp only [List.mem_cons, exists_eq_or_imp, ih hcs]
      exact or_left_comm

include hA in
private theorem foldl_joinInsert {fine acc : List (IExpr × List (Arc C D))}
    (hfine : ∀ c ∈ fine, Held dn Cn Has c) (hacc : ∀ c ∈ acc, Held dn Cn Has c) :
    (∀ c ∈ fine.foldl (fun acc c => joinInsert A.join c.1 c.2 acc) acc, Held dn Cn Has c) ∧
      ∀ w, (∃ c ∈ fine.foldl (fun acc c => joinInsert A.join c.1 c.2 acc) acc, w ∈ dn c.2) ↔
        (∃ c ∈ fine, w ∈ dn c.2) ∨ ∃ c ∈ acc, w ∈ dn c.2 := by
  induction fine generalizing acc with
  | nil => exact ⟨hacc, by simp⟩
  | cons c fine ih =>
    obtain ⟨hc, hfs⟩ := List.forall_mem_cons.mp hfine
    obtain ⟨h1, h2⟩ := ih hfs (forall_joinInsert (held_join hA) hc hacc)
    refine ⟨h1, fun w => ?_⟩
    rw [List.foldl_cons, h2, joinInsert_cover hA hc.2.1 (fun c hc => (hacc c hc).2.1)]
    simp only [List.mem_cons, exists_eq_or_imp]
    rw [or_left_comm, or_assoc]

include hA in
private theorem refineAll_classes
    {refine : IExpr → List (Arc C D) → Except Err (List (IExpr × List (Arc C D)))} :
    ∀ {cs acc r : List (IExpr × List (Arc C D))},
    (∀ c ∈ cs, ∀ fine, refine c.1 c.2 = .ok fine → Classes dn Cn Has c.2 fine) →
    (∀ c ∈ acc, Held dn Cn Has c) → refineAll A.join refine cs acc = .ok r →
    (∀ c ∈ r, Held dn Cn Has c) ∧ ∀ w, (∃ c ∈ r, w ∈ dn c.2) ↔
      (∃ c ∈ cs, w ∈ dn c.2) ∨ ∃ c ∈ acc, w ∈ dn c.2 := by
  intro cs
  induction cs with
  | nil =>
    intro acc r _ hacc h
    cases h
    exact ⟨hacc, by simp⟩
  | cons c cs ih =>
    intro acc r href hacc h
    obtain ⟨hc, hcs⟩ := List.forall_mem_cons.mp href
    obtain ⟨fine, hfine, h⟩ := bind_eq_ok.mp h
    have hcl := hc fine hfine
    obtain ⟨h1, h2⟩ := foldl_joinInsert hA
      (fun x hx => ⟨hcl.marker x hx, hcl.canon x hx, hcl.has x hx⟩) hacc
    obtain ⟨h3, h4⟩ := ih hcs h1 h
    refine ⟨h3, fun w => ?_⟩
    rw [h4, h2, ← hcl.cover]
    simp only [List.mem_cons, exists_eq_or_imp]
    rw [or_left_comm, or_assoc]

end Refine

/-! ## The split at every sort -/

theorem support_pairwise (e : IExpr) : (support e).Pairwise (· ≤ ·) :=
  List.pairwise_insertionSort _ _

theorem le_getLast_of_mem {l : List Nat} (hl : l.Pairwise (· ≤ ·)) (hne : l ≠ []) :
    ∀ p ∈ l, p ≤ l.getLast hne := by
  intro p hp
  have hsplit := List.dropLast_append_getLast hne
  rw [← hsplit] at hp hl
  rcases List.mem_append.mp hp with hp | hp
  · exact (List.pairwise_append.mp hl).2.2 p hp _ (List.mem_singleton.mpr rfl)
  · exact (List.mem_singleton.mp hp).le

section PairSplit

variable {C D V W : Type} [DecidableEq C] [DecidableEq D] {R : ExprIds} {wh : Nat}
  {H : SupportAlgebra C} {T : SupportAlgebra D} {A : SupportAlgebra (List (Arc C D))}
  {denH : C → Set V} {denT : D → Set W} {CanonH : C → Prop} {CanonT : D → Prop}
  {marksH : IExpr → V → IExpr → Prop} {marksT : IExpr → W → IExpr → Prop}
  {splitH : C → IExpr → Except Err (List (IExpr × C))}
  {splitT : D → IExpr → Except Err (List (IExpr × D))}
  (hH : SupportLaws H denH CanonH) (hT : SupportLaws T denT CanonT)
  (hA : SupportLaws A (nodeDen denH denT) (NodeCanon H T denH CanonH CanonT))
  (hA0 : A.none = [])
  (ihH : ∀ d e cs, e.Normal → CanonH d → splitH d e = .ok cs → Classes denH CanonH (marksH e) d cs)
  (ihT : ∀ d e cs, e.Normal → CanonT d → splitT d e = .ok cs → Classes denT CanonT (marksT e) d cs)

include hH hT hA hA0 ihH ihT

private theorem splitPair_round {fuel : Nat}
    (ih : ∀ n, fuel = n + 1 → ∀ d e cs, e.Normal → NodeCanon H T denH CanonH CanonT d →
      splitPair R H T splitH splitT wh A.join n d e = .ok cs →
      Classes (nodeDen denH denT) (NodeCanon H T denH CanonH CanonT)
      (CutMarks R wh marksH marksT e) d cs)
    {d : List (Arc C D)} {e : IExpr} {cs : List (IExpr × List (Arc C D))} (he : e.Normal)
    (hd : NodeCanon H T denH CanonH CanonT d)
    (hcs : splitPair R H T splitH splitT wh A.join fuel d e = .ok cs) :
    Classes (nodeDen denH denT) (NodeCanon H T denH CanonH CanonT)
      (CutMarks R wh marksH marksT e) d cs := by
  rw [splitPair.eq_def, ← hA0] at hcs
  refine splitGround_classes hA hd he (fun hg _ => .ground hg) (fun hng hcs => ?_) hcs
  split at hcs
  · cases hcs
  · next r ps hsup =>
    have hlast := le_getLast_of_mem (support_pairwise e) (by rw [hsup]; simp)
    simp only [hsup] at hlast
    have hleast : ∀ p ∈ support e, r ≤ p := by
      intro p hp
      have hsorted := support_pairwise e
      rw [hsup] at hp hsorted
      rcases List.mem_cons.mp hp with rfl | hp
      · exact le_rfl
      · exact List.rel_of_pairwise_cons hsorted hp
    have hne : support e ≠ [] := by
      rw [hsup]
      simp
    split at hcs
    · next hw =>
      obtain ⟨rs, hrs, hcs⟩ := bind_eq_ok.mp hcs
      cases hcs
      have hlt : ∀ p ∈ support e, p < wh := fun p hp =>
        lt_of_le_of_lt (hlast p (hsup ▸ hp)) hw
      exact classesOf_classes hH hT (headRects_classes (fun w m => .head hng hne hlt)
        (fun p cs hp => ihH p e cs he hp) hd.canon hrs)
    next hspan =>
    split at hcs
    · next hw =>
      obtain ⟨e', he', hcs⟩ := bind_eq_ok.mp hcs
      obtain ⟨rs, hrs, hcs⟩ := bind_eq_ok.mp hcs
      cases hcs
      have hle : ∀ p ∈ support e, wh ≤ p := fun p hp => le_trans hw (hleast p hp)
      exact classesOf_classes hH hT (tailRects_classes (fun w m => .tail hng hne hle he')
        (fun p cs hp => ihT p e' cs (shiftPositions_normal he he') hp) hd.canon hrs)
    next hw =>
    split at hcs
    · cases hcs
    · next n _ =>
      obtain ⟨cs0, hcs0, hcs⟩ := bind_eq_ok.mp hcs
      have h0 := ih n rfl d (.var r) cs0 trivial hd hcs0
      have hmem : r ∈ support e := by
        rw [hsup]
        exact List.mem_cons_self
      have hacross : ∃ p ∈ support e, wh ≤ p := by
        rw [hsup]
        exact ⟨_, List.getLast_mem (List.cons_ne_nil r ps), not_lt.mp hspan⟩
      have hrefine : ∀ c ∈ cs0, ∀ fine,
          (do splitPair R H T splitH splitT wh A.join n c.2 (← subst R e r c.1)) = Except.ok fine →
          Classes (nodeDen denH denT) (NodeCanon H T denH CanonH CanonT)
            (CutMarks R wh marksH marksT e) c.2 fine := by
        intro c hc fine hfine
        obtain ⟨e', he', hfine⟩ := bind_eq_ok.mp hfine
        have hn := subst_normal he (h0.marker c hc).1 he'
        have hfc := ih n rfl c.2 e' fine hn (h0.canon c hc) hfine
        refine ⟨hfc.marker, hfc.canon, hfc.cover, fun x hx w hwx => ?_⟩
        have hvar := h0.has c hc w ((hfc.cover w).mpr ⟨x, hx, hwx⟩)
        exact .span hng hmem hleast (not_le.mp hw) hacross hvar he' (hfc.has x hx w hwx)
      obtain ⟨h1, h2⟩ := refineAll_classes hA hrefine (by simp) hcs
      refine ⟨fun c hc => (h1 c hc).1, fun c hc => (h1 c hc).2.1, ?_, fun c hc => (h1 c hc).2.2⟩
      intro w
      rw [h2, h0.cover]
      simp

theorem splitPair_classes (fuel : Nat) : ∀ d e cs, e.Normal → NodeCanon H T denH CanonH CanonT d →
    splitPair R H T splitH splitT wh A.join fuel d e = .ok cs →
    Classes (nodeDen denH denT) (NodeCanon H T denH CanonH CanonT)
      (CutMarks R wh marksH marksT e) d cs := by
  induction fuel with
  | zero =>
    intro d e cs
    exact splitPair_round hH hT hA hA0 ihH ihT (fun n hn => by omega)
  | succ n ih =>
    intro d e cs
    refine splitPair_round hH hT hA hA0 ihH ihT (fun m hm => ?_)
    obtain rfl : n = m := by omega
    exact ih

end PairSplit

/-- `split_equiv` returns classes of the diagram, each of the words that have its
marker, whatever the sort and wherever the expression reads. By induction on the
sort. -/
theorem splitEquiv_classes {N : Numbering} {R : ExprIds} : (s : Shape) → (d : Code s) →
    (e : IExpr) → (cs : List (IExpr × Code s)) → e.Normal → Canon N s d →
    splitEquiv N R s d e = .ok cs → Classes (den s) (Canon N s) (Marks R s e) d cs
  | .unit, _, _, _, he, hd, h =>
    splitGround_classes (laws N .unit) hd he (fun hg _ => ⟨hg, rfl⟩)
      (fun _ (h : Except.error Err.undefinedBehaviour = Except.ok _) => nomatch h) h
  | .leaf, _, _, _, he, hd, h =>
    splitGround_classes (laws N .leaf) hd he (fun hg _ => Or.inl ⟨hg, rfl⟩)
      (fun hng => splitLeaf_classes (fun _ _ hm => Or.inr ⟨hng, hm⟩) hd) h
  | .pair h t, d, e, cs, he, hd, hcs =>
    splitPair_classes (laws N h) (laws N t) (laws N (.pair h t)) rfl
      (splitEquiv_classes h) (splitEquiv_classes t) _ d e cs he hd hcs

end LibHSC
