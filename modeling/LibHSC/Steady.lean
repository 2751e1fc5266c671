import LibHSC.Additivity

/-!
Monotone application. A deflationary closure is not additive, but it still gives more on
more words, and returns on fewer words when it returns on more. `Steady` bundles this; there
is one rule for each way terms are built.

In the head of a `node` it fails: the closure is then taken prime by prime, and more words
may cut the primes smaller. In the tail it does not: the sub of an arc is all that stands
behind each word of its prime.
-/

namespace LibHSC

open Lia

/-- A fallible function of diagrams that is monotone where it returns, and returns below
where it returns. -/
structure Steady {C W : Type} (den : C → Set W) (Canon : C → Prop)
    (f : Nat → C → Except Err C) : Prop where
  mono : ∀ {n k c r}, n ≤ k → f n c = .ok r → f k c = .ok r
  canon : ∀ {n c r}, Canon c → f n c = .ok r → Canon r
  below : ∀ {n c c' r}, Canon c → Canon c' → den c' ⊆ den c → f n c = .ok r →
    ∃ k r', f k c' = .ok r' ∧ den r' ⊆ den r

/-- A function that keeps its argument. -/
structure Inflates {C W : Type} (den : C → Set W) (Canon : C → Prop)
    (f : Nat → C → Except Err C) : Prop where
  le : ∀ {n c r}, Canon c → f n c = .ok r → den c ⊆ den r

theorem Inflates.congr {C W : Type} {den : C → Set W} {Canon : C → Prop}
    {f g : Nat → C → Except Err C} (hf : Inflates den Canon f) (h : ∀ n d, f n d = g n d) :
    Inflates den Canon g :=
  funext (fun n => funext (h n)) ▸ hf

namespace Steady

variable {C W : Type} {den : C → Set W} {Canon : C → Prop} {f g : Nat → C → Except Err C}

theorem unique (hf : Steady den Canon f) {n k : Nat} {c r r' : C} (h : f n c = .ok r)
    (h' : f k c = .ok r') : r = r' := by
  have h1 := hf.mono (Nat.le_max_left n k) h
  have h2 := hf.mono (Nat.le_max_right n k) h'
  rw [h1] at h2
  cases h2
  rfl

theorem congr (hf : Steady den Canon f) (h : ∀ n d, f n d = g n d) : Steady den Canon g :=
  funext (fun n => funext (h n)) ▸ hf

theorem compose (hg : Steady den Canon g) (hf : Steady den Canon f) :
    Steady den Canon (fun n d => do g n (← f n d)) where
  mono := fun hk h => bind_le (fun _ => hf.mono hk) (fun _ => hg.mono hk) h
  canon := by
    intro n c r hc h
    obtain ⟨x, hx, h⟩ := bind_eq_ok.mp h
    exact hg.canon (hf.canon hc hx) h
  below := by
    intro n c c' r hc hc' hle h
    obtain ⟨x, hx, h⟩ := bind_eq_ok.mp h
    obtain ⟨k, x', hx', hxle⟩ := hf.below hc hc' hle hx
    obtain ⟨j, r', hr', hrle⟩ := hg.below (hf.canon hc hx) (hf.canon hc' hx') hxle h
    exact ⟨max k j, r', bind_of_ok (hf.mono (Nat.le_max_left k j) hx')
      (hg.mono (Nat.le_max_right k j) hr'), hrle⟩

/-- Two values put together by an operation that is monotone. -/
theorem combine {op : C → C → C} (hf : Steady den Canon f) (hg : Steady den Canon g)
    (hcanon : ∀ {a b}, Canon a → Canon b → Canon (op a b))
    (hmono : ∀ {a b a' b'}, Canon a → Canon b → Canon a' → Canon b' → den a ⊆ den a' →
      den b ⊆ den b' → den (op a b) ⊆ den (op a' b')) :
    Steady den Canon (fun n d => do return op (← f n d) (← g n d)) where
  mono := fun hk h => bind_le (fun _ => hf.mono hk) (fun _ => bind_le (fun _ => hg.mono hk)
    fun _ h => h) h
  canon := by
    intro n c r hc h
    obtain ⟨x, hx, h⟩ := bind_eq_ok.mp h
    obtain ⟨y, hy, h⟩ := bind_eq_ok.mp h
    cases h
    exact hcanon (hf.canon hc hx) (hg.canon hc hy)
  below := by
    intro n c c' r hc hc' hle h
    obtain ⟨x, hx, h⟩ := bind_eq_ok.mp h
    obtain ⟨y, hy, h⟩ := bind_eq_ok.mp h
    cases h
    obtain ⟨k, x', hx', hxle⟩ := hf.below hc hc' hle hx
    obtain ⟨j, y', hy', hyle⟩ := hg.below hc hc' hle hy
    exact ⟨max k j, op x' y', bind_of_ok (hf.mono (Nat.le_max_left k j) hx')
      (bind_of_ok (hg.mono (Nat.le_max_right k j) hy') rfl),
      hmono (hf.canon hc' hx') (hg.canon hc' hy') (hf.canon hc hx) (hg.canon hc hy) hxle hyle⟩

theorem same : Steady den Canon (fun _ d => .ok d) where
  mono := fun _ h => h
  canon := fun hc h => by
    cases h
    exact hc
  below := fun _ _ hle h => by
    cases h
    exact ⟨0, _, rfl, hle⟩

theorem const {w : C} (hw : Canon w) : Steady den Canon (fun _ _ => .ok w) where
  mono := fun _ h => h
  canon := fun _ h => by
    cases h
    exact hw
  below := fun _ _ _ h => by
    cases h
    exact ⟨0, w, rfl, subset_rfl⟩

end Steady

theorem Inflates.same {C W : Type} {den : C → Set W} {Canon : C → Prop} :
    Inflates den Canon (fun _ d => .ok d) :=
  ⟨fun _ h => by
    cases h
    exact subset_rfl⟩

theorem Pointwise.inflates {C W : Type} {den : C → Set W} {Canon : C → Prop}
    {f : Nat → C → Except Err C} {rel : W → W → Prop} (hf : Pointwise den Canon f rel)
    (hrefl : ∀ w, rel w w) : Inflates den Canon f := by
  refine ⟨fun {n c r} hc h => ?_⟩
  rw [hf.image hc h]
  exact fun w hw => ⟨w, hw, hrefl w⟩

theorem Inflates.compose {C W : Type} {den : C → Set W} {Canon : C → Prop}
    {f g : Nat → C → Except Err C} (hg : Inflates den Canon g) (hf : Inflates den Canon f)
    (hcanon : ∀ {n c r}, Canon c → f n c = .ok r → Canon r) :
    Inflates den Canon (fun n d => do g n (← f n d)) := by
  refine ⟨fun {n c r} hc h => ?_⟩
  obtain ⟨x, hx, h⟩ := bind_eq_ok.mp h
  exact (hf.le hc hx).trans (hg.le (hcanon hc hx) h)

section Rules

variable {C W : Type} [DecidableEq C] {A : SupportAlgebra C} {den : C → Set W} {Canon : C → Prop}
  (hA : SupportLaws A den Canon) {f g : Nat → C → Except Err C}

include hA

omit [DecidableEq C] in
theorem Pointwise.steady {rel : W → W → Prop} (hf : Pointwise den Canon f rel)
    (hnone : ∀ n, f n A.none = .ok A.none) : Steady den Canon f where
  mono := hf.mono
  canon := hf.canon
  below := by
    intro n c c' r hc hc' hle h
    obtain ⟨k, r', hr'⟩ := hf.ends_all hA hnone hc' fun w hw => ⟨c, hc, hle hw, n, r, h⟩
    refine ⟨k, r', hr', ?_⟩
    rw [hf.image hc' hr', hf.image hc h]
    exact post_mono hle

theorem Steady.guard (hf : Steady den Canon f) :
    Steady den Canon (fun n d => if d = A.none then .ok A.none else f n d) where
  mono := fun hk h => ite_le (fun h => h) (hf.mono hk) h
  canon := by
    intro n c r hc h
    split at h
    · cases h
      exact hA.canon_none
    · exact hf.canon hc h
  below := by
    intro n c c' r hc hc' hle h
    by_cases hn' : c' = A.none
    · refine ⟨0, A.none, if_pos hn', ?_⟩
      rw [hA.den_none]
      exact Set.empty_subset _
    · have hn : c ≠ A.none := by
        rintro rfl
        rw [hA.den_none, Set.subset_empty_iff] at hle
        exact hn' ((hA.eq_none_iff hc').mpr hle)
      rw [if_neg hn] at h
      obtain ⟨k, r', hr', hrle⟩ := hf.below hc hc' hle h
      exact ⟨k, r', (if_neg hn').trans hr', hrle⟩

omit [DecidableEq C] in
theorem Steady.join (hf : Steady den Canon f) (hg : Steady den Canon g) :
    Steady den Canon (fun n d => do return A.join (← f n d) (← g n d)) :=
  hf.combine hg hA.canon_join fun ha hb ha' hb' hle hle' => by
    rw [hA.den_join ha hb, hA.den_join ha' hb']
    exact Set.union_subset_union hle hle'

omit [DecidableEq C] in
theorem Steady.meet (hf : Steady den Canon f) (hg : Steady den Canon g) :
    Steady den Canon (fun n d => do return A.meet (← f n d) (← g n d)) :=
  hf.combine hg hA.canon_meet fun ha hb ha' hb' hle hle' => by
    rw [hA.den_meet ha hb, hA.den_meet ha' hb']
    exact Set.inter_subset_inter hle hle'

/-- The closure of an inflationary step: below an argument it stays below the closed set
that the argument ends in. -/
theorem Steady.closure (hfin : ∀ {c}, Canon c → (den c).Finite) (hg : Steady den Canon g)
    (hinf : Inflates den Canon g) :
    Steady den Canon (fun n d => untilStable .fuel (g n) n d) where
  mono := fun hk h => untilStable_mono (fun _ _ => hg.mono hk) hk h
  canon := fun hc h => (untilStable_inv (fun _ _ hx hy => hg.canon hx hy) hc h).1
  below := by
    intro n c c' r hc hc' hle h
    obtain ⟨⟨hrc, hcr⟩, hfix⟩ := untilStable_inv (P := fun y => Canon y ∧ den c ⊆ den y)
      (fun x y hx hy => ⟨hg.canon hx.1 hy, hx.2.trans (hinf.le hx.1 hy)⟩) ⟨hc, subset_rfl⟩ h
    have hround : ∀ {k x y}, Canon x → den x ⊆ den r → g k x = .ok y → den y ⊆ den r := by
      intro k x y hx hxr hy
      obtain ⟨j, y', hy', hyr⟩ := hg.below hrc hx hxr hfix
      rw [hg.unique hy hy']
      exact hyr
    have hmono : ∀ n k x y, n ≤ k → g n x = .ok y → g k x = .ok y := fun _ _ _ _ => hg.mono
    obtain ⟨k, r', hr'⟩ := ends_loop hA hmono (hfin hrc) (fun x hx hxr => by
      obtain ⟨j, y, hy, hyr⟩ := hg.below hrc hx hxr hfix
      exact ⟨j, y, hy, hg.canon hx hy, hinf.le hx hy, hyr⟩) hc' (hle.trans hcr)
    refine ⟨k, r', hr', ?_⟩
    exact (untilStable_inv (P := fun y => Canon y ∧ den y ⊆ den r)
      (fun x y hx hy => ⟨hg.canon hx.1 hy, hround hx.1 hx.2 hy⟩) ⟨hc', hle.trans hcr⟩ hr').1.2

theorem Inflates.guard (hf : Inflates den Canon f) :
    Inflates den Canon (fun n d => if d = A.none then .ok A.none else f n d) := by
  refine ⟨fun {n c r} hc h => ?_⟩
  by_cases hn : c = A.none
  · rw [hn, hA.den_none]
    exact Set.empty_subset _
  · exact hf.le hc ((if_neg hn).symm.trans h)

omit [DecidableEq C] in
theorem Inflates.join (hcanon : ∀ {n c r}, Canon c → f n c = .ok r → Canon r) :
    Inflates den Canon (fun n d => do return A.join d (← f n d)) := by
  refine ⟨fun {n c r} hc h => ?_⟩
  obtain ⟨x, hx, h⟩ := bind_eq_ok.mp h
  cases h
  rw [hA.den_join hc (hcanon hc hx)]
  exact Set.subset_union_left

omit hA in
theorem Inflates.loop (hinf : Inflates den Canon g)
    (hcanon : ∀ {n c r}, Canon c → g n c = .ok r → Canon r) :
    Inflates den Canon (fun n d => untilStable .fuel (g n) n d) := by
  refine ⟨fun {n c r} hc h => ?_⟩
  exact (untilStable_inv (P := fun y => Canon y ∧ den c ⊆ den y)
    (fun x y hx hy => ⟨hcanon hx.1 hy, hx.2.trans (hinf.le hx.1 hy)⟩) ⟨hc, subset_rfl⟩ h).1.2

section Deflate

variable (hfin : ∀ {c}, Canon c → (den c).Finite) (hg : Steady den Canon g)
  (hdef : ∀ {n c r}, Canon c → g n c = .ok r → den r ⊆ den c)

include hg

omit hA in
/-- A stable value below the argument stays below every round. -/
theorem deflate_above {n : Nat} {c r x : C} (hc : Canon c)
    (h : untilStable .fuel (g n) n c = .ok r) {k : Nat} (hx : Canon x) (hxc : den x ⊆ den c)
    (hstable : ∃ y, g k x = .ok y ∧ den x ⊆ den y) : den x ⊆ den r := by
  obtain ⟨y, hy, hxy⟩ := hstable
  refine (untilStable_inv (P := fun z => Canon z ∧ den x ⊆ den z) (fun z u hz hu => ?_)
    ⟨hc, hxc⟩ h).1.2
  obtain ⟨j, y', hy', hyu⟩ := hg.below hz.1 hx hz.2 hu
  rw [← hg.unique hy hy'] at hyu
  exact ⟨hg.canon hz.1 hu, hxy.trans hyu⟩

include hdef

omit hA in
/-- What a deflationary loop returns is stable. -/
theorem deflate_stable {n : Nat} {c r : C} (hc : Canon c)
    (h : untilStable .fuel (g n) n c = .ok r) :
    Canon r ∧ den r ⊆ den c ∧ g n r = .ok r := by
  obtain ⟨⟨hrc, hle⟩, hfix⟩ := untilStable_inv (P := fun y => Canon y ∧ den y ⊆ den c)
    (fun x y hx hy => ⟨hg.canon hx.1 hy, (hdef hx.1 hy).trans hx.2⟩) ⟨hc, subset_rfl⟩ h
  exact ⟨hrc, hle, hfix⟩

include hfin

/-- A deflationary loop ends where its step returns. -/
theorem deflate_ends {n : Nat} {c y : C} (hc : Canon c) (hy : g n c = .ok y) :
    ∃ k r, untilStable .fuel (g k) k c = .ok r := by
  have hmono : ∀ n k x y, n ≤ k → g n x = .ok y → g k x = .ok y := fun _ _ _ _ => hg.mono
  refine untilStable_total (P := fun x => Canon x ∧ den x ⊆ den c)
    (s := fun x => (den x).ncard) hmono (fun x hx => ?_) c ⟨hc, subset_rfl⟩
  obtain ⟨k, z, hz, -⟩ := hg.below hc hx.1 hx.2 hy
  have hzc := hg.canon hx.1 hz
  have hzx := hdef hx.1 hz
  refine ⟨k, z, hz, ⟨hzc, hzx.trans hx.2⟩, fun hne => ?_⟩
  apply Set.ncard_lt_ncard _ (hfin hx.1)
  exact ⟨hzx, fun hsub => hne (hA.ext hzc hx.1 (Set.Subset.antisymm hzx hsub))⟩

theorem Steady.deflate : Steady den Canon (fun n d => untilStable .fuel (g n) n d) where
  mono := fun hk h => untilStable_mono (fun _ _ => hg.mono hk) hk h
  canon := fun hc h => (untilStable_inv (fun _ _ hx hy => hg.canon hx hy) hc h).1
  below := by
    intro n c c' r hc hc' hle h
    obtain ⟨y, hy⟩ : ∃ y, g n c = .ok y := by
      cases n with
      | zero => cases h
      | succ n =>
        obtain ⟨y, hy, -⟩ := bind_eq_ok.mp h
        exact ⟨y, hy⟩
    obtain ⟨j, y', hy', -⟩ := hg.below hc hc' hle hy
    obtain ⟨k, r', hr'⟩ := deflate_ends hA hfin hg hdef hc' hy'
    obtain ⟨hrc, hrle, hfix⟩ := deflate_stable hg hdef hc' hr'
    exact ⟨k, r', hr', deflate_above hg hc h hrc (hrle.trans hle) ⟨r', hfix, subset_rfl⟩⟩

end Deflate

end Rules

/-! ## Terms with no deflationary closure in the head of a `node` -/

namespace OpTerm

section Tame

variable {H T D : Type}

mutual

/-- A `gfp` may stand anywhere outside a `node`, and schedules are of the documented form;
`nodeFree` says what may stand in the operands of a `node`. -/
def Tame (nodeFree nodeClosure : H → T → Prop) : OpTerm H T D → Prop
  | .id => True
  | .node h t => nodeFree h t
  | .sum ts => TameAll nodeFree nodeClosure ts
  | .compose after before => Tame nodeFree nodeClosure after ∧ Tame nodeFree nodeClosure before
  | .lfp t => Tame nodeFree nodeClosure t
  | .gfp t => Tame nodeFree nodeClosure t
  | .within _ => True
  | .saturate f l g => Tame nodeFree nodeClosure f ∧ Tame nodeFree nodeClosure l ∧
      TameAll nodeFree nodeClosure g ∧ f.IsClosure nodeClosure ∧ l.IsClosure nodeClosure
  | .expr _ _ => True

def TameAll (nodeFree nodeClosure : H → T → Prop) : List (OpTerm H T D) → Prop
  | [] => True
  | t :: ts => Tame nodeFree nodeClosure t ∧ TameAll nodeFree nodeClosure ts

end

variable {W : Type} [DecidableEq D] {A : SupportAlgebra D}
  {node : Nat → H → T → D → Except Err D} {cases : Nat → BExpr → List Assign → D → Except Err D}
  {den : D → Set W} {Canon : D → Prop} {nodeWF nodeFree nodeClosure : H → T → Prop}
  {exprWF : BExpr → List Assign → Prop} (hA : SupportLaws A den Canon)
  (hfin : ∀ {c}, Canon c → (den c).Finite)
  (hnode : ∀ {h t}, nodeWF h t → nodeFree h t →
    Steady den Canon (fun n => apply A (node n) (cases n) n (.node h t)))
  (hclosure : ∀ {h t}, nodeWF h t → nodeFree h t → nodeClosure h t →
    Inflates den Canon (fun n => apply A (node n) (cases n) n (.node h t)))
  (hexpr : ∀ {g as}, exprWF g as →
    Steady den Canon (fun n => apply A (node n) (cases n) n (.expr g as)))

include hA hfin hnode hclosure hexpr

mutual

/-- Such a term is monotone, and the closures among them keep their argument. -/
theorem tame_steady : (t : OpTerm H T D) → WF nodeWF exprWF Canon t → Tame nodeFree nodeClosure t →
    Steady den Canon (fun n => apply A (node n) (cases n) n t) ∧
      (t.IsClosure nodeClosure → Inflates den Canon (fun n => apply A (node n) (cases n) n t))
  | .id => fun _ _ => ⟨Steady.same, fun _ => Inflates.same⟩
  | .node _ _ => fun hw ht => ⟨hnode hw ht, hclosure hw ht⟩
  | .sum ts => fun hw ht => by
    refine ⟨Steady.guard hA ?_, fun hc => hc.elim⟩
    exact (tame_sum ts hw ht (Steady.const hA.canon_none)).congr fun _ _ => pure_bind _ _
  | .compose after before => fun hw ht =>
    ⟨((tame_steady after hw.1 ht.1).1.compose (tame_steady before hw.2 ht.2).1).guard hA,
      fun hc => hc.elim⟩
  | .lfp t => fun hw ht => by
    have hg := (Steady.same.join hA (tame_steady t hw ht).1).congr
      (g := fun n d => do return A.join d (← apply A (node n) (cases n) n t d))
      fun _ _ => pure_bind _ _
    have hinf := Inflates.join (f := fun n => apply A (node n) (cases n) n t) hA
      (tame_steady t hw ht).1.canon
    exact ⟨(hg.closure hA hfin hinf).guard hA, fun _ => (hinf.loop hg.canon).guard hA⟩
  | .gfp t => fun hw ht => by
    have hg := (Steady.same.meet hA (tame_steady t hw ht).1).congr
      (g := fun n d => do return A.meet d (← apply A (node n) (cases n) n t d))
      fun _ _ => pure_bind _ _
    refine ⟨(hg.deflate hA hfin ?_).guard hA, fun hc => hc.elim⟩
    intro n c r hc h
    obtain ⟨x, hx, h⟩ := bind_eq_ok.mp h
    cases h
    rw [hA.den_meet hc ((tame_steady t hw ht).1.canon hc hx)]
    exact Set.inter_subset_left
  | .within w => fun hw _ => by
    refine ⟨Steady.guard hA ?_, fun hc => hc.elim⟩
    exact (Steady.same.meet hA (Steady.const hw)).congr fun _ _ => rfl
  | .saturate f l g => fun hw ht => by
    obtain ⟨hwf, hwl, hwg⟩ := hw
    obtain ⟨htf, htl, htg, hcf, hcl⟩ := ht
    obtain ⟨hsf, hif⟩ := tame_steady f hwf htf
    obtain ⟨hsl, hil⟩ := tame_steady l hwl htl
    obtain ⟨hsg, hig⟩ := tame_chain g hwg htg
    have hround := (hsg.compose hsl).compose hsf
    have hinf := ((hig.compose (hil hcl) hsl.canon).compose (hif hcf) hsf.canon)
    exact ⟨(hround.closure hA hfin hinf).guard hA, fun _ => (hinf.loop hround.canon).guard hA⟩
  | .expr _ _ => fun hw _ => ⟨hexpr hw, fun hc => hc.elim⟩

theorem tame_sum : (ts : List (OpTerm H T D)) → WFAll nodeWF exprWF Canon ts →
    TameAll nodeFree nodeClosure ts → ∀ {acc : Nat → D → Except Err D}, Steady den Canon acc →
    Steady den Canon (fun n d => do applySum A (node n) (cases n) n ts d (← acc n d))
  | [], _, _, _, ha => ha.congr fun _ _ => (bind_pure _).symm
  | t :: ts, hw, ht, _, ha =>
    (tame_sum ts hw.2 ht.2 (ha.join hA (tame_steady t hw.1 ht.1).1)).congr fun n d => by
      simp only [applySum, bind_assoc, pure_bind]

theorem tame_chain : (ts : List (OpTerm H T D)) → WFAll nodeWF exprWF Canon ts →
    TameAll nodeFree nodeClosure ts →
    Steady den Canon (fun n => applyChain A (node n) (cases n) n ts) ∧
      Inflates den Canon (fun n => applyChain A (node n) (cases n) n ts)
  | [], _, _ => ⟨Steady.same, Inflates.same⟩
  | t :: ts, hw, ht => by
    obtain ⟨hs, hi⟩ := tame_chain ts hw.2 ht.2
    have hg := (Steady.same.join hA (tame_steady t hw.1 ht.1).1).congr
      (g := fun n d => do return A.join d (← apply A (node n) (cases n) n t d))
      fun _ _ => pure_bind _ _
    have hinf := Inflates.join (f := fun n => apply A (node n) (cases n) n t) hA
      (tame_steady t hw.1 ht.1).1.canon
    have heq : ∀ n d, (do
        let x ← (do return A.join d (← apply A (node n) (cases n) n t d))
        applyChain A (node n) (cases n) n ts x) =
        applyChain A (node n) (cases n) n (t :: ts) d := fun n d => by
      simp only [applyChain, bind_assoc, pure_bind]
    exact ⟨(hs.compose hg).congr heq, (hi.compose hinf hg.canon).congr heq⟩

end

end Tame

end OpTerm

/-! ## Node terms -/

section Node

variable {C D σ τ V W : Type} [DecidableEq C] [DecidableEq D] {H : SupportAlgebra C}
  {T : SupportAlgebra D} {MH : Nat → TermAlgebra C σ} {MT : Nat → TermAlgebra D τ}
  {denH : C → Set V} {denT : D → Set W} {CanonH : C → Prop} {CanonT : D → Prop}
  {WFH AddH : σ → Prop} {WFT AddT : τ → Prop} {relH : σ → V → V → Prop}
  {relT : τ → W → W → Prop} (hH : SupportLaws H denH CanonH) (hT : SupportLaws T denT CanonT)
  (LH : ∀ n, TermLaws (MH n) denH CanonH WFH AddH relH)
  (LT : ∀ n, TermLaws (MT n) denT CanonT WFT AddT relT)
  (leH : ∀ {n k}, n ≤ k → (MH n).Le (MH k)) (leT : ∀ {n k}, n ≤ k → (MT n).Le (MT k))
  (hid : ∀ n h c, (MH n).isId h = true → (MH n).apply h c = .ok c)
  {h : σ} {t : τ} (hh : WFH h) (ht : WFT t)
  (hpH : Pointwise denH CanonH (fun n => (MH n).apply h) (relH h))

omit [DecidableEq C] [DecidableEq D] in
/-- What stands behind one word of the head stands behind one arc. -/
theorem arc_behind {c : List (Arc C D)} (hc : NodeCanon H T denH CanonH CanonT c) {v : V}
    {S : Set W} (hne : S.Nonempty) (hle : ∀ s ∈ S, (v, s) ∈ nodeDen denH denT c) :
    ∃ b ∈ c, v ∈ denH b.prime ∧ S ⊆ denT b.sub := by
  obtain ⟨s, hs⟩ := hne
  obtain ⟨b, hb, hvb, -⟩ := (mem_nodeDen denH denT).mp (hle s hs)
  refine ⟨b, hb, hvb, fun s' hs' => ?_⟩
  obtain ⟨b', hb', hvb', hsb'⟩ := (mem_nodeDen denH denT).mp (hle s' hs')
  rw [DisjointPrimes.eq_of_mem denH hc.disjoint hb hb' hvb hvb']
  exact hsb'

omit [DecidableEq C] [DecidableEq D] in
/-- Below a node, an arc lies inside the arc of any of its primes' words. -/
theorem arc_below {c c' : List (Arc C D)} (hc : NodeCanon H T denH CanonH CanonT c)
    (hc' : NodeCanon H T denH CanonH CanonT c') (hT : SupportLaws T denT CanonT)
    (hle : nodeDen denH denT c' ⊆ nodeDen denH denT c) {a' : Arc C D} (ha' : a' ∈ c') {v : V}
    (hv : v ∈ denH a'.prime) :
    ∃ b ∈ c, v ∈ denH b.prime ∧ denT a'.sub ⊆ denT b.sub := by
  refine arc_behind hc (hT.nonempty_of_ne_none (hc'.canon a' ha').2 (hc'.sub_ne a' ha')) ?_
  exact fun s hs => hle ((mem_nodeDen denH denT).mpr ⟨a', ha', hv, hs⟩)

include hH hT LH LT leH leT hid hh ht hpH

/-- A `node` term with an additive head is as monotone as its tail: the tail is met with
all the words behind one word of the head. -/
theorem applyNode_steady (hsT : Steady denT CanonT (fun n => (MT n).apply t)) (ha : AddH h) :
    Steady (nodeDen denH denT) (NodeCanon H T denH CanonH CanonT)
      (fun n => applyNode H T (MH n) (MT n) h t) where
  mono := fun hk hr => applyNode_le (leH hk) (leT hk) hr
  canon := fun hc hr => (applyNode_spec hH hT (LH _) (LT _) hh ht hc hr).1
  below := by
    intro n c c' r hc hc' hle hr
    have hret := (applyNode_returns hH hT (LH n) (LT n) (hid n) hh ht hc).mp ⟨r, hr⟩
    -- the arc of the larger node behind an arc of the smaller one
    have hbelow : ∀ a' ∈ c', ∀ v ∈ denH a'.prime, ∃ b ∈ c, v ∈ denH b.prime ∧
        denT a'.sub ⊆ denT b.sub := fun a' ha' v hv => arc_below hc hc' hT hle ha' hv
    -- a word that the head does not refuse brings the tail to the smaller sub
    have htail : ∀ a' ∈ c', ∀ v ∈ denH a'.prime, ∀ u, relH h v u → ∃ b ∈ c,
        u ∈ (MH n).out denH h b.prime ∧ ∃ k s s', (MT k).apply t a'.sub = .ok s' ∧
          (MT n).apply t b.sub = .ok s ∧ denT s' ⊆ denT s := by
      intro a' ha' v hv u hvu
      obtain ⟨b, hb, hvb, hsub⟩ := hbelow a' ha' v hv
      obtain ⟨⟨p, hp⟩, hb2⟩ := hret b hb
      have hu : u ∈ (MH n).out denH h b.prime := by
        rw [TermAlgebra.out_eq denH hp, (LH n).den_apply hh ha (hc.canon b hb).1 hp]
        exact ⟨v, hvb, hvu⟩
      obtain ⟨s, hs⟩ := hb2 ⟨u, hu⟩
      obtain ⟨k, s', hs', hle'⟩ := hsT.below (hc.canon b hb).2 (hc'.canon a' ha').2 hsub hs
      exact ⟨b, hb, hu, k, s, s', hs', hs, hle'⟩
    have hside : ∀ a' ∈ c', ∃ n, ∃ p, (MH n).apply h a'.prime = .ok p ∧
        (p ≠ H.none → ∃ s, (MT n).apply t a'.sub = .ok s) := by
      intro a' ha'
      obtain ⟨hpc, -⟩ := hc'.canon a' ha'
      obtain ⟨j, p, hp⟩ := hpH.ends hpc (hH.nonempty_of_ne_none hpc (hc'.prime_ne a' ha'))
        fun v hv => by
          obtain ⟨b, hb, hvb, -⟩ := hbelow a' ha' v hv
          obtain ⟨⟨q, hq⟩, -⟩ := hret b hb
          exact ⟨b.prime, (hc.canon b hb).1, hvb, n, q, hq⟩
      by_cases hn : p = H.none
      · exact ⟨j, p, hp, fun hne => absurd hn hne⟩
      · obtain ⟨u, hu⟩ := hH.nonempty_of_ne_none ((LH j).canon_apply hh hpc hp) hn
        rw [(LH j).den_apply hh ha hpc hp] at hu
        obtain ⟨v, hv, hvu⟩ := hu
        obtain ⟨b, -, -, k, s, s', hs', -⟩ := htail a' ha' v hv u hvu
        exact ⟨max j k, p, (leH (Nat.le_max_left j k)).apply hp, fun _ =>
          ⟨s', (leT (Nat.le_max_right j k)).apply hs'⟩⟩
    obtain ⟨k, hk⟩ := exists_bound (P := fun n (a : Arc C D) =>
      ∃ p, (MH n).apply h a.prime = .ok p ∧ (p ≠ H.none → ∃ s, (MT n).apply t a.sub = .ok s))
      (fun hk ⟨p, hp, hs⟩ => ⟨p, (leH hk).apply hp, fun hne => by
        obtain ⟨s, hs⟩ := hs hne
        exact ⟨s, (leT hk).apply hs⟩⟩) hside
    obtain ⟨r', hr'⟩ := (applyNode_returns hH hT (LH k) (LT k) (hid k) hh ht hc').mpr
      fun a' ha' => by
        obtain ⟨p, hp, hs⟩ := hk a' ha'
        refine ⟨⟨p, hp⟩, fun hne => hs ?_⟩
        rintro rfl
        rw [TermAlgebra.out_eq denH hp, hH.den_none] at hne
        exact hne.ne_empty rfl
    refine ⟨k, r', hr', ?_⟩
    rw [applyNode_out hH hT (LH k) (LT k) (hid k) hh ht hc' hr',
      applyNode_out hH hT (LH n) (LT n) (hid n) hh ht hc hr]
    rintro w ⟨a', ha', hw1, hw2⟩
    obtain ⟨p, hp, hu⟩ := hw1
    rw [(LH k).den_apply hh ha (hc'.canon a' ha').1 hp] at hu
    obtain ⟨v, hv, hvu⟩ := hu
    obtain ⟨b, hb, hub, j, s, s', hs', hs, hsle⟩ := htail a' ha' v hv w.1 hvu
    obtain ⟨x, hx, hwx⟩ := hw2
    rw [hsT.unique hx hs'] at hwx
    refine ⟨b, hb, hub, ?_⟩
    rw [TermAlgebra.out_eq denT hs]
    exact hsle hwx

omit leH leT hpH in
/-- A `node` term of closures keeps its argument. -/
theorem applyNode_inflates (hinfH : Inflates denH CanonH (fun n => (MH n).apply h))
    (hinf : Inflates denT CanonT (fun n => (MT n).apply t)) :
    Inflates (nodeDen denH denT) (NodeCanon H T denH CanonH CanonT)
      (fun n => applyNode H T (MH n) (MT n) h t) := by
  refine ⟨fun {n c r} hc hr w hw => ?_⟩
  have hret := (applyNode_returns hH hT (LH n) (LT n) (hid n) hh ht hc).mp ⟨r, hr⟩
  rw [applyNode_out hH hT (LH n) (LT n) (hid n) hh ht hc hr]
  obtain ⟨b, hb, hw1, hw2⟩ := (mem_nodeDen denH denT).mp hw
  obtain ⟨⟨p, hp⟩, hb2⟩ := hret b hb
  have hu : w.1 ∈ (MH n).out denH h b.prime := by
    rw [TermAlgebra.out_eq denH hp]
    exact hinfH.le (hc.canon b hb).1 hp hw1
  obtain ⟨s, hs⟩ := hb2 ⟨w.1, hu⟩
  refine ⟨b, hb, hu, ?_⟩
  rw [TermAlgebra.out_eq denT hs]
  exact hinf.le (hc.canon b hb).2 hs hw2

end Node

/-! ## Every sort -/

/-- No deflationary closure in the head of a `node`. -/
def Term.Tame : (s : Shape) → Term s → Prop
  | .unit => OpTerm.Tame (fun _ _ => True) fun _ _ => False
  | .leaf => fun _ => True
  | .pair h t => OpTerm.Tame (fun a b => Term.GfpFree h a ∧ Term.Tame t b)
      fun a b => Term.IsClosure h a ∧ Term.IsClosure t b

namespace Manager

variable {m : Manager}

theorem steady_of_additive {s : Shape} {t : Term s} (hw : m.WF s t)
    (ha : Term.Additive m.brackets s t) :
    Steady (den s) (m.Canon s) (fun n => (m.withFuel n).apply s t) :=
  (m.apply_pointwise hw ha).steady (m.laws s) fun n => (m.withFuel n).apply_absent s t

/-- The laws of a sort do not depend on the fuel. -/
theorem fueledLaws (m : Manager) (n : Nat) (s : Shape) : TermLaws ((m.withFuel n).terms s)
    (den s) (m.Canon s) (m.WF s) (Term.Additive m.brackets s) (m.rel s) :=
  (m.withFuel n).termLaws s

theorem fueled_le (m : Manager) (s : Shape) {n k : Nat} (hk : n ≤ k) :
    ((m.withFuel n).terms s).Le ((m.withFuel k).terms s) :=
  termAlgebra_le (fun hr => caseEngine_le hk m.depth hr) hk s

theorem fueled_isId (m : Manager) (n : Nat) (s : Shape) (t : Term s) (c : Code s)
    (h : ((m.withFuel n).terms s).isId t = true) : ((m.withFuel n).terms s).apply t c = .ok c :=
  termAlgebra_isId m.numbering (m.withFuel n).cases n s t c h

/-- A term with no deflationary closure in the head of a `node` is monotone, at every
sort. -/
theorem tame_steady : (s : Shape) → ∀ (t : Term s), m.WF s t → Term.Tame s t →
    Steady (den s) (m.Canon s) (fun n => (m.withFuel n).apply s t) ∧
      (Term.IsClosure s t → Inflates (den s) (m.Canon s) (fun n => (m.withFuel n).apply s t))
  | .unit => fun t hw ht => OpTerm.tame_steady (m.laws .unit) (fun {c} _ => finite_den .unit c)
      (fun {h} => h.elim) (fun {h} => h.elim)
      (fun {g as} hn => steady_of_additive (s := .unit) (t := OpTerm.expr g as) hn trivial)
      t hw ht
  | .leaf => fun t hw _ => ⟨steady_of_additive (s := .leaf) hw trivial, fun hc =>
    (m.apply_pointwise (s := .leaf) hw trivial).inflates (Term.isClosure_refl .leaf t hc)⟩
  | .pair h t => fun x hw ht => by
    refine OpTerm.tame_steady (m.laws (.pair h t)) (fun {c} _ => finite_den (.pair h t) c)
      (fun {a b} hn hf => ?_) (fun {a b} hn hf hc => ?_)
      (fun {g as} hn => steady_of_additive (s := .pair h t) (t := OpTerm.expr g as) hn trivial)
      x hw ht
    · have ha := Term.additive_of_gfpFree (K := m.brackets) h hf.1
      exact (applyNode_steady (m.laws h) (m.laws t) (m.fueledLaws · h) (m.fueledLaws · t)
        (m.fueled_le h) (m.fueled_le t) (m.fueled_isId · h) hn.1 hn.2
        (m.apply_pointwise hn.1 ha) (tame_steady t b hn.2 hf.2).1 ha).guard (m.laws (.pair h t))
    · have hp := m.apply_pointwise hn.1 (Term.additive_of_gfpFree h hf.1)
      exact (applyNode_inflates (m.laws h) (m.laws t) (m.fueledLaws · h) (m.fueledLaws · t)
        (m.fueled_isId · h) hn.1 hn.2 (hp.inflates (Term.isClosure_refl h a hc.1))
        ((tame_steady t b hn.2 hf.2).2 hc.2)).guard (m.laws (.pair h t))

end Manager

end LibHSC
