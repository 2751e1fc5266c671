import LibHSC.Term
import LibHSC.Lia.Expr
import Mathlib.Data.List.Dedup
import Mathlib.Data.List.Sort

/-!
Operation terms over one sort,

    H ::= id | node(H_h, H_t) | Σ H | H ∘ H | lfp H | gfp H | within(D)
        | saturate(F, L, G…) | expr(guard, assigns…),

the constructors of the operation table, the evaluation of a term on a diagram,
and the relation a term denotes. The sort enters by its support algebra and by
how it evaluates a `node` term; case brackets are the registered engine's.
-/

namespace LibHSC

open Lia

/-- One assignment of a case bracket. -/
structure Assign where
  lhs : IExpr
  rhs : IExpr
  deriving DecidableEq

/-- A term at a sort whose head terms are `H`, tail terms `T`, diagrams `D`. -/
inductive OpTerm (H T D : Type) where
  | id
  | node (head : H) (tail : T)
  | sum (terms : List (OpTerm H T D))
  | compose (after before : OpTerm H T D)
  | lfp (h : OpTerm H T D)
  | gfp (h : OpTerm H T D)
  | within (d : D)
  | saturate (f l : OpTerm H T D) (g : List (OpTerm H T D))
  | expr (guard : BExpr) (assigns : List Assign)

namespace OpTerm

variable {H T D : Type}

def isId : OpTerm H T D → Bool
  | .id => true
  | _ => false

/-! ## Equality of terms -/

section Equality

variable [DecidableEq H] [DecidableEq T] [DecidableEq D]

mutual

def beq : OpTerm H T D → OpTerm H T D → Bool
  | .id, .id => true
  | .node h t, .node h' t' => h == h' && t == t'
  | .sum ts, .sum ts' => beqList ts ts'
  | .compose a b, .compose a' b' => beq a a' && beq b b'
  | .lfp h, .lfp h' => beq h h'
  | .gfp h, .gfp h' => beq h h'
  | .within d, .within d' => d == d'
  | .saturate f l g, .saturate f' l' g' => beq f f' && beq l l' && beqList g g'
  | .expr g as, .expr g' as' => g == g' && as == as'
  | _, _ => false

def beqList : List (OpTerm H T D) → List (OpTerm H T D) → Bool
  | [], [] => true
  | t :: ts, t' :: ts' => beq t t' && beqList ts ts'
  | _, _ => false

end

mutual

theorem beq_iff : (a b : OpTerm H T D) → (beq a b = true ↔ a = b)
  | .id, b => by cases b <;> simp [beq]
  | .node h t, b => by cases b <;> simp [beq]
  | .sum ts, b => by cases b <;> simp [beq, beqList_iff ts]
  | .compose x y, b => by cases b <;> simp [beq, beq_iff x, beq_iff y]
  | .lfp h, b => by cases b <;> simp [beq, beq_iff h]
  | .gfp h, b => by cases b <;> simp [beq, beq_iff h]
  | .within d, b => by cases b <;> simp [beq]
  | .saturate f l g, b => by
    cases b <;> simp [beq, beq_iff f, beq_iff l, beqList_iff g, and_assoc]
  | .expr g as, b => by cases b <;> simp [beq]

theorem beqList_iff : (ts ts' : List (OpTerm H T D)) → (beqList ts ts' = true ↔ ts = ts')
  | [], ts' => by cases ts' <;> simp [beqList]
  | t :: ts, ts' => by cases ts' <;> simp [beqList, beq_iff t, beqList_iff ts]

end

instance : DecidableEq (OpTerm H T D) := fun a b => decidable_of_iff _ (beq_iff a b)

end Equality

/-! ## The constructors of the operation table -/

/-- Collapses to `id` when neither side does anything. -/
def mkNode (headIsId : H → Bool) (tailIsId : T → Bool) (h : H) (t : T) : OpTerm H T D :=
  if headIsId h && tailIsId t then .id else .node h t

/-- The sum of terms, deduplicated and in the order of their ids. `id` is a
legitimate operand and is kept. -/
def mkSum [DecidableEq H] [DecidableEq T] [DecidableEq D] (tid : OpTerm H T D → Nat)
    (terms : List (OpTerm H T D)) : OpTerm H T D :=
  match terms.dedup.insertionSort fun a b => tid a ≤ tid b with
  | [] => .id
  | [t] => t
  | ts => .sum ts

/-- A sum of one term, however often it is repeated, is that term; any other is a
`sum` of the same operands. -/
theorem mkSum_cases [DecidableEq H] [DecidableEq T] [DecidableEq D] (tid : OpTerm H T D → Nat)
    {terms : List (OpTerm H T D)} (hne : terms ≠ []) :
    (mkSum tid terms ∈ terms ∧ ∀ t ∈ terms, t = mkSum tid terms) ∨
      ∃ ts, mkSum tid terms = .sum ts ∧ ∀ t, t ∈ ts ↔ t ∈ terms := by
  have hmem : ∀ t, t ∈ terms.dedup.insertionSort (fun a b => tid a ≤ tid b) ↔ t ∈ terms :=
    fun t => (List.perm_insertionSort _ _).mem_iff.trans List.mem_dedup
  unfold mkSum
  split
  · next h =>
    obtain ⟨t, ht⟩ := List.exists_mem_of_ne_nil _ hne
    have := (hmem t).mpr ht
    rw [h] at this
    cases this
  · next t h =>
    rw [h] at hmem
    refine Or.inl ⟨(hmem t).mp (List.mem_singleton.mpr rfl), ?_⟩
    exact fun t' ht' => List.mem_singleton.mp ((hmem t').mpr ht')
  · exact Or.inr ⟨_, rfl, hmem⟩

def mkCompose : OpTerm H T D → OpTerm H T D → OpTerm H T D
  | .id, before => before
  | after, .id => after
  | after, before => .compose after before

def mkLfp : OpTerm H T D → OpTerm H T D
  | .id => .id
  | h => .lfp h

def mkGfp : OpTerm H T D → OpTerm H T D
  | .id => .id
  | h => .gfp h

/-! ## Evaluation -/

section Evaluation

variable [DecidableEq D] (A : SupportAlgebra D) (nodeApply : H → T → D → Except Err D)
  (cases : BExpr → List Assign → D → Except Err D) (fuel : Nat)

mutual

/-- `apply_local`: `id` is free and absence is never dispatched on; the rest is
`do_apply`. -/
def apply : OpTerm H T D → D → Except Err D
  | .id, d => .ok d
  | .node h t, d => if d = A.none then .ok A.none else nodeApply h t d
  | .sum terms, d => if d = A.none then .ok A.none else applySum terms d A.none
  | .compose after before, d =>
    if d = A.none then .ok A.none else do apply after (← apply before d)
  | .lfp h, d =>
    if d = A.none then .ok A.none
    else untilStable .fuel (fun x => do return A.join x (← apply h x)) fuel d
  | .gfp h, d =>
    if d = A.none then .ok A.none
    else untilStable .fuel (fun x => do return A.meet x (← apply h x)) fuel d
  | .within w, d => if d = A.none then .ok A.none else .ok (A.meet d w)
  | .saturate f l g, d =>
    -- settle everything below, then the edge, then chain the crossing terms
    if d = A.none then .ok A.none
    else untilStable .fuel (fun x => do applyChain g (← apply l (← apply f x))) fuel d
  | .expr guard assigns, d => if d = A.none then .ok A.none else cases guard assigns d

def applySum : List (OpTerm H T D) → D → D → Except Err D
  | [], _, acc => .ok acc
  | t :: ts, d, acc => do applySum ts d (A.join acc (← apply t d))

def applyChain : List (OpTerm H T D) → D → Except Err D
  | [], d => .ok d
  | t :: ts, d => do applyChain ts (A.join d (← apply t d))

end

end Evaluation

/-! ## Well-formed and additive terms -/

section Predicates

variable (nodeWF : H → T → Prop) (exprWF : BExpr → List Assign → Prop) (Canon : D → Prop)

mutual

/-- The diagrams, the node operands and the brackets of a term are well formed. -/
def WF : OpTerm H T D → Prop
  | .id => True
  | .node h t => nodeWF h t
  | .sum terms => WFAll terms
  | .compose after before => WF after ∧ WF before
  | .lfp h => WF h
  | .gfp h => WF h
  | .within d => Canon d
  | .saturate f l g => WF f ∧ WF l ∧ WFAll g
  | .expr guard assigns => exprWF guard assigns

def WFAll : List (OpTerm H T D) → Prop
  | [] => True
  | t :: ts => WF t ∧ WFAll ts

end

theorem wfAll_iff {terms : List (OpTerm H T D)} :
    WFAll nodeWF exprWF Canon terms ↔ ∀ t ∈ terms, WF nodeWF exprWF Canon t := by
  induction terms with
  | nil => simp [WFAll]
  | cons t ts ih => simp [WFAll, ih]

end Predicates

section Relation

variable {W : Type} (nodeRel : H → T → W → W → Prop)
  (exprRel : BExpr → List Assign → W → W → Prop) (den : D → Set W)

mutual

/-- The relation of a term. A deflationary closure has none: the value here is
not used. -/
def rel : OpTerm H T D → W → W → Prop
  | .id => fun v u => v = u
  | .node h t => nodeRel h t
  | .sum terms => relSum terms
  | .compose after before => Relation.Comp (rel before) (rel after)
  | .lfp h => Relation.ReflTransGen (rel h)
  | .gfp _ => fun _ _ => False
  | .within d => fun v u => v = u ∧ v ∈ den d
  | .saturate f l g =>
    Relation.ReflTransGen fun v u => rel f v u ∨ rel l v u ∨ relSum g v u
  | .expr guard assigns => exprRel guard assigns

def relSum : List (OpTerm H T D) → W → W → Prop
  | [] => fun _ _ => False
  | t :: ts => fun v u => rel t v u ∨ relSum ts v u

end

theorem relSum_iff {terms : List (OpTerm H T D)} {v u : W} :
    relSum nodeRel exprRel den terms v u ↔ ∃ t ∈ terms, rel nodeRel exprRel den t v u := by
  induction terms with
  | nil => simp [relSum]
  | cons t ts ih => simp [relSum, ih]

variable (nodeAdd : H → T → Prop)

mutual

/-- The terms that act as the image of their relation. A schedule is one when
its two closures are reflexive, which the rewrite guarantees. -/
def Additive : OpTerm H T D → Prop
  | .id => True
  | .node h t => nodeAdd h t
  | .sum terms => AdditiveAll terms
  | .compose after before => Additive after ∧ Additive before
  | .lfp h => Additive h
  | .gfp _ => False
  | .within _ => True
  | .saturate f l g => Additive f ∧ Additive l ∧ AdditiveAll g ∧
      (∀ w, rel nodeRel exprRel den f w w) ∧ ∀ w, rel nodeRel exprRel den l w w
  | .expr _ _ => True

def AdditiveAll : List (OpTerm H T D) → Prop
  | [] => True
  | t :: ts => Additive t ∧ AdditiveAll ts

end

theorem additiveAll_iff {terms : List (OpTerm H T D)} :
    AdditiveAll nodeRel exprRel den nodeAdd terms ↔
      ∀ t ∈ terms, Additive nodeRel exprRel den nodeAdd t := by
  induction terms with
  | nil => simp [AdditiveAll]
  | cons t ts ih => simp [AdditiveAll, ih]

end Relation

section Constructors

variable [DecidableEq H] [DecidableEq T] [DecidableEq D] {W : Type}
  {nodeWF nodeAdd : H → T → Prop} {exprWF : BExpr → List Assign → Prop}
  {Canon : D → Prop} {nodeRel : H → T → W → W → Prop}
  {exprRel : BExpr → List Assign → W → W → Prop} {den : D → Set W}

/-- A non-empty sum is well formed and additive when its operands are, and its
relation is their union. -/
theorem mkSum_spec (tid : OpTerm H T D → Nat) {terms : List (OpTerm H T D)} (hne : terms ≠ [])
    (hw : ∀ t ∈ terms, WF nodeWF exprWF Canon t)
    (ha : ∀ t ∈ terms, Additive nodeRel exprRel den nodeAdd t) :
    WF nodeWF exprWF Canon (mkSum tid terms) ∧
      Additive nodeRel exprRel den nodeAdd (mkSum tid terms) ∧
      ∀ v u, rel nodeRel exprRel den (mkSum tid terms) v u ↔
        ∃ t ∈ terms, rel nodeRel exprRel den t v u := by
  rcases mkSum_cases tid hne with ⟨hmem, hall⟩ | ⟨ts, heq, hmem⟩
  · refine ⟨hw _ hmem, ha _ hmem, fun v u => ⟨fun hr => ⟨_, hmem, hr⟩, ?_⟩⟩
    rintro ⟨t, ht, hr⟩
    exact hall t ht ▸ hr
  · rw [heq]
    refine ⟨(wfAll_iff _ _ _).mpr fun t ht => hw t ((hmem t).mp ht),
      (additiveAll_iff _ _ _ _).mpr fun t ht => ha t ((hmem t).mp ht), fun v u => ?_⟩
    refine (relSum_iff _ _ _).trans ?_
    exact exists_congr fun t => and_congr_left fun _ => hmem t

theorem mkSum_pair_spec (tid : OpTerm H T D → Nat) {a b : OpTerm H T D}
    (hwa : WF nodeWF exprWF Canon a) (hwb : WF nodeWF exprWF Canon b)
    (haa : Additive nodeRel exprRel den nodeAdd a)
    (hab : Additive nodeRel exprRel den nodeAdd b) :
    WF nodeWF exprWF Canon (mkSum tid [a, b]) ∧
      Additive nodeRel exprRel den nodeAdd (mkSum tid [a, b]) ∧
      ∀ v u, rel nodeRel exprRel den (mkSum tid [a, b]) v u ↔
        rel nodeRel exprRel den a v u ∨ rel nodeRel exprRel den b v u := by
  have hne : [a, b] ≠ [] := by simp
  obtain ⟨h1, h2, h3⟩ := mkSum_spec tid hne
    (List.forall_mem_cons.mpr ⟨hwa, List.forall_mem_singleton.mpr hwb⟩)
    (List.forall_mem_cons.mpr ⟨haa, List.forall_mem_singleton.mpr hab⟩)
  exact ⟨h1, h2, fun v u => (h3 v u).trans (by simp)⟩

omit [DecidableEq H] [DecidableEq T] [DecidableEq D] in
theorem mkLfp_spec {t : OpTerm H T D} (hw : WF nodeWF exprWF Canon t)
    (ha : Additive nodeRel exprRel den nodeAdd t) :
    WF nodeWF exprWF Canon (mkLfp t) ∧ Additive nodeRel exprRel den nodeAdd (mkLfp t) ∧
      rel nodeRel exprRel den (mkLfp t) = Relation.ReflTransGen (rel nodeRel exprRel den t) := by
  cases t with
  | id => exact ⟨trivial, trivial, (reflTransGen_of_le_eq fun _ _ h => h).symm⟩
  | _ => exact ⟨hw, ha, rfl⟩

end Constructors

/-! ## Correctness of evaluation -/

/-- What a sort owes its operation terms: lawful diagrams, and lawful evaluation
of `node` terms and of case brackets. -/
structure SortLaws {W : Type} (A : SupportAlgebra D) (nodeApply : H → T → D → Except Err D)
    (cases : BExpr → List Assign → D → Except Err D) (den : D → Set W) (Canon : D → Prop)
    (nodeWF nodeAdd : H → T → Prop) (nodeRel : H → T → W → W → Prop)
    (exprWF : BExpr → List Assign → Prop)
    (exprRel : BExpr → List Assign → W → W → Prop) : Prop where
  support : SupportLaws A den Canon
  node_canon : ∀ {h t d r}, nodeWF h t → Canon d → nodeApply h t d = .ok r → Canon r
  node_den : ∀ {h t d r}, nodeWF h t → nodeAdd h t → Canon d → nodeApply h t d = .ok r →
    den r = post (nodeRel h t) (den d)
  expr_canon : ∀ {g as d r}, exprWF g as → Canon d → cases g as d = .ok r → Canon r
  expr_den : ∀ {g as d r}, exprWF g as → Canon d → cases g as d = .ok r →
    den r = post (exprRel g as) (den d)

section Correctness

variable [DecidableEq D] {W : Type} {A : SupportAlgebra D}
  {nodeApply : H → T → D → Except Err D} {cases : BExpr → List Assign → D → Except Err D}
  {den : D → Set W} {Canon : D → Prop} {nodeWF nodeAdd : H → T → Prop}
  {nodeRel : H → T → W → W → Prop} {exprWF : BExpr → List Assign → Prop}
  {exprRel : BExpr → List Assign → W → W → Prop} {fuel : Nat}
  (L : SortLaws A nodeApply cases den Canon nodeWF nodeAdd nodeRel exprWF exprRel)

include L

private theorem guard_canon {d r : D} {k : Except Err D} (hk : k = .ok r → Canon r)
    (h : (if d = A.none then .ok A.none else k) = .ok r) : Canon r := by
  split at h
  · cases h
    exact L.support.canon_none
  · exact hk h

mutual

/-- Evaluation keeps the representation invariant, whatever the term. -/
theorem apply_canon : (t : OpTerm H T D) → ∀ d r : D, WF nodeWF exprWF Canon t → Canon d →
    apply A nodeApply cases fuel t d = .ok r → Canon r
  | .id => by
    intro d r _ hd h
    cases h
    exact hd
  | .node hd tl => fun d r hw hd h => guard_canon L (L.node_canon hw hd) h
  | .sum terms => fun d r hw hd h =>
    guard_canon L (applySum_canon terms d A.none r hw hd L.support.canon_none) h
  | .compose after before => by
    intro d r hw hd h
    refine guard_canon L (fun h => ?_) h
    obtain ⟨m, hm, h⟩ := bind_eq_ok.mp h
    exact apply_canon after m r hw.1 (apply_canon before d m hw.2 hd hm) h
  | .lfp t => by
    intro d r hw hd h
    refine guard_canon L (fun h => (untilStable_inv (fun x y hx hy => ?_) hd h).1) h
    obtain ⟨z, hz, hy⟩ := bind_eq_ok.mp hy
    cases hy
    exact L.support.canon_join hx (apply_canon t x z hw hx hz)
  | .gfp t => by
    intro d r hw hd h
    refine guard_canon L (fun h => (untilStable_inv (fun x y hx hy => ?_) hd h).1) h
    obtain ⟨z, hz, hy⟩ := bind_eq_ok.mp hy
    cases hy
    exact L.support.canon_meet hx (apply_canon t x z hw hx hz)
  | .within w => by
    intro d r hw hd h
    refine guard_canon L (fun h => ?_) h
    cases h
    exact L.support.canon_meet hd hw
  | .saturate f l g => by
    intro d r hw hd h
    refine guard_canon L (fun h => (untilStable_inv (fun x y hx hy => ?_) hd h).1) h
    obtain ⟨a, ha, hy⟩ := bind_eq_ok.mp hy
    obtain ⟨b, hb, hy⟩ := bind_eq_ok.mp hy
    have hac := apply_canon f x a hw.1 hx ha
    have hbc := apply_canon l a b hw.2.1 hac hb
    exact applyChain_canon g b y hw.2.2 hbc hy
  | .expr g as => fun d r hw hd h => guard_canon L (L.expr_canon hw hd) h

theorem applySum_canon : (ts : List (OpTerm H T D)) → ∀ d acc r : D,
    WFAll nodeWF exprWF Canon ts → Canon d → Canon acc →
    applySum A nodeApply cases fuel ts d acc = .ok r → Canon r
  | [] => by
    intro d acc r _ _ ha h
    cases h
    exact ha
  | t :: ts => by
    intro d acc r hw hd ha h
    obtain ⟨z, hz, h⟩ := bind_eq_ok.mp h
    have hzc := apply_canon t d z hw.1 hd hz
    exact applySum_canon ts d _ r hw.2 hd (L.support.canon_join ha hzc) h

theorem applyChain_canon : (ts : List (OpTerm H T D)) → ∀ d r : D,
    WFAll nodeWF exprWF Canon ts → Canon d →
    applyChain A nodeApply cases fuel ts d = .ok r → Canon r
  | [] => by
    intro d r _ hd h
    cases h
    exact hd
  | t :: ts => by
    intro d r hw hd h
    obtain ⟨z, hz, h⟩ := bind_eq_ok.mp h
    have hzc := apply_canon t d z hw.1 hd hz
    exact applyChain_canon ts _ r hw.2 (L.support.canon_join hd hzc) h

end

private theorem guard_den {d r : D} {k : Except Err D} {R : W → W → Prop}
    (hk : k = .ok r → den r = post R (den d))
    (h : (if d = A.none then .ok A.none else k) = .ok r) : den r = post R (den d) := by
  split at h
  · next hn =>
    cases h
    rw [hn, L.support.den_none, post_empty]
  · exact hk h

mutual

/-- An additive term acts as the image of its relation. By induction on the
term; the closures and the schedule go through the closure rule of the loop. -/
theorem apply_den : (t : OpTerm H T D) → ∀ d r : D, WF nodeWF exprWF Canon t →
    Additive nodeRel exprRel den nodeAdd t → Canon d →
    apply A nodeApply cases fuel t d = .ok r →
    den r = post (rel nodeRel exprRel den t) (den d)
  | .id => by
    intro d r _ _ _ h
    cases h
    exact (post_eq _).symm
  | .node hd tl => fun d r hw hadd hd h => guard_den L (L.node_den hw hadd hd) h
  | .sum terms => by
    intro d r hw hadd hd h
    refine guard_den L (fun h => ?_) h
    rw [applySum_den terms d A.none r hw hadd hd L.support.canon_none h,
      L.support.den_none, Set.empty_union]
    rfl
  | .compose after before => by
    intro d r hw hadd hd h
    refine guard_den L (fun h => ?_) h
    obtain ⟨m, hm, h⟩ := bind_eq_ok.mp h
    have hmc := apply_canon L before d m hw.2 hd hm
    rw [apply_den after m r hw.1 hadd.1 hmc h, apply_den before d m hw.2 hadd.2 hd hm, ← post_comp]
    rfl
  | .lfp t => by
    intro d r hw hadd hd h
    have step : ∀ x y : D, Canon x →
        (do return A.join x (← apply A nodeApply cases fuel t x) : Except Err D) = .ok y →
        Canon y ∧ den y = den x ∪ post (rel nodeRel exprRel den t) (den x) := by
      intro x y hx hy
      obtain ⟨z, hz, hy⟩ := bind_eq_ok.mp hy
      cases hy
      have hzc := apply_canon L t x z hw hx hz
      exact ⟨L.support.canon_join hx hzc,
        by rw [L.support.den_join hx hzc, apply_den t x z hw hadd hx hz]⟩
    refine guard_den L (fun h => (untilStable_closure (fun x y hx hy => ?_)
      (fun x hx hfix => ?_) hd h).2) h
    · obtain ⟨hyc, hyd⟩ := step x y hx hy
      refine ⟨hyc, hyd ▸ Set.subset_union_left, hyd ▸ Set.union_subset ?_ ?_⟩
      · exact subset_post_reflTransGen _ _
      · exact post_mono_rel (fun v u hvu => .single hvu) _
    · exact Set.union_eq_left.mp (step x x hx hfix).2.symm
  | .gfp t => fun _ _ _ hadd => hadd.elim
  | .within w => by
    intro d r hw _ hd h
    refine guard_den L (fun h => ?_) h
    cases h
    rw [L.support.den_meet hd hw]
    ext u
    simp only [Set.mem_inter_iff, mem_post, rel]
    constructor
    · rintro ⟨h1, h2⟩
      exact ⟨u, h1, rfl, h2⟩
    · rintro ⟨v, hv, rfl, h2⟩
      exact ⟨hv, h2⟩
  | .saturate f l g => by
    intro d r hw hadd hd h
    obtain ⟨hwf, hwl, hwg⟩ := hw
    obtain ⟨haf, hal, hag, hrf, hrl⟩ := hadd
    let F := rel nodeRel exprRel den f
    let E := rel nodeRel exprRel den l
    let G := relSum nodeRel exprRel den g
    -- one round: F, then L, then the chain, each growing the set inside the closure
    have round : ∀ x y : D, Canon x →
        (do applyChain A nodeApply cases fuel g (← apply A nodeApply cases fuel l
          (← apply A nodeApply cases fuel f x)) : Except Err D) = .ok y →
        Canon y ∧ ∃ X Y : Set W, X = post F (den x) ∧ Y = post E X ∧ den x ⊆ X ∧ X ⊆ Y ∧
          Y ⊆ den y ∧ (den y ⊆ Y → post G Y ⊆ Y) ∧
          den y ⊆ post (Relation.ReflTransGen G) Y := by
      intro x y hx hy
      obtain ⟨a, ha, hy⟩ := bind_eq_ok.mp hy
      obtain ⟨b, hb, hy⟩ := bind_eq_ok.mp hy
      have hac := apply_canon L f x a hwf hx ha
      have hbc := apply_canon L l a b hwl hac hb
      have had := apply_den f x a hwf haf hx ha
      have hbd := apply_den l a b hwl hal hac hb
      obtain ⟨h1, h2, h3⟩ := applyChain_den g b y hwg hag hbc hy
      refine ⟨applyChain_canon L g b y hwg hbc hy, den a, den b, had, hbd, ?_, ?_, h1, h2, h3⟩
      · rw [had]
        exact fun w hw => ⟨w, hw, hrf w⟩
      · rw [hbd]
        exact fun w hw => ⟨w, hw, hrl w⟩
    refine guard_den L (fun h => (untilStable_closure (fun x y hx hy => ?_)
      (fun x hx hfix => ?_) hd h).2) h
    · obtain ⟨hyc, X, Y, hX, hY, h1, h2, h3, -, h5⟩ := round x y hx hy
      refine ⟨hyc, h1.trans (h2.trans h3), ?_⟩
      rintro u hu
      obtain ⟨m, hm, hmu⟩ := h5 hu
      rw [hY] at hm
      obtain ⟨n, hn, hnm⟩ := hm
      rw [hX] at hn
      obtain ⟨w, hw, hwn⟩ := hn
      refine ⟨w, hw, .head (Or.inl hwn) (.head (Or.inr (Or.inl hnm)) ?_)⟩
      exact Relation.ReflTransGen.mono (fun _ _ h => Or.inr (Or.inr h)) _ _ hmu
    · obtain ⟨-, X, Y, hX, hY, h1, h2, h3, h4, -⟩ := round x x hx hfix
      have hYx : Y = den x := Set.Subset.antisymm h3 (h1.trans h2)
      have hXx : X = den x := Set.Subset.antisymm (h2.trans h3) h1
      rintro u ⟨v, hv, hf | hl | hg⟩
      · rw [← hXx, hX]
        exact ⟨v, hv, hf⟩
      · rw [← hYx, hY, hXx]
        exact ⟨v, hv, hl⟩
      · rw [← hYx]
        exact h4 hYx.symm.subset ⟨v, hYx ▸ hv, hg⟩
  | .expr g as => fun d r hw _ hd h => guard_den L (L.expr_den hw hd) h

theorem applySum_den : (ts : List (OpTerm H T D)) → ∀ d acc r : D,
    WFAll nodeWF exprWF Canon ts → AdditiveAll nodeRel exprRel den nodeAdd ts →
    Canon d → Canon acc → applySum A nodeApply cases fuel ts d acc = .ok r →
    den r = den acc ∪ post (relSum nodeRel exprRel den ts) (den d)
  | [] => by
    intro d acc r _ _ _ _ h
    cases h
    ext u
    simp [post, relSum]
  | t :: ts => by
    intro d acc r hw hadd hd ha h
    obtain ⟨z, hz, h⟩ := bind_eq_ok.mp h
    have hzc := apply_canon L t d z hw.1 hd hz
    rw [applySum_den ts d _ r hw.2 hadd.2 hd (L.support.canon_join ha hzc) h,
      L.support.den_join ha hzc, apply_den t d z hw.1 hadd.1 hd hz]
    ext u
    simp only [Set.mem_union, mem_post, relSum]
    constructor
    · rintro ((h | ⟨v, hv, h⟩) | ⟨v, hv, h⟩)
      · exact Or.inl h
      · exact Or.inr ⟨v, hv, Or.inl h⟩
      · exact Or.inr ⟨v, hv, Or.inr h⟩
    · rintro (h | ⟨v, hv, h | h⟩)
      · exact Or.inl (Or.inl h)
      · exact Or.inl (Or.inr ⟨v, hv, h⟩)
      · exact Or.inr ⟨v, hv, h⟩

theorem applyChain_den : (ts : List (OpTerm H T D)) → ∀ d r : D,
    WFAll nodeWF exprWF Canon ts → AdditiveAll nodeRel exprRel den nodeAdd ts →
    Canon d → applyChain A nodeApply cases fuel ts d = .ok r →
    den d ⊆ den r ∧ (den r ⊆ den d → post (relSum nodeRel exprRel den ts) (den d) ⊆ den d) ∧
      den r ⊆ post (Relation.ReflTransGen (relSum nodeRel exprRel den ts)) (den d)
  | [] => by
    intro d r _ _ _ h
    cases h
    exact ⟨subset_rfl, fun _ u hu => hu.elim fun _ h => h.2.elim, subset_post_reflTransGen _ _⟩
  | t :: ts => by
    intro d r hw hadd hd h
    obtain ⟨z, hz, h⟩ := bind_eq_ok.mp h
    have hzc := apply_canon L t d z hw.1 hd hz
    have hjc := L.support.canon_join hd hzc
    have hjd : den (A.join d z) = den d ∪ post (rel nodeRel exprRel den t) (den d) := by
      rw [L.support.den_join hd hzc, apply_den t d z hw.1 hadd.1 hd hz]
    obtain ⟨h1, h2, h3⟩ := applyChain_den ts _ r hw.2 hadd.2 hjc h
    rw [hjd] at h1 h2 h3
    refine ⟨Set.subset_union_left.trans h1, ?_, ?_⟩
    · intro hrd
      have hone := Set.subset_union_right.trans (h1.trans hrd)
      have heq := Set.union_eq_left.mpr hone
      rw [heq] at h2
      rintro u ⟨v, hv, ht | hts⟩
      · exact hone ⟨v, hv, ht⟩
      · exact h2 hrd ⟨v, hv, hts⟩
    · rintro u hu
      obtain ⟨m, hm, hmu⟩ := h3 hu
      have hmu' : Relation.ReflTransGen (relSum nodeRel exprRel den (t :: ts)) m u :=
        Relation.ReflTransGen.mono (fun _ _ h => Or.inr h) _ _ hmu
      rcases hm with hm | ⟨v, hv, hvm⟩
      · exact ⟨m, hm, hmu'⟩
      · exact ⟨v, hv, .head (Or.inl hvm) hmu'⟩

end

end Correctness

end OpTerm

end LibHSC
