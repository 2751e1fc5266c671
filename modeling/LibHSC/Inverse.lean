import LibHSC.Manager
import LibHSC.Ctl.Translator
import Mathlib.Data.Set.Finite.Lattice
import Mathlib.Data.Finite.Prod

/-!
The converse of a term relative to a potential: its pairs read backwards, with none of those
missing that start in the potential. A theory inverts its own terms; above the leaves the
inversion is structural, a node against the projections of the potential and a composition
against the image of its right factor.
-/

namespace LibHSC

open Lia

/-! ## Converse relations -/

/-- The pairs of `q` are pairs of `t` read backwards, all those that start in `P` among them. -/
structure Converse {W : Type} (P : Set W) (t q : W → W → Prop) : Prop where
  sound : ∀ {u v}, q u v → t v u
  complete : ∀ {u v}, v ∈ P → t v u → q u v

namespace Converse

variable {V W : Type} {P : Set W} {a a' b b' : W → W → Prop}

/-- A selector is its own converse. -/
theorem selector (h : ∀ v u, a v u → v = u) : Converse P a a where
  sound {u v} huv := by
    obtain rfl := h u v huv
    exact huv
  complete {u v} _ hvu := by
    obtain rfl := h v u hvu
    exact hvu

theorem of_empty (h : P = ∅) (hq : ∀ u v, ¬ a' u v) : Converse P a a' where
  sound huv := absurd huv (hq _ _)
  complete hv := by
    rw [h] at hv
    exact absurd hv (Set.notMem_empty _)

/-- The left factor sees what the right one produces. -/
theorem comp (hb : Converse P b b') (ha : Converse (post b P) a a') :
    Converse P (Relation.Comp b a) (Relation.Comp a' b') where
  sound {u v} := by
    rintro ⟨w, huw, hwv⟩
    exact ⟨w, hb.sound hwv, ha.sound huw⟩
  complete {u v} hv := by
    rintro ⟨w, hvw, hwu⟩
    exact ⟨w, ha.complete ⟨v, hv, hvw⟩ hwu, hb.complete hv hvw⟩

theorem union {τ : Type} {rel : τ → W → W → Prop} {ts qs : List τ}
    (h : List.Forall₂ (fun t q => Converse P (rel t) (rel q)) ts qs)
    (ha : ∀ v u, a v u ↔ ∃ t ∈ ts, rel t v u) (ha' : ∀ u v, a' u v ↔ ∃ q ∈ qs, rel q u v) :
    Converse P a a' where
  sound {u v} huv := by
    obtain ⟨q, hq, huv⟩ := (ha' u v).mp huv
    obtain ⟨t, ht, htq⟩ := forall₂_mem_right h hq
    exact (ha v u).mpr ⟨t, ht, htq.sound huv⟩
  complete {u v} hv hvu := by
    obtain ⟨t, ht, hvu⟩ := (ha v u).mp hvu
    obtain ⟨q, hq, htq⟩ := forall₂_mem_left h ht
    exact (ha' u v).mpr ⟨q, hq, htq.complete hv hvu⟩

/-- Each side against a set that has the projections of the potential. -/
theorem node {σ τ : Type} {relH : σ → V → V → Prop} {relT : τ → W → W → Prop} {h h' : σ}
    {t t' : τ} {PH : Set V} {PT : Set W} {P : Set (V × W)} (hh : Converse PH (relH h) (relH h'))
    (ht : Converse PT (relT t) (relT t')) (hP : ∀ w ∈ P, w.1 ∈ PH ∧ w.2 ∈ PT) :
    Converse P (nodeRel relH relT h t) (nodeRel relH relT h' t') where
  sound huv := ⟨hh.sound huv.1, ht.sound huv.2⟩
  complete hv hvu := ⟨hh.complete (hP _ hv).1 hvu.1, ht.complete (hP _ hv).2 hvu.2⟩

end Converse

/-! ## The terms of the theory -/

namespace IntTerm

/-- The values whose transform is defined, each after it. -/
def transformed (rhs : IExpr) (modulo : Int) : List Int → Except Err (List (Int × Int))
  | [] => .ok []
  | v :: vs => do
      match ← xformValue rhs modulo v with
      | none => transformed rhs modulo vs
      | some u => return (u, v) :: (← transformed rhs modulo vs)

section Invert

variable (tid : IntTerm → Nat)

/-- The sum so far, and one more choice: back from an image value. -/
def chooseBack (pairs : List (Int × Int)) (acc : IntTerm) (u : Int) : IntTerm :=
  let c := choose (IntSet.singleton u) (IntSet.of ((pairs.filter fun p => p.1 = u).map Prod.snd))
  if acc = keepIf .bfalse then c else termSum tid acc c

/-- The converse of an action on the values that pass its guard. The opposite of the least
machine value is none. -/
def invertAction (passing : IntSet) : IntAction → Except Err IntTerm
  | .keep => .ok (keep passing)
  | .assign value => .ok (choose (IntSet.singleton value) passing)
  | .shift delta => do
      let out ← shiftAll delta passing
      if InInt32 (-delta) then return shift out (-delta) else .error .undefinedBehaviour
  | .xform rhs modulo => do
      let pairs ← transformed rhs modulo passing
      return (IntSet.of (pairs.map Prod.fst)).foldl (chooseBack tid pairs) (keepIf .bfalse)
  | .havoc lo hi => .ok (choose (IntSet.interval lo hi) passing)
  | .choose s => .ok (choose s passing)

def invertLocal : IntTerm → IntSet → Except Err IntTerm
  | .id, _ => .ok .id
  | .sum a b, domain =>
    if domain = [] then .ok (keepIf .bfalse)
    else do return termSum tid (← invertLocal a domain) (← invertLocal b domain)
  | .lfp a, domain =>
    if domain = [] then .ok (keepIf .bfalse) else do return termLfp (← invertLocal a domain)
  | .prim guard action, domain =>
    if domain = [] then .ok (keepIf .bfalse)
    else do
      let kept ← passing guard domain
      if kept = [] then return keepIf .bfalse else invertAction tid kept action

end Invert

/-- No closure. The constructors build no choice from an empty set. -/
def Stepwise : IntTerm → Prop
  | .id => True
  | .prim _ (.havoc lo hi) => lo < hi
  | .prim _ (.choose s) => s ≠ []
  | .prim _ _ => True
  | .sum a b => a.Stepwise ∧ b.Stepwise
  | .lfp _ => False

theorem zero_eq : keepIf .bfalse = .prim (.symbolic .bfalse) .keep :=
  if_neg (by simp)

theorem zero_rel {v u : Int} : ¬ (keepIf .bfalse).rel v u := by
  rw [zero_eq]
  rintro ⟨h, -⟩
  cases h

theorem zero_facts : (keepIf .bfalse).WF ∧ (keepIf .bfalse).Stepwise := by
  rw [zero_eq]
  exact ⟨⟨trivial, trivial⟩, trivial⟩

theorem singleton_canon {v : Int} (h : InInt32 v) : IntSet.Canon (IntSet.singleton v) :=
  ⟨List.pairwise_singleton _ v, List.forall_mem_singleton.mpr h⟩

theorem choose_rel {guard set : IntSet} (hg : guard ≠ []) {v u : Int} :
    (choose guard set).rel v u ↔ v ∈ guard ∧ u ∈ set := by
  unfold choose
  split
  · next h => simp [h, zero_rel]
  · simp [rel, setGuard, hg, IntGuard.Holds, IntAction.rel]

theorem choose_singleton_rel {set : IntSet} {x v u : Int} :
    (choose (IntSet.singleton x) set).rel v u ↔ v = x ∧ u ∈ set :=
  (choose_rel (List.cons_ne_nil x [])).trans (and_congr_left fun _ => List.mem_singleton)

theorem choose_facts {guard set : IntSet} (hg : IntSet.Canon guard) (hs : IntSet.Canon set) :
    (choose guard set).WF ∧ (choose guard set).Stepwise := by
  unfold choose
  split
  · exact zero_facts
  · next h =>
    refine ⟨⟨?_, hs⟩, h⟩
    unfold setGuard
    split
    · trivial
    · exact hg

theorem termSum_stepwise {tid : IntTerm → Nat} {a b : IntTerm} (ha : a.Stepwise)
    (hb : b.Stepwise) : (termSum tid a b).Stepwise := by
  unfold termSum
  split
  · exact ha
  · split
    · exact ⟨hb, ha⟩
    · exact ⟨ha, hb⟩

theorem transformed_spec {rhs : IExpr} {modulo : Int} (hm : InInt32 modulo) :
    ∀ {vs : List Int} {pairs : List (Int × Int)}, transformed rhs modulo vs = .ok pairs →
      (∀ u v, (u, v) ∈ pairs ↔ v ∈ vs ∧ xformExact rhs modulo v = some u) ∧
        ∀ p ∈ pairs, InInt32 p.1 := by
  intro vs
  induction vs with
  | nil =>
    intro pairs h
    cases h
    simp
  | cons v vs ih =>
    intro pairs h
    obtain ⟨x, hx, h⟩ := bind_eq_ok.mp h
    obtain ⟨hex, hin⟩ := xformValue_spec hm hx
    cases x with
    | none =>
      obtain ⟨hmem, hall⟩ := ih h
      refine ⟨fun u w => ?_, hall⟩
      rw [hmem, List.mem_cons, or_and_right]
      refine (or_iff_right ?_).symm
      rintro ⟨rfl, hw⟩
      rw [hex] at hw
      cases hw
    | some y =>
      obtain ⟨rest, hrest, h⟩ := bind_eq_ok.mp h
      cases h
      obtain ⟨hmem, hall⟩ := ih hrest
      refine ⟨fun u w => ?_, List.forall_mem_cons.mpr ⟨hin y rfl, hall⟩⟩
      rw [List.mem_cons, List.mem_cons, hmem, or_and_right]
      refine or_congr_left ⟨?_, ?_⟩
      · intro h
        cases h
        exact ⟨rfl, hex⟩
      · rintro ⟨rfl, hw⟩
        rw [hex] at hw
        cases hw
        rfl

theorem chooseBack_foldl (tid : IntTerm → Nat) {pairs : List (Int × Int)}
    (hin : ∀ p ∈ pairs, InInt32 p.1 ∧ InInt32 p.2) : ∀ (us : List Int) (acc : IntTerm),
    (∀ u ∈ us, InInt32 u) → acc.WF ∧ acc.Stepwise →
      ((us.foldl (chooseBack tid pairs) acc).WF ∧ (us.foldl (chooseBack tid pairs) acc).Stepwise) ∧
        ∀ u v, (us.foldl (chooseBack tid pairs) acc).rel u v ↔
          acc.rel u v ∨ u ∈ us ∧ (u, v) ∈ pairs := by
  intro us
  induction us with
  | nil => simp
  | cons x us ih =>
    intro acc hus hacc
    obtain ⟨hx, hus⟩ := List.forall_mem_cons.mp hus
    have hback : ∀ v, v ∈ IntSet.of ((pairs.filter fun p => p.1 = x).map Prod.snd) ↔
        (x, v) ∈ pairs := by
      intro v
      rw [IntSet.mem_of]
      simp
    have hcanon : IntSet.Canon (IntSet.of ((pairs.filter fun p => p.1 = x).map Prod.snd)) :=
      IntSet.canon_of fun v hv => (hin (x, v) ((hback v).mp (IntSet.mem_of.mpr hv))).2
    have hc := choose_facts (singleton_canon hx) hcanon
    have hstep : ((chooseBack tid pairs acc x).WF ∧ (chooseBack tid pairs acc x).Stepwise) ∧
        ∀ u v, (chooseBack tid pairs acc x).rel u v ↔ acc.rel u v ∨ u = x ∧ (u, v) ∈ pairs := by
      have hrel : ∀ u v, (choose (IntSet.singleton x)
          (IntSet.of ((pairs.filter fun p => p.1 = x).map Prod.snd))).rel u v ↔
            u = x ∧ (u, v) ∈ pairs := by
        intro u v
        rw [choose_singleton_rel, hback]
        exact and_congr_right fun h => by rw [h]
      unfold chooseBack
      dsimp only
      split
      · next hzero =>
        refine ⟨hc, fun u v => ?_⟩
        rw [hrel, hzero]
        exact (or_iff_right zero_rel).symm
      · refine ⟨⟨termSum_wf hacc.1 hc.1, termSum_stepwise hacc.2 hc.2⟩, fun u v => ?_⟩
        rw [termSum_rel, hrel]
    obtain ⟨hfacts, hrel⟩ := ih (chooseBack tid pairs acc x) hus hstep.1
    refine ⟨hfacts, fun u v => ?_⟩
    rw [List.foldl_cons, hrel, hstep.2, List.mem_cons, or_assoc, ← or_and_right]

/-- The converse of an action relates its values back to those that pass. -/
theorem invertAction_spec {tid : IntTerm → Nat} {g : IntGuard} {a : IntAction} {kept : IntSet}
    {q : IntTerm} (ha : a.WF) (hstep : (IntTerm.prim g a).Stepwise) (hk : IntSet.Canon kept)
    (hne : kept ≠ []) (h : invertAction tid kept a = .ok q) :
    (q.WF ∧ q.Stepwise) ∧ ∀ u v, q.rel u v ↔ v ∈ kept ∧ a.rel v u := by
  cases a with
  | keep =>
    cases h
    simp only [keep, if_neg hne]
    refine ⟨⟨⟨hk, trivial⟩, trivial⟩, fun u v => ?_⟩
    simp only [rel, IntGuard.Holds, IntAction.rel]
    constructor
    · rintro ⟨h, rfl⟩
      exact ⟨h, rfl⟩
    · rintro ⟨h, rfl⟩
      exact ⟨h, rfl⟩
  | assign value =>
    cases h
    exact ⟨choose_facts (singleton_canon ha) hk, fun u v => choose_singleton_rel.trans and_comm⟩
  | shift delta =>
    obtain ⟨out, hout, h⟩ := bind_eq_ok.mp h
    obtain ⟨rfl, hin⟩ := shiftAll_spec hout
    split at h
    · next hdelta =>
      cases h
      have hcanon : IntSet.Canon (kept.map (· + delta)) :=
        ⟨List.pairwise_map.mpr (hk.1.imp fun h => by omega), hin⟩
      have hne' : kept.map (· + delta) ≠ [] := by simpa using hne
      have hback : ∀ u v, u ∈ kept.map (· + delta) ∧ v = u + -delta ↔ v ∈ kept ∧ u = v + delta := by
        intro u v
        simp only [List.mem_map]
        constructor
        · rintro ⟨⟨w, hw, rfl⟩, hv⟩
          obtain rfl : v = w := by omega
          exact ⟨hw, rfl⟩
        · rintro ⟨hv, rfl⟩
          exact ⟨⟨v, hv, rfl⟩, by omega⟩
      unfold shift
      split
      · next hzero =>
        simp only [if_neg hne', keep]
        refine ⟨⟨⟨hcanon, trivial⟩, trivial⟩, fun u v => ?_⟩
        refine Iff.trans ?_ (hback u v)
        simp only [rel, IntGuard.Holds, IntAction.rel, hzero, Int.add_zero]
        exact and_congr_right fun _ => eq_comm
      · simp only [setGuard, if_neg hne']
        exact ⟨⟨⟨hcanon, hdelta⟩, trivial⟩, hback⟩
    · cases h
  | xform rhs modulo =>
    obtain ⟨pairs, hpairs, h⟩ := bind_eq_ok.mp h
    cases h
    obtain ⟨hmem, hin⟩ := transformed_spec ha hpairs
    have hall : ∀ p ∈ pairs, InInt32 p.1 ∧ InInt32 p.2 := fun p hp =>
      ⟨hin p hp, hk.2 p.2 ((hmem p.1 p.2).mp hp).1⟩
    obtain ⟨hfacts, hrel⟩ := chooseBack_foldl tid hall (IntSet.of (pairs.map Prod.fst))
      (keepIf .bfalse) (fun u hu => by
        obtain ⟨p, hp, rfl⟩ := List.mem_map.mp (IntSet.mem_of.mp hu)
        exact hin p hp) zero_facts
    refine ⟨hfacts, fun u v => ?_⟩
    rw [hrel, or_iff_right zero_rel, IntSet.mem_of, hmem]
    refine and_iff_right_of_imp fun h => ?_
    exact List.mem_map.mpr ⟨(u, v), (hmem u v).mpr h, rfl⟩
  | havoc lo hi =>
    cases h
    have hne' : IntSet.interval lo hi ≠ [] :=
      List.ne_nil_of_mem (IntSet.mem_interval.mpr ⟨le_refl lo, hstep⟩)
    refine ⟨choose_facts (IntSet.canon_interval ha.1 ha.2) hk, fun u v => ?_⟩
    rw [choose_rel hne', IntSet.mem_interval]
    exact and_comm
  | choose s =>
    cases h
    exact ⟨choose_facts ha hk, fun u v => (choose_rel hstep).trans and_comm⟩

theorem invertLocal_spec {tid : IntTerm → Nat} : ∀ {t : IntTerm} {domain : IntSet} {q : IntTerm},
    t.WF → t.Stepwise → IntSet.Canon domain → invertLocal tid t domain = .ok q →
      (q.WF ∧ q.Stepwise) ∧ Converse (IntSet.den domain) t.rel q.rel := by
  intro t
  have hzero : ∀ {t : IntTerm} {domain : IntSet}, domain = [] →
      ((keepIf .bfalse).WF ∧ (keepIf .bfalse).Stepwise) ∧
        Converse (IntSet.den domain) t.rel (keepIf .bfalse).rel := by
    rintro t _ rfl
    exact ⟨zero_facts, .of_empty (by ext; simp [IntSet.den]) fun _ _ => zero_rel⟩
  induction t with
  | id =>
    intro domain q _ _ _ h
    cases h
    exact ⟨⟨trivial, trivial⟩, .selector fun _ _ h => h⟩
  | prim g a =>
    intro domain q hw hstep hd h
    rw [invertLocal] at h
    split at h
    · next hn =>
      cases h
      exact hzero hn
    · obtain ⟨kept, hk, h⟩ := bind_eq_ok.mp h
      obtain ⟨hkc, hkm⟩ := passing_spec hw.1 hd hk
      split at h
      · next hn =>
        cases h
        subst hn
        refine ⟨zero_facts, fun h => absurd h zero_rel, fun hv hvu => ?_⟩
        exact absurd ((hkm _).mpr ⟨hv, hvu.1⟩) List.not_mem_nil
      · next hn =>
        obtain ⟨hfacts, hrel⟩ := invertAction_spec hw.2 hstep hkc hn h
        refine ⟨hfacts, fun {u v} huv => ?_, fun {u v} hv hvu => ?_⟩
        · obtain ⟨hv, hvu⟩ := (hrel u v).mp huv
          exact ⟨((hkm v).mp hv).2, hvu⟩
        · exact (hrel u v).mpr ⟨(hkm v).mpr ⟨hv, hvu.1⟩, hvu.2⟩
  | sum a b iha ihb =>
    intro domain q hw hstep hd h
    rw [invertLocal] at h
    split at h
    · next hn =>
      cases h
      exact hzero hn
    · obtain ⟨x, hx, h⟩ := bind_eq_ok.mp h
      obtain ⟨y, hy, h⟩ := bind_eq_ok.mp h
      cases h
      obtain ⟨hxf, hxc⟩ := iha hw.1 hstep.1 hd hx
      obtain ⟨hyf, hyc⟩ := ihb hw.2 hstep.2 hd hy
      refine ⟨⟨termSum_wf hxf.1 hyf.1, termSum_stepwise hxf.2 hyf.2⟩,
        .union (.cons hxc (.cons hyc .nil)) ?_ fun u v => ?_⟩
      · intro v u
        simp [rel]
      · simp [termSum_rel]
  | lfp a _ => exact fun _ hstep => hstep.elim

/-- One step has finitely many results. -/
theorem rel_finite : ∀ {t : IntTerm}, t.Stepwise → ∀ v, {u | t.rel v u}.Finite := by
  intro t
  induction t with
  | id => exact fun _ v => (Set.finite_singleton v).subset fun u hu => hu.symm
  | prim g a =>
    intro _ v
    refine Set.Finite.subset (s := {u | a.rel v u}) ?_ fun u hu => hu.2
    cases a with
    | keep => exact (Set.finite_singleton v).subset fun u hu => hu.symm
    | assign value => exact (Set.finite_singleton value).subset fun u hu => hu
    | shift delta => exact (Set.finite_singleton (v + delta)).subset fun u hu => hu
    | xform rhs modulo =>
      refine (Set.finite_singleton ((xformExact rhs modulo v).getD 0)).subset fun u hu => ?_
      have hu : xformExact rhs modulo v = some u := hu
      simp [hu]
    | havoc lo hi =>
      exact (IntSet.interval lo hi).finite_toSet.subset fun u hu => IntSet.mem_interval.mpr hu
    | choose s => exact s.finite_toSet.subset fun u hu => hu
  | sum a b iha ihb => exact fun h v => (iha h.1 v).union (ihb h.2 v)
  | lfp a _ => exact fun h => h.elim

end IntTerm

/-! ## The terms of a sort -/

namespace OpTerm

variable {H T D : Type}

section Invert

variable [DecidableEq H] [DecidableEq T] [DecidableEq D]

variable (A : SupportAlgebra D) (apply : OpTerm H T D → D → Except Err D)
  (invertNode : H → T → D → Except Err (OpTerm H T D)) (tid : OpTerm H T D → Nat)

mutual

/-- Inversion at a composite sort: from an empty potential there is nothing to come from. -/
def invert : OpTerm H T D → D → Except Err (OpTerm H T D)
  | .id, _ => .ok .id
  | .node h t, potential =>
    if potential = A.none then .ok (.within A.none) else invertNode h t potential
  | .sum terms, potential =>
    if potential = A.none then .ok (.within A.none)
    else do return mkSum tid (← invertAll terms potential)
  | .compose after before, potential =>
    if potential = A.none then .ok (.within A.none)
    else do
      let mid ← apply before potential
      return mkCompose (← invert before potential) (← invert after mid)
  | .lfp h, potential =>
    if potential = A.none then .ok (.within A.none)
    else do return mkLfp (← invert h potential)
  | .within d, potential => .ok (.within (if potential = A.none then A.none else d))
  | .expr guard assigns, potential =>
    if potential = A.none then .ok (.within A.none)
    else if assigns = [] then .ok (.expr guard []) else .error .unsupported
  | .gfp _, potential =>
    if potential = A.none then .ok (.within A.none) else .error .unsupported
  | .saturate _ _ _, potential =>
    if potential = A.none then .ok (.within A.none) else .error .unsupported

def invertAll : List (OpTerm H T D) → D → Except Err (List (OpTerm H T D))
  | [], _ => .ok []
  | t :: ts, potential => do
      let q ← invert t potential
      return q :: (← invertAll ts potential)

end

end Invert

section Stepwise

variable (nodeStep : H → T → Prop)

mutual

/-- No closure, and a bracket only guards. -/
def Stepwise : OpTerm H T D → Prop
  | .id => True
  | .node h t => nodeStep h t
  | .sum terms => terms ≠ [] ∧ StepwiseAll terms
  | .compose after before => Stepwise after ∧ Stepwise before
  | .within _ => True
  | .expr _ assigns => assigns = []
  | .lfp _ => False
  | .gfp _ => False
  | .saturate _ _ _ => False

def StepwiseAll : List (OpTerm H T D) → Prop
  | [] => True
  | t :: ts => Stepwise t ∧ StepwiseAll ts

end

theorem stepwiseAll_iff {terms : List (OpTerm H T D)} :
    StepwiseAll nodeStep terms ↔ ∀ t ∈ terms, Stepwise nodeStep t := by
  induction terms with
  | nil => simp [StepwiseAll]
  | cons t ts ih => simp [StepwiseAll, ih]

end Stepwise

section Spec

variable {W : Type} {A : SupportAlgebra D} {apply : OpTerm H T D → D → Except Err D}
  {invertNode : H → T → D → Except Err (OpTerm H T D)} {tid : OpTerm H T D → Nat}
  {nodeWF nodeAdd nodeStep : H → T → Prop} {exprWF : BExpr → List Assign → Prop}
  {Canon : D → Prop} {nodeRel : H → T → W → W → Prop}
  {exprRel : BExpr → List Assign → W → W → Prop} {den : D → Set W}

mutual

theorem additive_of_stepwise (hnode : ∀ h t, nodeStep h t → nodeAdd h t) :
    (t : OpTerm H T D) → Stepwise nodeStep t → Additive nodeRel exprRel den nodeAdd t
  | .id, _ => trivial
  | .node h t, hs => hnode h t hs
  | .sum ts, hs => additiveAll_of_stepwise hnode ts hs.2
  | .compose a b, hs => ⟨additive_of_stepwise hnode a hs.1, additive_of_stepwise hnode b hs.2⟩
  | .within _, _ => trivial
  | .expr _ _, _ => trivial
  | .lfp _, hs => hs.elim
  | .gfp _, hs => hs.elim
  | .saturate _ _ _, hs => hs.elim

theorem additiveAll_of_stepwise (hnode : ∀ h t, nodeStep h t → nodeAdd h t) :
    (ts : List (OpTerm H T D)) → StepwiseAll nodeStep ts →
      AdditiveAll nodeRel exprRel den nodeAdd ts
  | [], _ => trivial
  | t :: ts, hs => ⟨additive_of_stepwise hnode t hs.1, additiveAll_of_stepwise hnode ts hs.2⟩

end

/-- What the inversion at a sort rests on: the algebra, the evaluation of terms, the inversion
of its nodes, and that a bracket without assignments selects. -/
structure InvertLaws (A : SupportAlgebra D) (apply : OpTerm H T D → D → Except Err D)
    (invertNode : H → T → D → Except Err (OpTerm H T D)) (nodeWF nodeAdd nodeStep : H → T → Prop)
    (exprWF : BExpr → List Assign → Prop) (Canon : D → Prop) (nodeRel : H → T → W → W → Prop)
    (exprRel : BExpr → List Assign → W → W → Prop) (den : D → Set W) : Prop where
  support : SupportLaws A den Canon
  additive : ∀ h t, nodeStep h t → nodeAdd h t
  apply : ∀ {t d r}, WF nodeWF exprWF Canon t → Additive nodeRel exprRel den nodeAdd t → Canon d →
    apply t d = .ok r → Canon r ∧ den r = post (rel nodeRel exprRel den t) (den d)
  node : ∀ {h t P q}, nodeWF h t → nodeStep h t → Canon P → P ≠ A.none →
    invertNode h t P = .ok q → WF nodeWF exprWF Canon q ∧ Stepwise nodeStep q ∧
      Converse (den P) (nodeRel h t) (rel nodeRel exprRel den q)
  guard : ∀ {g v u}, exprRel g [] v u → v = u

mutual

/-- Without closures, and with brackets that select, a step has finitely many results. -/
theorem rel_finite (hnode : ∀ h t, nodeStep h t → ∀ v, Set.Finite {u | nodeRel h t v u})
    (hguard : ∀ {g v u}, exprRel g [] v u → v = u) : (t : OpTerm H T D) → Stepwise nodeStep t →
      ∀ v, Set.Finite {u | rel nodeRel exprRel den t v u}
  | .id, _, v => (Set.finite_singleton v).subset fun _ hu => hu.symm
  | .node h t, hs, v => hnode h t hs v
  | .sum ts, hs, v => relSum_finite hnode hguard ts hs.2 v
  | .compose a b, hs, v => by
    refine (Set.Finite.biUnion (rel_finite hnode hguard b hs.2 v) fun w _ =>
      rel_finite hnode hguard a hs.1 w).subset ?_
    rintro u ⟨w, hvw, hwu⟩
    exact Set.mem_biUnion hvw hwu
  | .within _, _, v => (Set.finite_singleton v).subset fun _ hu => hu.1.symm
  | .expr g as, hs, v => by
    obtain rfl : as = [] := hs
    exact (Set.finite_singleton v).subset fun _ hu => (hguard hu).symm
  | .lfp _, hs, _ => hs.elim
  | .gfp _, hs, _ => hs.elim
  | .saturate _ _ _, hs, _ => hs.elim

theorem relSum_finite (hnode : ∀ h t, nodeStep h t → ∀ v, Set.Finite {u | nodeRel h t v u})
    (hguard : ∀ {g v u}, exprRel g [] v u → v = u) : (ts : List (OpTerm H T D)) →
      StepwiseAll nodeStep ts → ∀ v, Set.Finite {u | relSum nodeRel exprRel den ts v u}
  | [], _, _ => Set.finite_empty
  | t :: ts, hs, v =>
    (rel_finite hnode hguard t hs.1 v).union (relSum_finite hnode hguard ts hs.2 v)

end

theorem mkCompose_of {Q : OpTerm H T D → Prop} {a b : OpTerm H T D} (ha : Q a) (hb : Q b)
    (hc : Q (.compose a b)) : Q (mkCompose a b) := by
  unfold mkCompose
  split
  · exact hb
  · exact ha
  · exact hc

theorem mkCompose_rel (a b : OpTerm H T D) : rel nodeRel exprRel den (mkCompose a b) =
    Relation.Comp (rel nodeRel exprRel den b) (rel nodeRel exprRel den a) := by
  unfold mkCompose
  split
  · exact Relation.comp_eq.symm
  · exact Relation.eq_comp.symm
  · rfl

theorem invert_none (hA : SupportLaws A den Canon) {t : OpTerm H T D} {P : D} (h : P = A.none) :
    WF nodeWF exprWF Canon (.within A.none : OpTerm H T D) ∧
      Stepwise nodeStep (.within A.none : OpTerm H T D) ∧
      Converse (den P) (rel nodeRel exprRel den t)
        (rel nodeRel exprRel den (.within A.none : OpTerm H T D)) := by
  refine ⟨hA.canon_none, trivial, .of_empty (h ▸ hA.den_none) fun u v huv => ?_⟩
  have hu : u ∈ den A.none := huv.2
  rw [hA.den_none] at hu
  exact hu

variable [DecidableEq H] [DecidableEq T] [DecidableEq D]

mutual

theorem invert_spec (L : InvertLaws A apply invertNode nodeWF nodeAdd nodeStep exprWF Canon nodeRel
    exprRel den) : (t : OpTerm H T D) → ∀ {P : D} {q : OpTerm H T D},
    WF nodeWF exprWF Canon t → Stepwise nodeStep t → Canon P →
    invert A apply invertNode tid t P = .ok q → WF nodeWF exprWF Canon q ∧ Stepwise nodeStep q ∧
      Converse (den P) (rel nodeRel exprRel den t) (rel nodeRel exprRel den q)
  | .id, P, q, _, _, _, h => by
    cases h
    exact ⟨trivial, trivial, .selector fun _ _ h => h⟩
  | .node a b, P, q, hw, hs, hP, h => by
    rw [invert] at h
    split at h
    · next hn =>
      cases h
      exact invert_none L.support hn
    · next hn => exact L.node hw hs hP hn h
  | .sum ts, P, q, hw, hs, hP, h => by
    rw [invert] at h
    split at h
    · next hn =>
      cases h
      exact invert_none L.support hn
    · obtain ⟨qs, hqs, h⟩ := bind_eq_ok.mp h
      cases h
      obtain ⟨hwf, hstep, hconv⟩ := invertAll_spec L ts hw hs.2 hP hqs
      have hne : qs ≠ [] := by
        rintro rfl
        exact hs.1 (List.forall₂_nil_right_iff.mp hconv)
      have hall : ∀ q ∈ qs, Additive nodeRel exprRel den nodeAdd q := fun q hq =>
        additive_of_stepwise L.additive q (hstep q hq)
      obtain ⟨hq, -, hrel⟩ := mkSum_spec tid hne hwf hall
      refine ⟨hq, ?_, .union hconv (fun v u => relSum_iff _ _ _) hrel⟩
      rcases mkSum_cases tid hne with ⟨hmem, -⟩ | ⟨us, heq, hmem⟩
      · exact hstep _ hmem
      · rw [heq]
        obtain ⟨q, hq⟩ := List.exists_mem_of_ne_nil qs hne
        exact ⟨List.ne_nil_of_mem ((hmem q).mpr hq),
          (stepwiseAll_iff nodeStep).mpr fun q hq => hstep q ((hmem q).mp hq)⟩
  | .compose a b, P, q, hw, hs, hP, h => by
    rw [invert] at h
    split at h
    · next hn =>
      cases h
      exact invert_none L.support hn
    · obtain ⟨mid, hmid, h⟩ := bind_eq_ok.mp h
      obtain ⟨y, hy, h⟩ := bind_eq_ok.mp h
      obtain ⟨x, hx, h⟩ := bind_eq_ok.mp h
      cases h
      obtain ⟨hmc, hmd⟩ := L.apply hw.2 (additive_of_stepwise L.additive b hs.2) hP hmid
      obtain ⟨hyw, hys, hyc⟩ := invert_spec L b hw.2 hs.2 hP hy
      obtain ⟨hxw, hxs, hxc⟩ := invert_spec L a hw.1 hs.1 hmc hx
      rw [hmd] at hxc
      have hcomp := hyc.comp hxc
      have hrel : rel nodeRel exprRel den (mkCompose y x) =
          Relation.Comp (rel nodeRel exprRel den x) (rel nodeRel exprRel den y) :=
        mkCompose_rel y x
      rw [← hrel] at hcomp
      exact ⟨mkCompose_of hyw hxw ⟨hyw, hxw⟩, mkCompose_of hys hxs ⟨hys, hxs⟩, hcomp⟩
  | .within d, P, q, hw, _, _, h => by
    rw [invert] at h
    cases h
    split
    · next hn => exact invert_none L.support hn
    · exact ⟨hw, trivial, .selector fun _ _ h => h.1⟩
  | .expr g as, P, q, hw, hs, _, h => by
    obtain rfl : as = [] := hs
    rw [invert] at h
    split at h
    · next hn =>
      cases h
      exact invert_none L.support hn
    · cases h
      exact ⟨hw, rfl, .selector fun _ _ => L.guard⟩
  | .lfp _, _, _, _, hs, _, _ => hs.elim
  | .gfp _, _, _, _, hs, _, _ => hs.elim
  | .saturate _ _ _, _, _, _, hs, _, _ => hs.elim

theorem invertAll_spec (L : InvertLaws A apply invertNode nodeWF nodeAdd nodeStep exprWF Canon
    nodeRel exprRel den) : (ts : List (OpTerm H T D)) → ∀ {P : D} {qs : List (OpTerm H T D)},
    WFAll nodeWF exprWF Canon ts → StepwiseAll nodeStep ts → Canon P →
    invertAll A apply invertNode tid ts P = .ok qs → (∀ q ∈ qs, WF nodeWF exprWF Canon q) ∧
      (∀ q ∈ qs, Stepwise nodeStep q) ∧
      List.Forall₂ (fun t q => Converse (den P) (rel nodeRel exprRel den t)
        (rel nodeRel exprRel den q)) ts qs
  | [], P, qs, _, _, _, h => by
    cases h
    exact ⟨by simp, by simp, .nil⟩
  | t :: ts, P, qs, hw, hs, hP, h => by
    rw [invertAll] at h
    obtain ⟨q, hq, h⟩ := bind_eq_ok.mp h
    obtain ⟨qs', hqs, h⟩ := bind_eq_ok.mp h
    cases h
    obtain ⟨hqw, hqs', hqc⟩ := invert_spec L t hw.1 hs.1 hP hq
    obtain ⟨hrw, hrs, hrc⟩ := invertAll_spec L ts hw.2 hs.2 hP hqs
    exact ⟨List.forall_mem_cons.mpr ⟨hqw, hrw⟩, List.forall_mem_cons.mpr ⟨hqs', hrs⟩, .cons hqc hrc⟩

end

end Spec

end OpTerm

/-! ## Guards -/

section Guards

variable {K : CaseRel} {R : ExprIds}

theorem Term.rel_of_isId : (s : Shape) → {t : Term s} → Term.isId s t = true →
    Term.rel K s t = fun v u => v = u
  | .unit, t, h => by
    cases t with
    | id => rfl
    | _ => cases h
  | .leaf, t, h => by
    have hid : ∀ t : IntTerm, decide (t = IntTerm.id) = true → t = .id := fun _ =>
      of_decide_eq_true
    obtain rfl := hid t h
    rfl
  | .pair _ _, t, h => by
    cases t with
    | id => rfl
    | _ => cases h

theorem Term.node_rel {h t : Shape} (a : Term h) (b : Term t) {v u : Word (.pair h t)} :
    Term.rel K (.pair h t) (Term.node a b) v u ↔ nodeRel (Term.rel K h) (Term.rel K t) a b v u := by
  unfold Term.node OpTerm.mkNode
  split
  · next hid =>
    obtain ⟨ha, hb⟩ := Bool.and_eq_true_iff.mp hid
    show v = u ↔ Term.rel K h a v.1 u.1 ∧ Term.rel K t b v.2 u.2
    rw [Term.rel_of_isId h ha, Term.rel_of_isId t hb]
    exact Prod.ext_iff
  · exact Iff.rfl

theorem Term.node_selects {h t : Shape} {a : Term h} {b : Term t}
    (ha : ∀ v u, Term.rel K h a v u → v = u) (hb : ∀ v u, Term.rel K t b v u → v = u)
    (v u : Word (.pair h t)) (hvu : Term.rel K (.pair h t) (Term.node a b) v u) : v = u := by
  obtain ⟨h1, h2⟩ := (Term.node_rel a b).mp hvu
  exact Prod.ext (ha _ _ h1) (hb _ _ h2)

theorem Term.id_selects (s : Shape) (v u : Word s) (h : Term.rel K s (Term.id s) v u) : v = u := by
  have hid : Term.isId s (Term.id s) = true := by cases s <;> rfl
  rwa [Term.rel_of_isId s hid] at h

theorem zeroTerm_selects : (s : Shape) → ∀ z : Term s, zeroTerm s = .ok z →
    ∀ v u, Term.rel K s z v u → v = u
  | .unit => fun z h => nomatch h
  | .leaf => by
    intro z h v u hvu
    cases h
    exact absurd hvu IntTerm.zero_rel
  | .pair h t => by
    intro z hz
    obtain ⟨z', hz', hz⟩ := bind_eq_ok.mp hz
    cases hz
    exact Term.node_selects (zeroTerm_selects h z' hz') (Term.id_selects t)

/-- An event that assigns nothing selects, when the brackets that assign nothing do. -/
theorem makeEvent_selects (hK : ∀ {s g v u}, K s g [] v u → v = u) : (s : Shape) →
    ∀ (g : BExpr) (z : Term s), makeEvent R s g [] = .ok z → ∀ v u, Term.rel K s z v u → v = u
  | .unit => fun _ _ _ _ _ _ => rfl
  | .leaf => by
    intro g z hz
    rw [makeEvent] at hz
    split at hz
    · exact zeroTerm_selects .leaf z hz
    · by_cases hid : g = .btrue
      · cases hz.symm.trans (if_pos ⟨hid, rfl⟩)
        exact Term.id_selects .leaf
      · intro v u hvu
        cases hz.symm.trans (if_neg fun h => hid h.1)
        unfold Term.rel IntTerm.keepIf at hvu
        split at hvu
        · exact hvu
        · exact hvu.2
  | .pair h t => by
    intro g z hz
    rw [makeEvent] at hz
    split at hz
    · exact zeroTerm_selects (.pair h t) z hz
    · rw [pruneAssigns] at hz
      dsimp only at hz
      split at hz
      · cases hz
        exact Term.id_selects (.pair h t)
      · obtain ⟨ps, -, hz⟩ := bind_eq_ok.mp hz
        split at hz
        · obtain ⟨a, ha, hz⟩ := bind_eq_ok.mp hz
          cases hz
          exact Term.node_selects (makeEvent_selects hK h g a ha) (Term.id_selects t)
        · split at hz
          · obtain ⟨g', -, hz⟩ := bind_eq_ok.mp hz
            obtain ⟨b, hb, hz⟩ := bind_eq_ok.mp hz
            cases hb
            obtain ⟨c, hc, hz⟩ := bind_eq_ok.mp hz
            cases hz
            exact Term.node_selects (Term.id_selects h) (makeEvent_selects hK t g' c hc)
          · cases hz
            exact fun v u hvu => hK hvu

theorem bracketRel_selects (hK : ∀ {s g v u}, K s g [] v u → v = u) {s : Shape} {g : BExpr}
    {v u : Word s} (h : bracketRel R K s g [] v u) : v = u := by
  have hresidual : ∀ {s : Shape} {e m : IExpr} {v u : Word s},
      residualRel R K s g [] e m v u → v = u := by
    rintro s e m v u ⟨g', curried, z, -, -, hcurried, hz, hvu⟩
    cases hcurried
    exact makeEvent_selects hK s g' z hz v u hvu
  cases s with
  | unit => exact False.elim h
  | leaf => exact False.elim h
  | pair sh st =>
    simp only [bracketRel] at h
    split at h
    · split at h
      · obtain ⟨m, -, h⟩ := h
        exact hresidual h
      · obtain ⟨e, m, -, -, h⟩ := h
        exact hresidual h
    · obtain ⟨ws, th, tt, hws, hth, htt, h⟩ := h
      cases hws
      exact Prod.ext (makeEvent_selects hK sh _ th hth _ _ h.1)
        (makeEvent_selects hK st _ tt htt _ _ h.2)

/-- A case bracket that only guards is a selector. -/
theorem engineRel_selects : ∀ (depth : Nat) {s : Shape} {g : BExpr} {v u : Word s},
    engineRel R depth s g [] v u → v = u
  | 0, _, _, _, _, h => h.elim
  | depth + 1, _, _, _, _, h => bracketRel_selects (engineRel_selects depth) h

end Guards

/-! ## Inversion in a run -/

/-- The join of the codes, the first one taken as it is. -/
def gather {C : Type} [DecidableEq C] (A : SupportAlgebra C) (codes : List C) : C :=
  codes.foldl (fun acc c => if acc = A.none then c else A.join acc c) A.none

theorem gather_spec {C W : Type} [DecidableEq C] {A : SupportAlgebra C} {den : C → Set W}
    {Canon : C → Prop} (L : SupportLaws A den Canon) {codes : List C}
    (hc : ∀ c ∈ codes, Canon c) : Canon (gather A codes) ∧
      ∀ c ∈ codes, den c ⊆ den (gather A codes) := by
  have hall : ∀ (codes : List C) (acc : C), Canon acc → (∀ c ∈ codes, Canon c) →
      Canon (codes.foldl (fun acc c => if acc = A.none then c else A.join acc c) acc) ∧
        ∀ c ∈ acc :: codes, den c ⊆ den (codes.foldl (fun acc c =>
            if acc = A.none then c else A.join acc c) acc) := by
    intro codes
    induction codes with
    | nil => exact fun acc hacc _ => ⟨hacc, by simp⟩
    | cons c codes ih =>
      intro acc hacc hcs
      obtain ⟨hc, hcs⟩ := List.forall_mem_cons.mp hcs
      have hstep : Canon (if acc = A.none then c else A.join acc c) ∧
          den (if acc = A.none then c else A.join acc c) = den acc ∪ den c := by
        split
        · next h => exact ⟨hc, by rw [h, L.den_none, Set.empty_union]⟩
        · exact ⟨L.canon_join hacc hc, L.den_join hacc hc⟩
      obtain ⟨hcanon, hsub⟩ := ih _ hstep.1 hcs
      obtain ⟨hfirst, hrest⟩ := List.forall_mem_cons.mp hsub
      rw [hstep.2] at hfirst
      refine ⟨hcanon, List.forall_mem_cons.mpr ⟨?_, List.forall_mem_cons.mpr ⟨?_, hrest⟩⟩⟩
      · exact Set.subset_union_left.trans hfirst
      · exact Set.subset_union_right.trans hfirst
  obtain ⟨hcanon, hsub⟩ := hall codes A.none L.canon_none hc
  exact ⟨hcanon, fun c hc => hsub c (List.mem_cons_of_mem _ hc)⟩

/-- At sort `1` the inverter and the diagram engine call each other without end. -/
def invertUnit : OpTerm Empty Empty (Code .unit) → Code .unit →
    Except Err (OpTerm Empty Empty (Code .unit))
  | .id, _ => .ok .id
  | _, false => .ok (.within false)
  | _, true => .error .undefinedBehaviour

def Term.Stepwise : (s : Shape) → Term s → Prop
  | .unit => OpTerm.Stepwise fun _ _ => True
  | .leaf => IntTerm.Stepwise
  | .pair h t => OpTerm.Stepwise fun a b => Term.Stepwise h a ∧ Term.Stepwise t b

namespace Manager

variable (m : Manager)

/-- The converse of a term relative to a potential. -/
def invert : (s : Shape) → Term s → Code s → Except Err (Term s)
  | .unit => invertUnit
  | .leaf => IntTerm.invertLocal (m.termIds .leaf)
  | .pair h t => OpTerm.invert (m.algebra (.pair h t)) (m.apply (.pair h t))
      (fun a b potential => do
        let ph := gather (m.algebra h) (potential.map Arc.prime)
        let pt := gather (m.algebra t) (potential.map Arc.sub)
        return Term.node (← invert h a ph) (← invert t b pt))
      (m.termIds (.pair h t))

variable {m}

theorem additive_of_stepwise : (s : Shape) → ∀ t : Term s, Term.Stepwise s t →
    Term.Additive m.brackets s t
  | .unit => fun t h => OpTerm.additive_of_stepwise (fun _ _ _ => trivial) t h
  | .leaf => fun _ _ => trivial
  | .pair sh st => fun t h => OpTerm.additive_of_stepwise
      (fun a b h => ⟨additive_of_stepwise sh a h.1, additive_of_stepwise st b h.2⟩) t h

theorem node_stepwise {h t : Shape} {a : Term h} {b : Term t} (ha : Term.Stepwise h a)
    (hb : Term.Stepwise t b) : Term.Stepwise (.pair h t) (Term.node a b) := by
  unfold Term.node OpTerm.mkNode
  split
  · trivial
  · exact ⟨ha, hb⟩

theorem node_wf {h t : Shape} {a : Term h} {b : Term t} (ha : m.WF h a) (hb : m.WF t b) :
    m.WF (.pair h t) (Term.node a b) := by
  unfold Term.node OpTerm.mkNode
  split
  · trivial
  · exact ⟨ha, hb⟩

/-- The inverter gives the converse, at every sort: its pairs are pairs of the term read
backwards, all those that start in the potential among them. -/
theorem invert_spec : (s : Shape) → ∀ (t q : Term s) (P : Code s), m.WF s t →
    Term.Stepwise s t → m.Canon s P → m.invert s t P = .ok q →
    m.WF s q ∧ Term.Stepwise s q ∧ Converse (den s P) (m.rel s t) (m.rel s q)
  | .unit => by
    intro t q P hw hs hP h
    have hL := m.laws .unit
    cases t with
    | id =>
      cases h
      exact ⟨trivial, trivial, .selector fun _ _ h => h⟩
    | node a _ => exact a.elim
    | _ =>
      cases P with
      | false =>
        cases h
        exact ⟨trivial, trivial, .of_empty hL.den_none fun _ _ h => Bool.false_ne_true h.2⟩
      | true => cases h
  | .leaf => by
    intro t q P hw hs hP h
    obtain ⟨⟨hqw, hqs⟩, hconv⟩ := IntTerm.invertLocal_spec hw hs hP h
    exact ⟨hqw, hqs, hconv⟩
  | .pair sh st => by
    intro t q P hw hs hP h
    have hadd : ∀ a b, Term.Stepwise sh a ∧ Term.Stepwise st b →
        Term.Additive m.brackets sh a ∧ Term.Additive m.brackets st b := fun a b h =>
      ⟨additive_of_stepwise sh a h.1, additive_of_stepwise st b h.2⟩
    refine OpTerm.invert_spec ⟨m.laws (.pair sh st), hadd, ?_, ?_, ?_⟩ t hw hs hP h
    · exact fun hw ha hd hr => ⟨(m.termLaws (.pair sh st)).canon_apply hw hd hr,
        (m.termLaws (.pair sh st)).den_apply hw ha hd hr⟩
    · intro a b P q hw hs hP _ h
      obtain ⟨a', ha, h⟩ := bind_eq_ok.mp h
      obtain ⟨b', hb, h⟩ := bind_eq_ok.mp h
      cases h
      have hnode : NodeCanon (m.algebra sh) (m.algebra st) (den sh) (m.Canon sh)
        (m.Canon st) P := hP
      obtain ⟨hphc, hph⟩ := gather_spec (m.laws sh)
        (List.forall_mem_map.mpr fun x hx => (hnode.canon x hx).1)
      obtain ⟨hptc, hpt⟩ := gather_spec (m.laws st)
        (List.forall_mem_map.mpr fun x hx => (hnode.canon x hx).2)
      obtain ⟨haw, has, hac⟩ := invert_spec sh a a' _ hw.1 hs.1 hphc ha
      obtain ⟨hbw, hbs, hbc⟩ := invert_spec st b b' _ hw.2 hs.2 hptc hb
      refine ⟨node_wf haw hbw, node_stepwise has hbs, ?_⟩
      have hconv := Converse.node (P := den (.pair sh st) P) hac hbc fun w hw => by
        obtain ⟨x, hx, h1, h2⟩ := (mem_nodeDen (den sh) (den st)).mp hw
        exact ⟨hph _ (List.mem_map_of_mem hx) h1, hpt _ (List.mem_map_of_mem hx) h2⟩
      exact ⟨fun huv => hconv.sound ((Term.node_rel a' b').mp huv),
        fun hv hvu => (Term.node_rel a' b').mpr (hconv.complete hv hvu)⟩
    · exact fun h => engineRel_selects m.depth h

/-! ## The inverter of the temporal layer -/

section States

open scoped Classical

variable (m : Manager) (s : Shape)

/-- The states a term leads to from a state. -/
noncomputable def stepOf (t : Term s) (v : Word s) : Finset (Word s) :=
  if h : {u | m.rel s t v u}.Finite then h.toFinset else ∅

/-- The diagram of a set of states, when they have one. -/
noncomputable def codeOf (P : Finset (Word s)) : Option (Code s) :=
  if h : ∃ d, m.Canon s d ∧ den s d = ↑P then some h.choose else none

variable {m s}

/-- One step of a term without closure has finitely many results. -/
theorem rel_finite : (s : Shape) → ∀ t : Term s, Term.Stepwise s t → ∀ v,
    Set.Finite {u | m.rel s t v u}
  | .unit => fun t h v => OpTerm.rel_finite (fun a => a.elim) (engineRel_selects m.depth) t h v
  | .leaf => fun _ h v => IntTerm.rel_finite h v
  | .pair sh st => fun t h v => by
    refine OpTerm.rel_finite (fun a b h v => ?_) (engineRel_selects m.depth) t h v
    have hnode := (rel_finite sh a h.1 v.1).prod (rel_finite st b h.2 v.2)
    exact hnode.subset fun _ hu => hu

theorem mem_stepOf {t : Term s} (h : Term.Stepwise s t) {v u : Word s} :
    u ∈ m.stepOf s t v ↔ m.rel s t v u := by
  rw [stepOf, dif_pos (rel_finite s t h v), Set.Finite.mem_toFinset]
  rfl

theorem codeOf_spec {P : Finset (Word s)} {d : Code s} (h : m.codeOf s P = some d) :
    m.Canon s d ∧ den s d = ↑P := by
  unfold codeOf at h
  split at h
  · next hd =>
    cases h
    exact hd.choose_spec
  · cases h

theorem codeOf_den {P : Finset (Word s)} {d : Code s} (hd : m.Canon s d) (hP : den s d = ↑P) :
    m.codeOf s P = some d := by
  have hex : ∃ d, m.Canon s d ∧ den s d = ↑P := ⟨d, hd, hP⟩
  rw [codeOf, dif_pos hex]
  obtain ⟨hcanon, hden⟩ := hex.choose_spec
  exact congrArg some ((m.laws s).ext hcanon hd (hden.trans hP.symm))

variable (m s) in
/-- The converse of an event, which is the step of one of the terms. -/
noncomputable def invertEvent (terms : List (Term s)) (event : Word s → Finset (Word s))
    (potential : Finset (Word s)) : Option (Word s → Finset (Word s)) := do
  let t ← terms.find? fun t => m.WF s t ∧ Term.Stepwise s t ∧ m.stepOf s t = event
  let d ← m.codeOf s potential
  match m.invert s t d with
  | .ok q => some (m.stepOf s q)
  | .error _ => none

theorem invertEvent_spec {terms : List (Term s)} {event p : Word s → Finset (Word s)}
    {potential : Finset (Word s)} (h : m.invertEvent s terms event potential = some p) :
    Converse ↑potential (fun v u => u ∈ event v) fun v u => u ∈ p v := by
  obtain ⟨t, ht, h'⟩ := Option.bind_eq_some_iff.mp h
  obtain ⟨d, hd, hq⟩ := Option.bind_eq_some_iff.mp h'
  have hfound := List.find?_some ht
  obtain ⟨hw, hs, rfl⟩ := of_decide_eq_true hfound
  obtain ⟨hdc, hden⟩ := codeOf_spec hd
  split at hq
  · next q hinv =>
    cases hq
    obtain ⟨-, hqs, hconv⟩ := invert_spec s t q d hw hs hdc hinv
    exact ⟨fun huv => (mem_stepOf hs).mpr (hconv.sound ((mem_stepOf hqs).mp huv)),
      fun hv hvu => (mem_stepOf hqs).mpr (hconv.complete (hden ▸ hv) ((mem_stepOf hs).mp hvu))⟩
  · cases hq

/-- An event whose term inverts has a converse. -/
theorem invertEvent_of {t q : Term s} {event : Word s → Finset (Word s)}
    {potential : Finset (Word s)} {d : Code s} (hw : m.WF s t) (hs : Term.Stepwise s t)
    (hstep : ∀ v u, m.rel s t v u ↔ u ∈ event v) (hd : m.Canon s d)
    (hden : den s d = ↑potential) (hq : m.invert s t d = .ok q) :
    m.invertEvent s [t] event potential = some (m.stepOf s q) := by
  have hevent : m.stepOf s t = event := by
    ext v u
    exact (mem_stepOf hs).trans (hstep v u)
  simp [invertEvent, hw, hs, hevent, codeOf_den hd hden, hq]

variable (m s) in
/-- The inverter of a run, for the terms of a default system. -/
noncomputable def inverter (terms : List (Term s)) : Ctl.Inverter (Word s) where
  run := m.invertEvent s terms
  sound _ _ _ h _ _ hyx := (invertEvent_spec h).sound hyx
  complete _ _ _ h _ _ hy hyx := (invertEvent_spec h).complete hy hyx

end States

end Manager

end LibHSC
