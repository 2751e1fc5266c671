import LibHSC.Ctl.Answer
import Mathlib.Order.Filter.AtTopBot.Basic

/-!
Every question comes to an answer: with more rounds than reachable states no loop of the
checker is cut, and a formula is evaluated in finitely many calls. An evaluation that
gives no set is a refusal, of a backward operator with no converse to step with.
-/

namespace LibHSC.Ctl

open Lia (ConnOp Truth)
open Paths
open Filter (atTop)

/-! ## Temporal depth -/

mutual

/-- How deep the path operators nest. -/
def Formula.pathDepth : Formula → Nat
  | .not f => f.pathDepth
  | .nary _ kids => pathDepthList kids
  | .unary _ f => f.pathDepth + 1
  | .binary _ f g => max f.pathDepth g.pathDepth + 1
  | _ => 0

def pathDepthList : List Formula → Nat
  | [] => 0
  | f :: fs => max f.pathDepth (pathDepthList fs)

end

section Depth

variable {ids : Formula → Nat}

theorem pathDepthList_le {n : Nat} {fs : List Formula} :
    pathDepthList fs ≤ n ↔ ∀ f ∈ fs, f.pathDepth ≤ n := by
  induction fs with
  | nil => simp [pathDepthList]
  | cons f fs ih => rw [pathDepthList, Nat.max_le, ih, List.forall_mem_cons]

theorem nary_depth {n : Nat} {k : ConnOp} {fs : List Formula} (h : ∀ f ∈ fs, f.pathDepth ≤ n) :
    (nary ids k fs).pathDepth ≤ n :=
  nary_all (X := fun f => f.pathDepth ≤ n) n.zero_le n.zero_le (fun _ _ => pathDepthList_le) h

mutual

theorem nnf_depth : (f : Formula) → (nnf ids f).pathDepth ≤ f.pathDepth
  | .atom _ => Nat.le_refl _
  | .tru => Nat.le_refl _
  | .fls => Nat.le_refl _
  | .not f => negate_depth f
  | .nary _ kids => nary_depth fun g hg => nnfList_depth kids _ le_rfl g hg
  | .unary _ f => Nat.succ_le_succ (nnf_depth f)
  | .binary _ f g => Nat.succ_le_succ (max_le_max (nnf_depth f) (nnf_depth g))

/-- The negation nests the path operators no deeper. -/
theorem negate_depth : (f : Formula) → (negate ids f).pathDepth ≤ f.pathDepth
  | .atom _ => Nat.le_refl _
  | .tru => Nat.le_refl _
  | .fls => Nat.le_refl _
  | .not f => nnf_depth f
  | .nary _ kids => nary_depth fun g hg => negateList_depth kids _ le_rfl g hg
  | .unary _ f => Nat.succ_le_succ (negate_depth f)
  | .binary _ f g => by
    have hf := negate_depth f
    have hg := negate_depth g
    refine Nat.succ_le_succ (Nat.max_le.mpr ⟨hg.trans (Nat.le_max_right _ _), nary_depth ?_⟩)
    simp only [List.forall_mem_cons, List.not_mem_nil, false_implies, implies_true, and_true]
    exact ⟨hf.trans (Nat.le_max_left _ _), hg.trans (Nat.le_max_right _ _)⟩

theorem nnfList_depth : (fs : List Formula) → ∀ n, pathDepthList fs ≤ n →
    ∀ f ∈ nnfList ids fs, f.pathDepth ≤ n
  | [], _, _ => by simp [nnfList]
  | f :: fs, n, h => by
    obtain ⟨hf, hfs⟩ := Nat.max_le.mp h
    exact List.forall_mem_cons.mpr ⟨(nnf_depth f).trans hf, nnfList_depth fs n hfs⟩

theorem negateList_depth : (fs : List Formula) → ∀ n, pathDepthList fs ≤ n →
    ∀ f ∈ negateList ids fs, f.pathDepth ≤ n
  | [], _, _ => by simp [negateList]
  | f :: fs, n, h => by
    obtain ⟨hf, hfs⟩ := Nat.max_le.mp h
    exact List.forall_mem_cons.mpr ⟨(negate_depth f).trans hf, negateList_depth fs n hfs⟩

end

end Depth

/-! ## Settled evaluations -/

namespace Model

variable {σ : Type} [DecidableEq σ] {M : Model σ} {step : σ → σ → Prop} {ids : Formula → Nat}
  {rounds depth : Nat} {S : Formula → Except Halt (Finset σ)} {f g q : Formula}
  {p p' : Prop} {α β : Type}

variable (M) in
/-- There is a value, or a refusal where `p` holds and the model has no converse. -/
def Settled (p : Prop) (x : Except Halt α) : Prop :=
  (∃ a, x = .ok a) ∨ (x = .error .refused ∧ M.pred = [] ∧ p)

omit [DecidableEq σ] in
theorem settled_ok (a : α) : M.Settled p (.ok a) := .inl ⟨a, rfl⟩

omit [DecidableEq σ] in
theorem Settled.mono {x : Except Halt α} (h : M.Settled p x) (hp : p → p') : M.Settled p' x :=
  h.imp_right fun ⟨hx, hpred, h⟩ => ⟨hx, hpred, hp h⟩

omit [DecidableEq σ] in
theorem Settled.bind {x : Except Halt α} {k : α → Except Halt β} (hx : M.Settled p x)
    (hk : ∀ a, x = .ok a → M.Settled p (k a)) : M.Settled p (x >>= k) := by
  rcases hx with ⟨a, rfl⟩ | ⟨rfl, hpred, hp⟩
  · exact hk a rfl
  · exact .inr ⟨rfl, hpred, hp⟩

theorem lfpLoop_total {h : Finset σ → Finset σ} {R : Finset σ} (hR : ∀ x ⊆ R, h x ⊆ R) :
    ∀ {n : Nat} {x : Finset σ}, x ⊆ R → R.card < n + x.card → ∃ y, lfpLoop h n x = .ok y := by
  intro n
  induction n with
  | zero =>
    intro x hx hc
    have := Finset.card_le_card hx
    omega
  | succ n ih =>
    intro x hx hc
    unfold lfpLoop
    by_cases hfix : x ∪ h x = x
    · exact ⟨x, if_pos hfix⟩
    · rw [if_neg hfix]
      have hlt : x.card < (x ∪ h x).card := Finset.card_lt_card
        (Finset.ssubset_iff_subset_ne.mpr ⟨Finset.subset_union_left, Ne.symm hfix⟩)
      exact ih (Finset.union_subset hx (hR x hx)) (by omega)

section Loops

variable (hM : M.Exact step) (hr : M.reach.card < rounds)

include hM hr

omit hr in
theorem image_events {b : Bool} (hev : M.events b ≠ []) {X : Finset σ} (hX : X ⊆ M.reach) :
    image (M.events b) X ⊆ M.reach := by
  cases b with
  | false => exact (image_mono hX).trans hM.inside.next
  | true => exact fun y hy => ((hM.mem_pred hev hX).mp hy).1

theorem constrainedLfp_settled {b before : Bool} {start : Finset σ} (hstart : start ⊆ M.reach)
    (hS : isState q = false → M.Settled p (S q)) :
    M.Settled p (M.constrainedLfp rounds S b start q before) := by
  have hround : M.events b ≠ [] → ∀ {C : Finset σ → Finset σ}, (∀ X, C X ⊆ X) →
      M.Settled p (if before then
        lfpLoop (fun x => image (M.events b) (C x)) rounds start
        else lfpLoop (fun x => C (image (M.events b) x)) rounds start) := by
    intro hev C hC
    split
    · exact .inl (lfpLoop_total (fun X hX => image_events hM hev ((hC X).trans hX)) hstart
        (by omega))
    · exact .inl (lfpLoop_total (fun X hX => (hC _).trans (image_events hM hev hX)) hstart
        (by omega))
  unfold constrainedLfp
  split
  · exact settled_ok _
  · split
    · exact settled_ok _
    · next hev =>
      have hev : M.events b ≠ [] := fun hnil => hev (List.isEmpty_iff.mpr hnil)
      split
      · exact settled_ok _
      · split
        · exact hround hev fun X => Finset.filter_subset _ _
        · next hq =>
          exact (hS (Bool.eq_false_iff.mpr hq)).bind fun s _ =>
            hround hev fun X => Finset.inter_subset_left

omit hM in
theorem hull_ok {b : Bool} {x0 : Finset σ} (hx0 : x0 ⊆ M.reach) :
    ∃ y, M.hull rounds b x0 = .ok y := by
  unfold hull
  split
  · exact ⟨x0, rfl⟩
  · exact gfpLoop_total (lt_of_le_of_lt (Finset.card_le_card hx0) hr)

omit hM in
theorem hullNonempty_ok {b : Bool} {x0 : Finset σ} (hx0 : x0 ⊆ M.reach) :
    ∃ c, M.hullNonempty rounds b x0 = .ok c := by
  unfold hullNonempty
  split
  · exact ⟨false, rfl⟩
  · obtain ⟨y, hy⟩ := hull_ok hr hx0 (b := b)
    rw [hy]
    exact ⟨_, rfl⟩

omit hM in
theorem hasCycles_ok : ∃ c, M.hasCycles rounds = .ok c := by
  unfold Model.hasCycles
  split
  · exact ⟨false, rfl⟩
  · exact hullNonempty_ok hr subset_rfl

theorem satEu_settled (hg : M.Settled True (S g)) (hf : M.Settled True (S f))
    (hgR : ∀ s, S g = .ok s → s ⊆ M.reach) : M.Settled True (M.satEu rounds S f g) := by
  refine hg.bind fun sg hsg => ?_
  split
  · next hpred => exact .inr ⟨rfl, List.isEmpty_iff.mp hpred, trivial⟩
  · exact constrainedLfp_settled hM hr (hgR sg hsg) fun _ => hf

theorem satEg_settled (hf : M.Settled True (S f)) (hfR : ∀ s, S f = .ok s → s ⊆ M.reach) :
    M.Settled True (M.satEg rounds S f) := by
  refine hf.bind fun sf hsf => ?_
  have hsfR := hfR sf hsf
  split
  · next hpred => exact .inr ⟨rfl, List.isEmpty_iff.mp hpred, trivial⟩
  · refine (constrainedLfp_settled hM hr (Finset.inter_subset_right.trans hsfR)
      fun _ => hf).bind fun r _ => ?_
    unfold Model.addHull
    split
    · exact settled_ok _
    · obtain ⟨c, hc⟩ := hasCycles_ok hr
      obtain ⟨b, hb⟩ := hullNonempty_ok hr hsfR (b := true)
      obtain ⟨X, hX⟩ := hull_ok hr hsfR (b := true)
      rw [hc, hb, hX]
      cases c <;> cases b <;> exact .inl ⟨_, rfl⟩

omit hM hr in
theorem both_settled {u v : Except Halt (Finset σ)} (hu : M.Settled p u) (hv : M.Settled p v) :
    M.Settled p (both u v) := by
  rcases hu with ⟨a, rfl⟩ | ⟨rfl, hpred, hp⟩ <;> rcases hv with ⟨b, rfl⟩ | ⟨rfl, hpred, hp⟩
  · exact settled_ok _
  · exact .inr ⟨rfl, hpred, hp⟩
  · exact .inr ⟨rfl, hpred, hp⟩
  · exact .inr ⟨rfl, hpred, hp⟩

omit hM hr in
theorem satAll_settled {k : ConnOp} {fs : List Formula} : ∀ {acc : Finset σ},
    (∀ f ∈ fs, M.Settled p (S f)) → M.Settled p (satAll S k acc fs) := by
  induction fs with
  | nil => exact fun _ => settled_ok _
  | cons f fs ih =>
    intro acc h
    obtain ⟨hf, hfs⟩ := List.forall_mem_cons.mp h
    exact hf.bind fun s _ => ih hfs

omit hr in
theorem sat_subset {n : Nat} {s : Finset σ} (hs : M.sat ids rounds n f = .ok s) :
    s ⊆ M.reach := fun x hx => ((hM.sat s hs x).mp hx).1

end Loops

/-! ## Enough depth -/

variable (M ids rounds) in
/-- With enough depth the evaluation of the formula settles. -/
def Evaluates (f : Formula) : Prop :=
  ∀ᶠ n in atTop, M.Settled (isState f = false) (M.sat ids rounds n f)

theorem eventually_succ {P Q : Nat → Prop} (h : ∀ᶠ n in atTop, P n)
    (hstep : ∀ n, P n → Q (n + 1)) : ∀ᶠ n in atTop, Q n := by
  obtain ⟨N, hN⟩ := Filter.eventually_atTop.mp h
  refine Filter.eventually_atTop.mpr ⟨N + 1, fun n hn => ?_⟩
  obtain ⟨m, rfl⟩ : ∃ m, n = m + 1 := ⟨n - 1, by omega⟩
  exact hstep m (hN m (by omega))

theorem eventually_list {P : Formula → Nat → Prop} {fs : List Formula}
    (h : ∀ f ∈ fs, ∀ᶠ n in atTop, P f n) : ∀ᶠ n in atTop, ∀ f ∈ fs, P f n := by
  induction fs with
  | nil => exact .of_forall fun _ f hf => by cases hf
  | cons f fs ih =>
    obtain ⟨hf, hfs⟩ := List.forall_mem_cons.mp h
    exact (hf.and (ih hfs)).mono fun n hn => List.forall_mem_cons.mpr hn

theorem evaluates_state (hf : isState f = true) : M.Evaluates ids rounds f := by
  refine eventually_succ (P := fun _ => True) (.of_forall fun _ => trivial) fun n _ => ?_
  unfold Model.sat
  rw [if_pos hf]
  exact settled_ok _

/-- A formula with a path operator: the call on it settles once those it makes do. -/
theorem evaluates_of {P : Nat → Prop} (hf : ¬ isState f = true) (h : ∀ᶠ n in atTop, P n)
    (hstep : ∀ n, P n → M.Settled True (M.sat ids rounds (n + 1) f)) :
    M.Evaluates ids rounds f :=
  eventually_succ h fun n hn => (hstep n hn).mono fun _ => Bool.eq_false_iff.mpr hf

section Evaluation

variable (hM : M.Exact step) (hr : M.reach.card < rounds)

include hM hr

theorem evaluates_unary {o : UnaryOp} {g : Formula} (hg : M.Evaluates ids rounds g)
    (hn : M.Evaluates ids rounds (negate ids g)) (ht : M.Evaluates ids rounds .tru) :
    M.Evaluates ids rounds (.unary o g) := by
  refine evaluates_of nofun ((hg.and hn).and ht) fun n ⟨⟨hg, hn⟩, ht⟩ => ?_
  have hg := hg.mono fun _ => trivial
  have hn := hn.mono fun _ => trivial
  have ht := ht.mono fun _ => trivial
  have hstep : ∀ {g : Formula} {k : Finset σ → Finset σ}, M.Settled True (M.sat ids rounds n g) →
      M.Settled True (do
        let s ← M.sat ids rounds n g
        if M.pred.isEmpty then .error .refused else return k s) := by
    intro g k hg
    refine hg.bind fun s _ => ?_
    split
    · next hpred => exact .inr ⟨rfl, List.isEmpty_iff.mp hpred, trivial⟩
    · exact settled_ok _
  cases o with
  | ex => exact hstep hg
  | ax => exact hstep hn
  | ef => exact satEu_settled hM hr hg ht fun s => sat_subset hM
  | ag =>
    exact (satEu_settled hM hr hn ht fun s => sat_subset hM).bind fun s _ => settled_ok _
  | eg => exact satEg_settled hM hr hg fun s => sat_subset hM
  | af => exact (satEg_settled hM hr hn fun s => sat_subset hM).bind fun s _ => settled_ok _

theorem evaluates_binary {o : BinaryOp} {f g : Formula} (hf : M.Evaluates ids rounds f)
    (hg : M.Evaluates ids rounds g) (hng : M.Evaluates ids rounds (negate ids g))
    (hboth : M.Evaluates ids rounds (nary ids .conj [negate ids f, negate ids g])) :
    M.Evaluates ids rounds (.binary o f g) := by
  refine evaluates_of nofun ((hf.and hg).and (hng.and hboth)) fun n ⟨⟨hf, hg⟩, hng, hboth⟩ => ?_
  have hf := hf.mono fun _ => trivial
  have hg := hg.mono fun _ => trivial
  have hng := hng.mono fun _ => trivial
  have hboth := hboth.mono fun _ => trivial
  cases o with
  | eu => exact satEu_settled hM hr hg hf fun s => sat_subset hM
  | ew =>
    exact both_settled (satEu_settled hM hr hg hf fun s => sat_subset hM)
      (satEg_settled hM hr hf fun s => sat_subset hM)
  | au =>
    exact (both_settled (satEu_settled hM hr hboth hng fun s => sat_subset hM)
      (satEg_settled hM hr hng fun s => sat_subset hM)).bind fun s _ => settled_ok _
  | aw =>
    exact (satEu_settled hM hr hboth hng fun s => sat_subset hM).bind fun s _ => settled_ok _

mutual

/-- The induction within one temporal depth: below a path operator the depth is less. -/
theorem evaluates_at {d : Nat} (hd : ∀ g : Formula, g.pathDepth < d → M.Evaluates ids rounds g) :
    (f : Formula) → f.pathDepth ≤ d → M.Evaluates ids rounds f
  | .atom _, _ => evaluates_state rfl
  | .tru, _ => evaluates_state rfl
  | .fls, _ => evaluates_state rfl
  | .not g, h => by
    by_cases hs : isState (.not g) = true
    · exact evaluates_state hs
    · refine evaluates_of hs (evaluates_at hd g h) fun n hn => ?_
      unfold Model.sat
      rw [if_neg hs]
      exact (hn.mono fun _ => trivial).bind fun s _ => settled_ok _
  | .nary k kids, h => by
    by_cases hs : isState (.nary k kids) = true
    · exact evaluates_state hs
    · refine evaluates_of hs (eventually_list (evaluatesList_at hd kids h)) fun n hn => ?_
      have hall : ∀ f ∈ kids, M.Settled True (M.sat ids rounds n f) := fun f hf =>
        (hn f hf).mono fun _ => trivial
      unfold Model.sat
      rw [if_neg hs]
      cases k with
      | conj => exact satAll_settled hall
      | disj => exact satAll_settled hall
  | .unary o g, h => by
    have hg : g.pathDepth < d := h
    exact evaluates_unary hM hr (hd g hg) (hd _ ((negate_depth g).trans_lt hg))
      (evaluates_state rfl)
  | .binary o f g, h => by
    obtain ⟨hf, hg⟩ := max_lt_iff.mp (show max f.pathDepth g.pathDepth < d from h)
    refine evaluates_binary hM hr (hd f hf) (hd g hg) (hd _ ((negate_depth g).trans_lt hg))
      (hd _ ?_)
    refine (nary_depth (n := max f.pathDepth g.pathDepth) ?_).trans_lt (max_lt hf hg)
    simp only [List.forall_mem_cons, List.not_mem_nil, false_implies, implies_true, and_true]
    exact ⟨(negate_depth f).trans (Nat.le_max_left _ _),
      (negate_depth g).trans (Nat.le_max_right _ _)⟩

theorem evaluatesList_at {d : Nat}
    (hd : ∀ g : Formula, g.pathDepth < d → M.Evaluates ids rounds g) : (fs : List Formula) →
    pathDepthList fs ≤ d → ∀ f ∈ fs, M.Evaluates ids rounds f
  | [], _ => nofun
  | f :: fs, h => by
    obtain ⟨hf, hfs⟩ := Nat.max_le.mp h
    exact List.forall_mem_cons.mpr ⟨evaluates_at hd f hf, evaluatesList_at hd fs hfs⟩

end

/-- Every formula evaluates. -/
theorem evaluates (ids : Formula → Nat) (f : Formula) : M.Evaluates ids rounds f := by
  have hall : ∀ d, ∀ g : Formula, g.pathDepth < d → M.Evaluates ids rounds g := by
    intro d
    induction d with
    | zero => exact fun g h => absurd h (Nat.not_lt_zero _)
    | succ d ih => exact fun g h => evaluates_at hM hr ih g (Nat.lt_succ_iff.mp h)
  exact hall _ f (Nat.lt_succ_self _)

end Evaluation

end Model

end LibHSC.Ctl
