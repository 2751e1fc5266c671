import LibHSC.Event
import LibHSC.Lia.Machine

/-!
What the constructors of local terms are for. Each is a guard then an action: an absent
guard lets everything through, and an empty set stands for an absent one. The constructors
fold what they can to a cheaper form; a fold never changes the values that come out, it
only spares an error of the guard.
-/

namespace LibHSC

open Lia

namespace IntTerm

/-- The term acts as the guard `P`, then the action `A`, on every set of values. -/
def ActsAs (t : IntTerm) (P : Int → Prop) (A : Int → Int → Prop) : Prop :=
  ∀ (fuel : Nat) (c r : IntSet), IntSet.Canon c → apply fuel t c = .ok r →
    IntSet.Canon r ∧ ∀ u, u ∈ r ↔ ∃ v ∈ c, P v ∧ A v u

/-- The extensional guard of a constructor: the empty set is for no guard. -/
def Among (set : IntSet) (v : Int) : Prop := set = [] ∨ v ∈ set

/-- The symbolic guard of a constructor. -/
def Satisfies (g : BExpr) (v : Int) : Prop := exactBool (.ofEnv [v]) g = .yes

/-- The two applications agree, unless the second raises an error. -/
def AgreeUnless (x y : Except Err IntSet) : Prop := x = y ∨ ∃ e, y = .error e

theorem actsAs_of_rel {t : IntTerm} {P : Int → Prop} {A : Int → Int → Prop} (hw : t.WF)
    (hrel : ∀ v u, t.rel v u ↔ P v ∧ A v u) : ActsAs t P A := by
  intro fuel c r hc h
  obtain ⟨hr, hden⟩ := apply_spec hw hc h
  refine ⟨hr, fun u => ?_⟩
  have hu := Set.ext_iff.mp hden u
  simp only [IntSet.den, post, Set.mem_ofPred_eq, hrel] at hu
  exact hu

/-! ## Symbolic guards -/

theorem satisfies_btrue (v : Int) : Satisfies .btrue v := rfl

theorem boolGuard_wf (g : BExpr) : (boolGuard g).WF := by
  unfold boolGuard
  split <;> trivial

theorem boolGuard_holds {g : BExpr} {v : Int} : (boolGuard g).Holds v ↔ Satisfies g v := by
  unfold boolGuard
  split
  · next h =>
    subst h
    exact iff_of_true trivial (satisfies_btrue v)
  · exact Iff.rfl

theorem keepIf_rel {g : BExpr} {v u : Int} : (keepIf g).rel v u ↔ Satisfies g v ∧ v = u := by
  unfold keepIf
  split
  · next h =>
    subst h
    simp [rel, satisfies_btrue]
  · exact Iff.rfl

theorem assignIf_rel {g : BExpr} {value v u : Int} :
    (assignIf g value).rel v u ↔ Satisfies g v ∧ u = value := by
  unfold assignIf
  split
  · next h =>
    subst h
    exact and_congr_left fun _ => iff_of_true trivial (satisfies_btrue v)
  · exact Iff.rfl

theorem shiftIf_rel {g : BExpr} {delta v u : Int} :
    (shiftIf g delta).rel v u ↔ Satisfies g v ∧ u = v + delta := by
  unfold shiftIf
  split
  · next h0 =>
    subst h0
    rw [keepIf_rel, Int.add_zero, eq_comm]
  · next h0 =>
    split
    · next h =>
      subst h
      rw [shift, if_neg h0]
      exact and_congr_left fun _ => iff_of_true trivial (satisfies_btrue v)
    · exact Iff.rfl

theorem havocIf_rel {g : BExpr} {lo hi v u : Int} :
    (havocIf g lo hi).rel v u ↔ Satisfies g v ∧ lo ≤ u ∧ u < hi := by
  unfold havocIf
  split
  · next h =>
    rw [keepIf_rel]
    refine iff_of_false ?_ (by omega)
    rintro ⟨h, -⟩
    cases h
  · exact and_congr_left fun _ => boolGuard_holds

/-! ## Extensional guards -/

theorem setGuard_wf {set : IntSet} (hs : IntSet.Canon set) : (setGuard set).WF := by
  unfold setGuard
  split
  · trivial
  · exact hs

theorem setGuard_holds {set : IntSet} {v : Int} : (setGuard set).Holds v ↔ Among set v := by
  unfold setGuard Among
  split
  · next h => simp [h, IntGuard.Holds]
  · next h => simp [h, IntGuard.Holds]

theorem keep_acts {set : IntSet} (hs : IntSet.Canon set) (hne : set ≠ []) :
    ActsAs (keep set) (· ∈ set) (fun v u => v = u) := by
  rw [keep, if_neg hne]
  exact actsAs_of_rel ⟨hs, trivial⟩ fun v u => Iff.rfl

/-- The empty guard comes out as the identity: everything is kept. -/
theorem keep_empty : ¬ ActsAs (keep []) (· ∈ ([] : IntSet)) (fun v u => v = u) := by
  intro h
  have happly : apply 0 (keep []) [0] = .ok [0] := rfl
  have hcanon : IntSet.Canon [0] := by decide
  obtain ⟨-, hmem⟩ := h 0 [0] [0] hcanon happly
  obtain ⟨v, -, hv, -⟩ := (hmem 0).mp (List.mem_singleton_self 0)
  cases hv

theorem assign_acts {set : IntSet} {value : Int} (hs : IntSet.Canon set) (hv : InInt32 value) :
    ActsAs (assign set value) (Among set) (fun _ u => u = value) :=
  actsAs_of_rel ⟨setGuard_wf hs, hv⟩ fun _ _ => and_congr_left fun _ => setGuard_holds

theorem choose_acts {guard set : IntSet} (hg : IntSet.Canon guard) (hs : IntSet.Canon set) :
    ActsAs (choose guard set) (Among guard) (fun _ u => u ∈ set) := by
  unfold choose
  split
  · next h =>
    subst h
    refine actsAs_of_rel (keepIf_wf .bfalse) fun v u => ?_
    rw [keepIf_rel]
    refine iff_of_false ?_ ?_
    · rintro ⟨h, -⟩
      cases h
    · rintro ⟨-, h⟩
      cases h
  · exact actsAs_of_rel ⟨setGuard_wf hg, hs⟩ fun _ _ => and_congr_left fun _ => setGuard_holds

theorem shift_acts {set : IntSet} {delta : Int} (hs : IntSet.Canon set) (hd : InInt32 delta) :
    ActsAs (shift set delta) (Among set) (fun v u => u = v + delta) := by
  unfold shift
  split
  · next h0 =>
    subst h0
    split
    · next he =>
      refine actsAs_of_rel trivial fun v u => ?_
      simp [he, Among, rel, eq_comm]
    · next hne =>
      rw [keep, if_neg hne]
      refine actsAs_of_rel ⟨hs, trivial⟩ fun v u => ?_
      simp [hne, Among, rel, IntGuard.Holds, IntAction.rel, eq_comm]
  · exact actsAs_of_rel ⟨setGuard_wf hs, hd⟩ fun _ _ => and_congr_left fun _ => setGuard_holds

/-! ### Errors -/

/-- The term always returns. -/
def Total (t : IntTerm) : Prop := ∀ (fuel : Nat) (c : IntSet), ∃ r, apply fuel t c = .ok r

theorem passing_setGuard (set c : IntSet) : ∃ kept, passing (setGuard set) c = .ok kept := by
  unfold setGuard
  split
  · exact ⟨_, rfl⟩
  · exact ⟨_, rfl⟩

theorem total_prim {G : IntGuard} {a : IntAction} (hG : ∀ c, ∃ kept, passing G c = .ok kept)
    (ha : ∀ kept, ∃ r, act a kept = .ok r) : Total (.prim G a) := by
  intro fuel c
  rw [apply]
  split
  · exact ⟨_, rfl⟩
  · obtain ⟨kept, hk⟩ := hG c
    rw [hk]
    show ∃ r, (if kept = [] then _ else _) = _
    split
    · exact ⟨_, rfl⟩
    · exact ha kept

theorem keep_total (set : IntSet) : Total (keep set) := by
  unfold keep
  split
  · exact fun _ c => ⟨c, rfl⟩
  · exact total_prim (fun c => ⟨_, rfl⟩) fun kept => ⟨_, rfl⟩

theorem assign_total (set : IntSet) (value : Int) : Total (assign set value) :=
  total_prim (passing_setGuard set) fun _ => ⟨_, rfl⟩

theorem choose_total (guard set : IntSet) : Total (choose guard set) := by
  unfold choose
  split
  · rw [keepIf, if_neg (by simp)]
    have hzero : ∀ c, passing (.symbolic .bfalse) c = .ok [] := fun c => if_pos (.inr rfl)
    exact total_prim (fun c => ⟨[], hzero c⟩) fun kept => ⟨kept, rfl⟩
  · exact total_prim (passing_setGuard guard) fun _ => ⟨_, rfl⟩

theorem shiftAll_error {delta : Int} {e : Err} : ∀ {vs : List Int},
    shiftAll delta vs = .error e → e = .overflow := by
  intro vs
  induction vs with
  | nil =>
    intro h
    cases h
  | cons v vs ih =>
    intro h
    rw [shiftAll] at h
    split at h
    · rcases bind_eq_error.mp h with h | ⟨r, -, h⟩
      · exact ih h
      · cases h
    · cases h
      rfl

theorem shift_error {set : IntSet} {delta : Int} {fuel : Nat} {c : IntSet} {e : Err}
    (h : apply fuel (shift set delta) c = .error e) : e = .overflow := by
  unfold shift at h
  split at h
  · split at h
    · cases h
    · obtain ⟨r, hr⟩ := keep_total set fuel c
      rw [hr] at h
      cases h
  · rw [apply] at h
    split at h
    · cases h
    · obtain ⟨kept, hk⟩ := passing_setGuard set c
      rw [hk] at h
      change (if kept = [] then Except.ok [] else shiftAll delta kept) = _ at h
      split at h
      · cases h
      · exact shiftAll_error h

/-! ## Folding a transform -/

/-- The transform as it stands, with no fold. -/
def transform (g : BExpr) (rhs : IExpr) (modulo : Int) : IntTerm :=
  .prim (boolGuard g) (.xform rhs modulo)

theorem assignIf_eq (g : BExpr) (value : Int) :
    assignIf g value = .prim (boolGuard g) (.assign value) := by
  unfold assignIf boolGuard
  split <;> rfl

theorem shiftIf_eq (g : BExpr) {delta : Int} (h : delta ≠ 0) :
    shiftIf g delta = .prim (boolGuard g) (.shift delta) := by
  unfold shiftIf boolGuard
  rw [if_neg h]
  split
  · rw [shift, if_neg h]
    rfl
  · rfl

/-- Every shape that a fold takes. -/
theorem applyIf_cases (g : BExpr) (rhs : IExpr) (modulo : Int) :
    (∃ v, rhs = .const v ∧
      applyIf g rhs modulo = assignIf g (if modulo ≠ 0 then wrapModulo v modulo else v)) ∨
    (rhs = .undef ∧ applyIf g rhs modulo = keepIf .bfalse) ∨
    (modulo = 0 ∧ rhs = .var 0 ∧ applyIf g rhs modulo = keepIf g) ∨
    (modulo = 0 ∧ ∃ k, isConst (.const k) = true ∧
      (rhs = .nary .plus [.var 0, .const k] ∨ rhs = .nary .plus [.const k, .var 0]) ∧
      applyIf g rhs modulo = shiftIf g k) ∨
    applyIf g rhs modulo = transform g rhs modulo := by
  unfold applyIf
  split
  · next v => exact .inl ⟨v, rfl, rfl⟩
  · exact .inr (.inl ⟨rfl, rfl⟩)
  · dsimp only
    split
    · exact .inr (.inr (.inr (.inr rfl)))
    · next hm =>
      have hm : modulo = 0 := not_not.mp hm
      split
      · exact .inr (.inr (.inl ⟨hm, rfl, rfl⟩))
      · next k _ _ =>
        split
        · next hk => exact .inr (.inr (.inr (.inl ⟨hm, k, hk, .inl rfl, rfl⟩)))
        · exact .inr (.inr (.inr (.inr rfl)))
      · next k _ _ =>
        split
        · next hk => exact .inr (.inr (.inr (.inl ⟨hm, k, hk, .inr rfl, rfl⟩)))
        · exact .inr (.inr (.inr (.inr rfl)))
      · exact .inr (.inr (.inr (.inr rfl)))

/-- Whatever it folds to, the guard holds and the right-hand side has the value. -/
theorem applyIf_rel {g : BExpr} {rhs : IExpr} {modulo v u : Int} :
    (applyIf g rhs modulo).rel v u ↔ Satisfies g v ∧ xformExact rhs modulo v = some u := by
  rcases applyIf_cases g rhs modulo with ⟨c, rfl, h⟩ | ⟨rfl, h⟩ | ⟨rfl, rfl, h⟩ |
    ⟨rfl, k, hk, hshape, h⟩ | h
  · rw [h]
    refine assignIf_rel.trans (and_congr_right fun _ => ?_)
    simp [xformExact, exactInt, eq_comm]
  · rw [h]
    refine keepIf_rel.trans (iff_of_false ?_ ?_)
    · rintro ⟨h, -⟩
      cases h
    · rintro ⟨-, h⟩
      cases h
  · rw [h]
    refine keepIf_rel.trans (and_congr_right fun _ => ?_)
    simp [xformExact, exactInt, Reading.ofEnv]
  · rw [h]
    refine shiftIf_rel.trans (and_congr_right fun _ => ?_)
    rcases hshape with rfl | rfl
    · simp [xformExact, exactInt, exactNary, NaryOp.exact, NaryOp.eval, NaryOp.neutral,
        Reading.ofEnv, eq_comm]
    · simp [xformExact, exactInt, exactNary, NaryOp.exact, NaryOp.eval, NaryOp.neutral,
        Reading.ofEnv, eq_comm, Int.add_comm]
  · rw [h]
    exact and_congr_left fun _ => boolGuard_holds

theorem applyIf_acts {g : BExpr} {rhs : IExpr} {modulo : Int} (hr : rhs.Machine)
    (hm : InInt32 modulo) :
    ActsAs (applyIf g rhs modulo) (Satisfies g) (fun v u => xformExact rhs modulo v = some u) := by
  refine actsAs_of_rel ?_ fun v u => applyIf_rel
  rcases applyIf_cases g rhs modulo with ⟨c, rfl, h⟩ | ⟨rfl, h⟩ | ⟨rfl, rfl, h⟩ |
    ⟨rfl, k, hk, hshape, h⟩ | h
  · rw [h]
    refine assignIf_wf ?_
    split
    · next h0 => exact wrapModulo_inInt32 hm h0
    · exact hr
  · exact h ▸ keepIf_wf _
  · exact h ▸ keepIf_wf _
  · exact h ▸ shiftIf_wf (isConst_inInt32 hk)
  · exact h ▸ ⟨boolGuard_wf g, hm⟩

/-! ### The folds agree with the transform -/

/-- A transform that has a value everywhere, in the machine. -/
theorem xformAll_map {rhs : IExpr} {modulo : Int} {f : Int → Int} :
    ∀ {vs : List Int}, (∀ v ∈ vs, xformValue rhs modulo v = .ok (some (f v))) →
    xformAll rhs modulo vs = .ok (vs.map f) := by
  intro vs
  induction vs with
  | nil => exact fun _ => rfl
  | cons v vs ih =>
    intro h
    obtain ⟨hv, hvs⟩ := List.forall_mem_cons.mp h
    rw [xformAll, hv]
    show (do return f v :: (← xformAll rhs modulo vs)) = _
    rw [ih hvs]
    rfl

/-- A sorted list is its own code. -/
theorem of_sorted {vs : List Int} (h : vs.Pairwise (· < ·)) : IntSet.of vs = vs := by
  have hnd : vs.Nodup := h.imp fun h => ne_of_lt h
  rw [IntSet.of, hnd.dedup, (h.imp fun h => Int.le_of_lt h).insertionSort_eq]

/-- Equal actions make equal terms. -/
theorem apply_prim_congr {G : IntGuard} {a a' : IntAction} (hG : G.WF)
    (h : ∀ kept, IntSet.Canon kept → kept ≠ [] → act a kept = act a' kept) (fuel : Nat)
    {c : IntSet} (hc : IntSet.Canon c) : apply fuel (.prim G a) c = apply fuel (.prim G a') c := by
  rw [apply, apply]
  split
  · rfl
  · cases hk : passing G c with
    | error e => rfl
    | ok kept =>
      show (if kept = [] then _ else _) = (if kept = [] then _ else _)
      split
      · rfl
      · next hne => exact h kept (passing_spec hG hc hk).1 hne

theorem act_xform_const {c modulo : Int} (hc : InInt32 c) (hm : InInt32 modulo) {kept : IntSet}
    (hne : kept ≠ []) :
    act (.assign (if modulo ≠ 0 then wrapModulo c modulo else c)) kept =
      act (.xform (.const c) modulo) kept := by
  have hw : InInt32 (if modulo ≠ 0 then wrapModulo c modulo else c) := by
    split
    · next h0 => exact wrapModulo_inInt32 hm h0
    · exact hc
  generalize hval : (if modulo ≠ 0 then wrapModulo c modulo else c) = w at hw ⊢
  have hall : ∀ v ∈ kept, xformValue (.const c) modulo v = .ok (some w) := by
    intro v _
    rw [← hval]
    show (if modulo ≠ 0 then Except.ok (some (wrapModulo c modulo))
      else if InInt32 c then .ok (some c) else .error Err.overflow) = _
    split
    · rfl
    · rfl
  obtain ⟨v, hv⟩ := List.exists_mem_of_ne_nil _ hne
  have hcanon : IntSet.Canon (IntSet.of (kept.map fun _ => w)) := by
    refine IntSet.canon_of fun u hu => ?_
    obtain ⟨_, -, rfl⟩ := List.mem_map.mp hu
    exact hw
  rw [act, act, xformAll_map (f := fun _ => w) hall]
  refine congrArg Except.ok (IntSet.ext_of_sorted (List.pairwise_singleton _ _) hcanon.1
    fun u => ?_)
  rw [IntSet.mem_of, List.mem_map, IntSet.singleton, List.mem_singleton]
  constructor
  · intro h
    exact ⟨v, hv, h.symm⟩
  · rintro ⟨_, -, h⟩
    exact h.symm

theorem act_xform_self {kept : IntSet} (hk : IntSet.Canon kept) :
    act .keep kept = act (.xform (.var 0) 0) kept := by
  have hval : ∀ v ∈ kept, xformValue (.var 0) 0 v = .ok (some v) := by
    intro v hv
    exact if_pos (hk.2 v hv)
  rw [act, act, xformAll_map hval, List.map_id']
  exact congrArg Except.ok (of_sorted hk.1).symm

theorem act_xform_shift {k : Int} {rhs : IExpr} {kept : IntSet} (hk : IntSet.Canon kept)
    (hrhs : ∀ v, InInt32 v → xformValue rhs 0 v =
      if InInt32 (v + k) then .ok (some (v + k)) else .error .overflow) :
    act (.shift k) kept = act (.xform rhs 0) kept := by
  have hall : ∀ {vs : List Int}, (∀ v ∈ vs, InInt32 v) → xformAll rhs 0 vs = shiftAll k vs := by
    intro vs
    induction vs with
    | nil => exact fun _ => rfl
    | cons v vs ih =>
      intro h
      obtain ⟨hv, hvs⟩ := List.forall_mem_cons.mp h
      rw [xformAll, shiftAll, hrhs v hv, ih hvs]
      split
      · rfl
      · rfl
  rw [act, act, hall hk.2]
  cases hs : shiftAll k kept with
  | error e => rfl
  | ok r =>
    obtain ⟨rfl, -⟩ := shiftAll_spec hs
    have hsorted : (kept.map (· + k)).Pairwise (· < ·) :=
      List.pairwise_map.mpr (hk.1.imp fun h => by omega)
    exact congrArg Except.ok (of_sorted hsorted).symm

theorem xformValue_plus {k v : Int} (hk : InInt32 k) (hv : InInt32 v) {ops : List IExpr}
    (hops : ops = [.var 0, .const k] ∨ ops = [.const k, .var 0]) :
    xformValue (.nary .plus ops) 0 v =
      if InInt32 (v + k) then .ok (some (v + k)) else .error .overflow := by
  have hfit : ∀ {a b : Int}, InInt32 a → InInt32 b → checked64 (a + b) = .ok (a + b) := by
    intro a b ha hb
    refine checked64_of_fits (fitsInt64_iff.mpr ?_)
    unfold InInt32 at ha hb
    omega
  have h0 : InInt32 0 := by decide
  have heval : evalInt [v] (.nary .plus ops) = .ok (some (v + k)) := by
    rcases hops with rfl | rfl
    · show (do evalNary [v] .plus (← checked64 (0 + v)) [.const k]) = _
      rw [hfit h0 hv, Int.zero_add]
      show (do evalNary [v] .plus (← checked64 (v + k)) []) = _
      rw [hfit hv hk]
      rfl
    · show (do evalNary [v] .plus (← checked64 (0 + k)) [.var 0]) = _
      rw [hfit h0 hk, Int.zero_add]
      show (do evalNary [v] .plus (← checked64 (k + v)) []) = _
      rw [hfit hk hv, Int.add_comm]
      rfl
  rw [xformValue, heval]
  rfl

theorem shiftAll_zero : ∀ {vs : List Int}, (∀ v ∈ vs, InInt32 v) → shiftAll 0 vs = .ok vs := by
  intro vs
  induction vs with
  | nil => exact fun _ => rfl
  | cons v vs ih =>
    intro h
    obtain ⟨hv, hvs⟩ := List.forall_mem_cons.mp h
    rw [shiftAll, Int.add_zero, if_pos hv, ih hvs]
    rfl

/-- The identity stands for the guard that keeps everything. -/
theorem apply_keepIf (g : BExpr) (fuel : Nat) {c : IntSet} :
    apply fuel (keepIf g) c = apply fuel (.prim (boolGuard g) .keep) c := by
  unfold keepIf boolGuard
  split
  · rw [apply, apply]
    split
    · next h => rw [h]
    · next h =>
      show _ = if c = [] then _ else _
      rw [if_neg h]
      rfl
  · rfl

theorem shiftIf_agree (g : BExpr) {k : Int} {rhs : IExpr} (fuel : Nat) {c : IntSet}
    (hc : IntSet.Canon c) (hrhs : ∀ v, InInt32 v → xformValue rhs 0 v =
      if InInt32 (v + k) then .ok (some (v + k)) else .error .overflow) :
    apply fuel (shiftIf g k) c = apply fuel (transform g rhs 0) c := by
  by_cases h0 : k = 0
  · subst h0
    rw [shiftIf, if_pos rfl, apply_keepIf]
    refine apply_prim_congr (boolGuard_wf g) (fun kept hk hne => ?_) fuel hc
    rw [← act_xform_shift hk hrhs, act, act, shiftAll_zero hk.2]
  · rw [shiftIf_eq g h0]
    exact apply_prim_congr (boolGuard_wf g) (fun kept hk _ => act_xform_shift hk hrhs) fuel hc

/-- A fold of `applyIf` does what the transform does, unless the transform raises an error. -/
theorem applyIf_agree {g : BExpr} {rhs : IExpr} {modulo : Int} (hr : rhs.Machine)
    (hm : InInt32 modulo) (fuel : Nat) {c : IntSet} (hc : IntSet.Canon c) :
    AgreeUnless (apply fuel (applyIf g rhs modulo) c) (apply fuel (transform g rhs modulo) c) := by
  rcases applyIf_cases g rhs modulo with ⟨w, rfl, h⟩ | ⟨rfl, h⟩ | ⟨rfl, rfl, h⟩ |
    ⟨rfl, k, hk, hshape, h⟩ | h
  · rw [h, assignIf_eq]
    exact .inl (apply_prim_congr (boolGuard_wf g)
      (fun kept _ hne => act_xform_const hr hm hne) fuel hc)
  · -- nothing is kept, and the guard is not read
    rw [h, keepIf, if_neg (by simp), transform]
    by_cases hn : c = []
    · subst hn
      exact .inl ((apply_nil _).trans (apply_nil _).symm)
    · rw [apply, apply, if_neg hn, if_neg hn]
      have hzero : passing (.symbolic .bfalse) c = .ok [] := if_pos (.inr rfl)
      rw [hzero]
      cases hp : passing (boolGuard g) c with
      | error e => exact .inr ⟨e, rfl⟩
      | ok kept =>
        refine .inl ?_
        have hundef : ∀ vs : List Int, xformAll .undef modulo vs = .ok [] := by
          intro vs
          induction vs with
          | nil => rfl
          | cons v vs ih => exact ih
        have hact : act (.xform .undef modulo) kept = .ok [] := by
          rw [act, hundef]
          rfl
        show Except.ok [] = if kept = [] then Except.ok [] else act (.xform .undef modulo) kept
        rw [hact, ite_self]
  · rw [h, apply_keepIf]
    exact .inl (apply_prim_congr (boolGuard_wf g) (fun kept hk _ => act_xform_self hk) fuel hc)
  · rw [h]
    refine .inl ?_
    rcases hshape with rfl | rfl
    · exact shiftIf_agree g fuel hc fun v hv => xformValue_plus (isConst_inInt32 hk) hv (.inl rfl)
    · exact shiftIf_agree g fuel hc fun v hv => xformValue_plus (isConst_inInt32 hk) hv (.inr rfl)
  · exact .inl (by rw [h])

/-! ## Folding a closure -/

/-- A closure that returns holds its argument, and the term returned at every round. -/
theorem apply_lfp_ok {t : IntTerm} {fuel : Nat} {c r : IntSet} (hn : c ≠ [])
    (h : apply fuel (.lfp t) c = .ok r) : ∃ y, apply fuel t c = .ok y := by
  rw [apply, if_neg hn] at h
  cases fuel with
  | zero => cases h
  | succ fuel =>
    obtain ⟨x, hx, -⟩ := bind_eq_ok.mp h
    obtain ⟨y, hy, -⟩ := bind_eq_ok.mp hx
    exact ⟨y, hy⟩

/-- A fold of `termLfp` does what the closure does, unless the closure raises an error. -/
theorem termLfp_agree {t : IntTerm} (ht : t.WF) (fuel : Nat) {c : IntSet} (hc : IntSet.Canon c) :
    AgreeUnless (apply fuel (termLfp t) c) (apply fuel (.lfp t) c) := by
  cases hl : apply fuel (.lfp t) c with
  | error e => exact .inr ⟨e, rfl⟩
  | ok r =>
    refine .inl ?_
    obtain ⟨hrc, hrd⟩ := apply_spec (show (IntTerm.lfp t).WF from ht) hc hl
    have hsame : ∀ {r'}, apply fuel (termLfp t) c = .ok r' → r' = r := by
      intro r' h'
      obtain ⟨hrc', hrd'⟩ := apply_spec (termLfp_wf ht) hc h'
      rw [termLfp_rel] at hrd'
      exact IntSet.ext_of_sorted hrc'.1 hrc.1 fun v => Set.ext_iff.mp (hrd'.trans hrd.symm) v
    have hret : ∃ r', apply fuel (termLfp t) c = .ok r' := by
      by_cases hn : c = []
      · exact ⟨[], by rw [hn, apply_nil]⟩
      · cases t with
        | id => exact ⟨c, rfl⟩
        | lfp a => exact apply_lfp_ok hn hl
        | sum a b => exact ⟨r, hl⟩
        | prim g a =>
          cases a with
          | keep => exact ⟨c, rfl⟩
          | _ => exact ⟨r, hl⟩
    obtain ⟨r', hr'⟩ := hret
    rw [hr', hsame hr']

/-! ## The constructors -/

/-- The constructors denote what they are named for, and their folds change nothing but an
error spared. The one exception is the set guard of nothing. -/
theorem constructors_denote (set : IntSet) (g : BExpr) (t : IntTerm) :
    (IntSet.Canon set →
      (ActsAs (keep set) (· ∈ set) (fun v u => v = u) ↔ set ≠ []) ∧ Total (keep set) ∧
      (∀ value, InInt32 value →
        ActsAs (assign set value) (Among set) (fun _ u => u = value) ∧ Total (assign set value)) ∧
      (∀ delta, InInt32 delta → ActsAs (shift set delta) (Among set) (fun v u => u = v + delta) ∧
        ∀ fuel c e, apply fuel (shift set delta) c = .error e → e = .overflow) ∧
      ∀ guard, IntSet.Canon guard →
        ActsAs (choose guard set) (Among guard) (fun _ u => u ∈ set) ∧ Total (choose guard set)) ∧
    (ActsAs (keepIf g) (Satisfies g) (fun v u => v = u) ∧
      (∀ value, InInt32 value → ActsAs (assignIf g value) (Satisfies g) fun _ u => u = value) ∧
      (∀ delta, InInt32 delta → ActsAs (shiftIf g delta) (Satisfies g) fun v u => u = v + delta) ∧
      (∀ lo hi, InInt32 lo → InInt32 hi → hi - lo ≤ 2147483647 →
        ActsAs (havocIf g lo hi) (Satisfies g) fun _ u => lo ≤ u ∧ u < hi) ∧
      ∀ (rhs : IExpr) (modulo : Int), rhs.Machine → InInt32 modulo →
        ActsAs (applyIf g rhs modulo) (Satisfies g) (fun v u => xformExact rhs modulo v = some u) ∧
        ∀ fuel c, IntSet.Canon c → AgreeUnless (apply fuel (applyIf g rhs modulo) c)
          (apply fuel (transform g rhs modulo) c)) ∧
    (t.WF → ∀ fuel c, IntSet.Canon c →
      AgreeUnless (apply fuel (termLfp t) c) (apply fuel (.lfp t) c)) := by
  refine ⟨fun hs => ⟨⟨?_, keep_acts hs⟩, keep_total set,
    fun value hv => ⟨assign_acts hs hv, assign_total set value⟩,
    fun delta hd => ⟨shift_acts hs hd, fun _ _ _ => shift_error⟩,
    fun guard hg => ⟨choose_acts hg hs, choose_total guard set⟩⟩, ⟨?_, fun value hv => ?_,
    fun delta hd => ?_, fun lo hi hlo hhi _ => ?_, fun rhs modulo hr hm => ⟨applyIf_acts hr hm,
      fun fuel c hc => ?_⟩⟩,
    fun ht fuel c hc => ?_⟩
  · rintro h rfl
    exact keep_empty h
  · exact actsAs_of_rel (keepIf_wf g) fun _ _ => keepIf_rel
  · exact actsAs_of_rel (assignIf_wf hv) fun _ _ => assignIf_rel
  · exact actsAs_of_rel (shiftIf_wf hd) fun _ _ => shiftIf_rel
  · refine actsAs_of_rel ?_ fun _ _ => havocIf_rel
    unfold havocIf
    split
    · exact keepIf_wf _
    · exact ⟨boolGuard_wf g, hlo, hhi⟩
  · exact applyIf_agree hr hm fuel hc
  · exact termLfp_agree ht fuel hc

/-- Some constructors on small arguments. -/
theorem constructors_denote_small :
    ActsAs (keep [3]) (· ∈ [3]) (fun v u => v = u) ∧
    ActsAs (shift [1, 2] 5) (Among [1, 2]) (fun v u => u = v + 5) ∧
    AgreeUnless (apply 9 (applyIf .btrue (.nary .plus [.var 0, .const 1]) 0) [4])
      (apply 9 (transform .btrue (.nary .plus [.var 0, .const 1]) 0) [4]) :=
  ⟨(((constructors_denote [3] .btrue .id).1 (by decide)).1).mpr (by decide),
    (((constructors_denote [1, 2] .btrue .id).1 (by decide)).2.2.2.1 5 (by decide)).1,
    ((constructors_denote [] .btrue .id).2.1.2.2.2.2 (.nary .plus [.var 0, .const 1]) 0
      ⟨trivial, show InInt32 1 by decide, trivial⟩ (by decide)).2 9 [4] (by decide)⟩

end IntTerm

end LibHSC
