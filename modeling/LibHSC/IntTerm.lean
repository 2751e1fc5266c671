import LibHSC.Term
import LibHSC.Lia.Exact

/-!
The local terms of the integer-set theory: a guard then an action, sums and
closures. The model is of a run without a stop request and with the divergence
limit off, its initial value.
-/

namespace LibHSC

open Lia

/-- What a primitive term's guard is. -/
inductive IntGuard where
  | none
  | set (s : IntSet)
  | symbolic (g : BExpr)
  deriving DecidableEq

/-- What a term does to a value after its guard. -/
inductive IntAction where
  | keep
  | assign (value : Int)
  | shift (delta : Int)
  | xform (rhs : IExpr) (modulo : Int)
  | havoc (lo hi : Int)
  | choose (s : IntSet)
  deriving DecidableEq

/-- A local term; `id` is the term code that is never interned. -/
inductive IntTerm where
  | id
  | prim (guard : IntGuard) (action : IntAction)
  | sum (a b : IntTerm)
  | lfp (a : IntTerm)
  deriving DecidableEq

namespace IntSet

/-- The code for values that need be neither sorted nor unique. -/
def of (values : List Int) : IntSet := values.dedup.insertionSort (· ≤ ·)

def singleton (v : Int) : IntSet := [v]

/-- The half-open interval `[lo, hi)`. -/
def interval (lo hi : Int) : IntSet :=
  if hi ≤ lo then [] else (List.range (hi - lo).toNat).map fun k : Nat => lo + (k : Int)

def filterLoop (g : BExpr) : List Int → Except Err (List Int)
  | [] => .ok []
  | v :: vs => do
      if (← evalBool [v] g) = .yes then return v :: (← filterLoop g vs)
      else filterLoop g vs

/-- The elements on which `g` evaluates to true; undefined excludes. -/
def filter (s : IntSet) (g : BExpr) : Except Err IntSet :=
  if s = [] ∨ g = .bfalse then .ok []
  else if g = .btrue then .ok s
  else filterLoop g s

end IntSet

namespace IntTerm

/-! ## The constructors of the theory -/

/-- An empty guard comes out as the term code 0, which is `id`. -/
def keep (set : IntSet) : IntTerm := if set = [] then .id else .prim (.set set) .keep

def setGuard (set : IntSet) : IntGuard := if set = [] then .none else .set set

def assign (set : IntSet) (value : Int) : IntTerm := .prim (setGuard set) (.assign value)

def shift (set : IntSet) (delta : Int) : IntTerm :=
  if delta = 0 then (if set = [] then .id else keep set)
  else .prim (setGuard set) (.shift delta)

def keepIf (g : BExpr) : IntTerm := if g = .btrue then .id else .prim (.symbolic g) .keep

def assignIf (g : BExpr) (value : Int) : IntTerm :=
  if g = .btrue then assign [] value else .prim (.symbolic g) (.assign value)

def shiftIf (g : BExpr) (delta : Int) : IntTerm :=
  if delta = 0 then keepIf g
  else if g = .btrue then shift [] delta
  else .prim (.symbolic g) (.shift delta)

def boolGuard (g : BExpr) : IntGuard := if g = .btrue then .none else .symbolic g

/-- The wrap of a value into `[0, modulo)`. -/
def wrapModulo (r modulo : Int) : Int := (r.tmod modulo + modulo).tmod modulo

/-- `x := rhs(x)` guarded by `g`, folded to a cheaper form when the expression
is one of them. -/
def applyIf (g : BExpr) (rhs : IExpr) (modulo : Int) : IntTerm :=
  match rhs with
  | .const v => assignIf g (if modulo ≠ 0 then wrapModulo v modulo else v)
  | .undef => keepIf .bfalse
  | rhs =>
    let general := .prim (boolGuard g) (.xform rhs modulo)
    if modulo ≠ 0 then general
    else match rhs with
      | .var 0 => keepIf g
      | .nary .plus [.var 0, .const k] =>
        if isConst (.const k) then shiftIf g k else general
      | .nary .plus [.const k, .var 0] =>
        if isConst (.const k) then shiftIf g k else general
      | _ => general

def havocIf (g : BExpr) (lo hi : Int) : IntTerm :=
  if hi ≤ lo then keepIf .bfalse else .prim (boolGuard g) (.havoc lo hi)

def choose (guard set : IntSet) : IntTerm :=
  if set = [] then keepIf .bfalse else .prim (setGuard guard) (.choose set)

/-- Sum is commutative: the operands stand in the order of their ids. -/
def termSum (tid : IntTerm → Nat) (a b : IntTerm) : IntTerm :=
  if a = b then a else if tid b < tid a then .sum b a else .sum a b

/-- A pure guard only removes values, so its accumulation adds nothing. -/
def termLfp : IntTerm → IntTerm
  | .id => .id
  | .lfp a => .lfp a
  | .prim _ .keep => .id
  | t => .lfp t

/-! ## Application -/

/-- The values of a set that pass a guard. -/
def passing : IntGuard → IntSet → Except Err IntSet
  | .none, value => .ok value
  | .set s, value => .ok (IntSet.meet value s)
  | .symbolic g, value => IntSet.filter value g

/-- The shift of every value: leaving the machine range is loud. -/
def shiftAll (delta : Int) : List Int → Except Err (List Int)
  | [] => .ok []
  | v :: vs =>
    if InInt32 (v + delta) then do return (v + delta) :: (← shiftAll delta vs)
    else .error .overflow

/-- The transform of one value; `none` drops it. -/
def xformValue (rhs : IExpr) (modulo v : Int) : Except Err (Option Int) := do
  match ← evalInt [v] rhs with
  | none => return none
  | some r =>
    if modulo ≠ 0 then .ok (some (wrapModulo r modulo))
    else if InInt32 r then .ok (some r)
    else .error .overflow

/-- The transforms of the values of a set, the dropped ones left out. -/
def xformAll (rhs : IExpr) (modulo : Int) : List Int → Except Err (List Int)
  | [] => .ok []
  | v :: vs => do
      match ← xformValue rhs modulo v with
      | none => xformAll rhs modulo vs
      | some r => return r :: (← xformAll rhs modulo vs)

def act : IntAction → IntSet → Except Err IntSet
  | .keep, kept => .ok kept
  | .assign value, _ => .ok (IntSet.singleton value)
  | .shift delta, kept => shiftAll delta kept
  | .xform rhs modulo, kept => do return IntSet.of (← xformAll rhs modulo kept)
  | .havoc lo hi, _ => .ok (IntSet.interval lo hi)
  | .choose s, _ => .ok s

/-- `apply_local` of the theory; `fuel` bounds the rounds of a closure. -/
def apply (fuel : Nat) : IntTerm → IntSet → Except Err IntSet
  | .id, value => .ok value
  | .sum a b, value =>
    if value = [] then .ok []
    else do return IntSet.join (← apply fuel a value) (← apply fuel b value)
  | .lfp a, value =>
    if value = [] then .ok []
    else untilStable .fuel (fun x => do return IntSet.join x (← apply fuel a x)) fuel value
  | .prim guard action, value =>
    if value = [] then .ok []
    else do
      let kept ← passing guard value
      if kept = [] then return [] else act action kept

def injective : IntTerm → Bool
  | .id => true
  | .prim _ .keep => true
  | .prim _ (.shift _) => true
  | _ => false

/-- The theory reading its own terms. -/
def algebra (fuel : Nat) : TermAlgebra IntSet IntTerm where
  isId t := t = .id
  injective := injective
  apply := apply fuel

end IntTerm

/-! ## The relation of a term -/

/-- The transform of a value in unbounded arithmetic. -/
def xformExact (rhs : IExpr) (modulo v : Int) : Option Int :=
  (exactInt (.ofEnv [v]) rhs).map fun r =>
    if modulo ≠ 0 then IntTerm.wrapModulo r modulo else r

/-- The values a guard lets through. -/
def IntGuard.Holds : IntGuard → Int → Prop
  | .none, _ => True
  | .set s, v => v ∈ s
  | .symbolic g, v => exactBool (.ofEnv [v]) g = .yes

def IntAction.rel : IntAction → Int → Int → Prop
  | .keep, v, u => v = u
  | .assign value, _, u => u = value
  | .shift delta, v, u => u = v + delta
  | .xform rhs modulo, v, u => xformExact rhs modulo v = some u
  | .havoc lo hi, _, u => lo ≤ u ∧ u < hi
  | .choose s, _, u => u ∈ s

def IntGuard.WF : IntGuard → Prop
  | .set s => IntSet.Canon s
  | _ => True

/-- The parameters of an action are machine values and canonical sets. -/
def IntAction.WF : IntAction → Prop
  | .assign value => InInt32 value
  | .shift delta => InInt32 delta
  | .xform _ modulo => InInt32 modulo
  | .havoc lo hi => InInt32 lo ∧ InInt32 hi
  | .choose s => IntSet.Canon s
  | .keep => True

namespace IntTerm

def rel : IntTerm → Int → Int → Prop
  | .id => fun v u => v = u
  | .prim g a => fun v u => g.Holds v ∧ a.rel v u
  | .sum a b => fun v u => a.rel v u ∨ b.rel v u
  | .lfp a => Relation.ReflTransGen a.rel

def WF : IntTerm → Prop
  | .id => True
  | .prim g a => g.WF ∧ a.WF
  | .sum a b => a.WF ∧ b.WF
  | .lfp a => a.WF

end IntTerm

/-! ## Set constructors -/

namespace IntSet

@[simp] theorem mem_of {values : List Int} {v : Int} : v ∈ of values ↔ v ∈ values := by
  simp [of]

theorem canon_of {values : List Int} (h : ∀ v ∈ values, InInt32 v) : Canon (of values) := by
  refine ⟨?_, fun v hv => h v (mem_of.mp hv)⟩
  have hle : (of values).Pairwise (· ≤ ·) := List.pairwise_insertionSort _ _
  have hnd : (of values).Nodup :=
    (List.perm_insertionSort _ _).nodup_iff.mpr (List.nodup_dedup values)
  exact (hle.and hnd).imp fun h => lt_of_le_of_ne h.1 h.2

theorem mem_interval {lo hi v : Int} : v ∈ interval lo hi ↔ lo ≤ v ∧ v < hi := by
  unfold interval
  split
  · simp
    omega
  · simp only [List.mem_map, List.mem_range]
    constructor
    · rintro ⟨k, hk, rfl⟩
      omega
    · intro h
      exact ⟨(v - lo).toNat, by omega, by omega⟩

theorem canon_interval {lo hi : Int} (hlo : InInt32 lo) (hhi : InInt32 hi) :
    Canon (interval lo hi) := by
  refine ⟨?_, ?_⟩
  · unfold interval
    split
    · exact List.Pairwise.nil
    · refine List.pairwise_map.mpr (List.pairwise_lt_range.imp ?_)
      omega
  · intro v hv
    have hv' := mem_interval.mp hv
    unfold InInt32 at *
    omega

theorem canon_sublist {s s' : IntSet} (h : s'.Sublist s) (hs : Canon s) : Canon s' :=
  ⟨hs.1.sublist h, fun v hv => hs.2 v (h.subset hv)⟩

theorem filterLoop_spec {g : BExpr} : ∀ {s r : IntSet}, filterLoop g s = .ok r →
    r.Sublist s ∧ ∀ v, v ∈ r ↔ v ∈ s ∧ exactBool (.ofEnv [v]) g = .yes := by
  intro s
  induction s with
  | nil =>
    intro r h
    cases h
    simp
  | cons x xs ih =>
    intro r h
    obtain ⟨t, ht, h⟩ := bind_eq_ok.mp h
    replace ht := evalBool_exact g t ht
    by_cases hy : t = .yes
    · subst hy
      rw [if_pos rfl] at h
      obtain ⟨r', hr', h⟩ := bind_eq_ok.mp h
      cases h
      obtain ⟨hsub, hmem⟩ := ih hr'
      refine ⟨hsub.cons_cons x, ?_⟩
      intro v
      rw [List.mem_cons, List.mem_cons, hmem]
      constructor
      · rintro (rfl | h)
        · exact ⟨Or.inl rfl, ht⟩
        · exact ⟨Or.inr h.1, h.2⟩
      · rintro ⟨rfl | h, h'⟩
        · exact Or.inl rfl
        · exact Or.inr ⟨h, h'⟩
    · rw [if_neg hy] at h
      obtain ⟨hsub, hmem⟩ := ih h
      refine ⟨hsub.cons x, ?_⟩
      intro v
      rw [List.mem_cons, hmem]
      constructor
      · exact fun h => ⟨Or.inr h.1, h.2⟩
      · rintro ⟨rfl | h, h'⟩
        · exact absurd (ht.symm.trans h') hy
        · exact ⟨h, h'⟩

theorem filter_spec {g : BExpr} {s r : IntSet} (h : filter s g = .ok r) :
    r.Sublist s ∧ ∀ v, v ∈ r ↔ v ∈ s ∧ exactBool (.ofEnv [v]) g = .yes := by
  unfold filter at h
  split at h
  · next hc =>
    cases h
    refine ⟨List.nil_sublist s, fun v => ?_⟩
    rcases hc with rfl | rfl <;> simp [exactBool]
  · split at h
    · next hg =>
      cases h
      simp [hg, exactBool]
    · exact filterLoop_spec h

end IntSet

/-! ## Correctness of application -/

namespace IntTerm

theorem passing_spec {g : IntGuard} {value kept : IntSet} (hg : g.WF)
    (hv : IntSet.Canon value) (h : passing g value = .ok kept) :
    IntSet.Canon kept ∧ ∀ v, v ∈ kept ↔ v ∈ value ∧ g.Holds v := by
  cases g with
  | none =>
    cases h
    exact ⟨hv, fun v => by simp [IntGuard.Holds]⟩
  | set s =>
    cases h
    exact ⟨IntSet.canon_meet hv hg, fun v => IntSet.mem_meet hv hg v⟩
  | symbolic g =>
    obtain ⟨hsub, hmem⟩ := IntSet.filter_spec h
    exact ⟨IntSet.canon_sublist hsub hv, hmem⟩

theorem shiftAll_spec {delta : Int} : ∀ {vs r : List Int}, shiftAll delta vs = .ok r →
    r = vs.map (· + delta) ∧ ∀ u ∈ r, InInt32 u := by
  intro vs
  induction vs with
  | nil =>
    intro r h
    cases h
    simp
  | cons v vs ih =>
    intro r h
    rw [shiftAll] at h
    split at h
    · next hin =>
      obtain ⟨r', hr', h⟩ := bind_eq_ok.mp h
      cases h
      obtain ⟨rfl, hall⟩ := ih hr'
      refine ⟨rfl, ?_⟩
      intro u hu
      rcases List.mem_cons.mp hu with rfl | hu
      · exact hin
      · exact hall u hu
    · cases h

theorem wrapModulo_inInt32 {r m : Int} (hm : InInt32 m) (h0 : m ≠ 0) :
    InInt32 (wrapModulo r m) := by
  have h1 : (wrapModulo r m).natAbs < m.natAbs := by
    unfold wrapModulo
    rw [Int.natAbs_tmod]
    exact Nat.mod_lt _ (by omega)
  unfold InInt32 at *
  omega

theorem xformValue_spec {rhs : IExpr} {modulo v : Int} {x : Option Int} (hm : InInt32 modulo)
    (h : xformValue rhs modulo v = .ok x) :
    xformExact rhs modulo v = x ∧ ∀ u ∈ x, InInt32 u := by
  obtain ⟨y, hy, h⟩ := bind_eq_ok.mp h
  unfold xformExact
  rw [evalInt_exact rhs y hy]
  cases y with
  | none =>
    cases h
    exact ⟨rfl, by simp⟩
  | some r =>
    change (if modulo ≠ 0 then _ else _) = _ at h
    split at h
    · next h0 =>
      cases h
      refine ⟨by rw [Option.map_some, if_pos h0], fun u hu => ?_⟩
      cases hu
      exact wrapModulo_inInt32 hm h0
    · next h0 =>
      split at h
      · next hr =>
        cases h
        refine ⟨by rw [Option.map_some, if_neg h0], fun u hu => ?_⟩
        cases hu
        exact hr
      · cases h

theorem xformAll_spec {rhs : IExpr} {modulo : Int} (hm : InInt32 modulo) :
    ∀ {vs r : List Int}, xformAll rhs modulo vs = .ok r →
    (∀ u, u ∈ r ↔ ∃ v ∈ vs, xformExact rhs modulo v = some u) ∧ ∀ u ∈ r, InInt32 u := by
  intro vs
  induction vs with
  | nil =>
    intro r h
    cases h
    simp
  | cons v vs ih =>
    intro r h
    obtain ⟨x, hx, h⟩ := bind_eq_ok.mp h
    obtain ⟨hex, hin⟩ := xformValue_spec hm hx
    cases x with
    | none =>
      obtain ⟨h1, h2⟩ := ih h
      refine ⟨fun u => ?_, h2⟩
      rw [h1 u]
      simp [hex]
    | some y =>
      obtain ⟨r', hr', h⟩ := bind_eq_ok.mp h
      cases h
      obtain ⟨h1, h2⟩ := ih hr'
      refine ⟨fun u => ?_, List.forall_mem_cons.mpr ⟨hin y rfl, h2⟩⟩
      rw [List.mem_cons, h1 u]
      simp [hex, eq_comm]

/-- The image of a non-empty set under an action. -/
theorem act_spec {a : IntAction} {kept r : IntSet} (ha : a.WF) (hk : IntSet.Canon kept)
    (hne : kept ≠ []) (h : act a kept = .ok r) :
    IntSet.Canon r ∧ ∀ u, u ∈ r ↔ ∃ v ∈ kept, a.rel v u := by
  obtain ⟨w, hw⟩ := List.exists_mem_of_ne_nil _ hne
  cases a with
  | keep =>
    cases h
    exact ⟨hk, fun u => by simp [IntAction.rel]⟩
  | assign value =>
    cases h
    refine ⟨⟨by simp [IntSet.singleton], fun v hv => List.mem_singleton.mp hv ▸ ha⟩, fun u => ?_⟩
    simp only [IntSet.singleton, List.mem_singleton, IntAction.rel]
    exact ⟨fun h => ⟨w, hw, h⟩, fun ⟨_, _, h⟩ => h⟩
  | shift delta =>
    obtain ⟨rfl, hin⟩ := shiftAll_spec h
    refine ⟨⟨?_, hin⟩, fun u => ?_⟩
    · exact List.pairwise_map.mpr (hk.1.imp fun h => by omega)
    · simp [IntAction.rel, eq_comm]
  | xform rhs modulo =>
    obtain ⟨r', hr', h⟩ := bind_eq_ok.mp h
    cases h
    obtain ⟨hmem, hin⟩ := xformAll_spec ha hr'
    refine ⟨IntSet.canon_of hin, fun u => ?_⟩
    rw [IntSet.mem_of, hmem]
    rfl
  | havoc lo hi =>
    cases h
    refine ⟨IntSet.canon_interval ha.1 ha.2, fun u => ?_⟩
    rw [IntSet.mem_interval]
    exact ⟨fun h => ⟨w, hw, h⟩, fun ⟨_, _, h⟩ => h⟩
  | choose s =>
    cases h
    exact ⟨ha, fun u => ⟨fun h => ⟨w, hw, h⟩, fun ⟨_, _, h⟩ => h⟩⟩

/-- Applying a local term is taking the image of its relation. By induction on
the term; a closure keeps "between the seed and the closed set" as the
invariant of its rounds. -/
theorem apply_spec {fuel : Nat} : ∀ {t : IntTerm} {c r : IntSet}, t.WF → IntSet.Canon c →
    apply fuel t c = .ok r →
    IntSet.Canon r ∧ IntSet.den r = post t.rel (IntSet.den c) := by
  intro t
  induction t with
  | id =>
    intro c r _ hc h
    cases h
    exact ⟨hc, (post_eq _).symm⟩
  | prim g a =>
    intro c r hw hc h
    rw [apply] at h
    split at h
    · next hn =>
      cases h
      subst hn
      exact ⟨IntSet.canon_nil, by simp [IntSet.den, post]⟩
    · obtain ⟨kept, hk, h⟩ := bind_eq_ok.mp h
      obtain ⟨hkc, hkm⟩ := passing_spec hw.1 hc hk
      split at h
      · next hn =>
        cases h
        subst hn
        refine ⟨IntSet.canon_nil, Set.ext fun u => ?_⟩
        simp only [List.not_mem_nil, false_iff] at hkm
        simp only [IntSet.den, post, rel, Set.mem_ofPred_eq, List.not_mem_nil, false_iff]
        rintro ⟨v, hv, hg, -⟩
        exact hkm v ⟨hv, hg⟩
      · next hn =>
        obtain ⟨hrc, hrm⟩ := act_spec hw.2 hkc hn h
        refine ⟨hrc, Set.ext fun u => ?_⟩
        simp only [IntSet.den, post, rel, Set.mem_ofPred_eq, hrm, hkm, and_assoc]
  | sum a b iha ihb =>
    intro c r hw hc h
    rw [apply] at h
    split at h
    · next hn =>
      cases h
      subst hn
      exact ⟨IntSet.canon_nil, by simp [IntSet.den, post]⟩
    · obtain ⟨x, hx, h⟩ := bind_eq_ok.mp h
      obtain ⟨y, hy, h⟩ := bind_eq_ok.mp h
      cases h
      obtain ⟨hxc, hxd⟩ := iha hw.1 hc hx
      obtain ⟨hyc, hyd⟩ := ihb hw.2 hc hy
      refine ⟨IntSet.canon_join hxc hyc, Set.ext fun u => ?_⟩
      have hxu := Set.ext_iff.mp hxd u
      have hyu := Set.ext_iff.mp hyd u
      simp only [IntSet.den, post, rel, Set.mem_ofPred_eq] at hxu hyu ⊢
      rw [IntSet.mem_join hxc hyc, hxu, hyu]
      constructor
      · rintro (⟨v, hv, h⟩ | ⟨v, hv, h⟩)
        · exact ⟨v, hv, Or.inl h⟩
        · exact ⟨v, hv, Or.inr h⟩
      · rintro ⟨v, hv, h | h⟩
        · exact Or.inl ⟨v, hv, h⟩
        · exact Or.inr ⟨v, hv, h⟩
  | lfp a ih =>
    intro c r hw hc h
    rw [apply] at h
    split at h
    · next hn =>
      cases h
      subst hn
      exact ⟨IntSet.canon_nil, by simp [IntSet.den, post]⟩
    · have step : ∀ x y : IntSet, IntSet.Canon x →
          (do return IntSet.join x (← apply fuel a x) : Except Err IntSet) = .ok y →
          IntSet.Canon y ∧ IntSet.den y = IntSet.den x ∪ post a.rel (IntSet.den x) := by
        intro x y hx hy
        obtain ⟨z, hz, hy⟩ := bind_eq_ok.mp hy
        cases hy
        obtain ⟨hzc, hzd⟩ := ih hw hx hz
        exact ⟨IntSet.canon_join hx hzc,
          by rw [← hzd]; exact Set.ext fun v => IntSet.mem_join hx hzc v⟩
      refine untilStable_closure ?_ ?_ hc h
      · intro x y hx hy
        obtain ⟨hyc, hyd⟩ := step x y hx hy
        refine ⟨hyc, hyd ▸ Set.subset_union_left, hyd ▸ Set.union_subset ?_ ?_⟩
        · exact subset_post_reflTransGen _ _
        · exact post_mono_rel (fun v u hvu => .single hvu) _
      · intro x hx hfix
        exact Set.union_eq_left.mp (step x x hx hfix).2.symm

theorem injective_rel {t : IntTerm} (h : injective t = true) {v v' u : Int}
    (h1 : t.rel v u) (h2 : t.rel v' u) : v = v' := by
  cases t with
  | id => exact h1.trans h2.symm
  | prim g a =>
    cases a with
    | keep => exact h1.2.trans h2.2.symm
    | shift delta =>
      have e1 : u = v + delta := h1.2
      have e2 : u = v' + delta := h2.2
      omega
    | _ => cases h
  | sum a b => cases h
  | lfp a => cases h

/-- Absence is never dispatched on. -/
theorem apply_nil {fuel : Nat} (t : IntTerm) : apply fuel t [] = .ok [] := by
  cases t with
  | id => rfl
  | _ =>
    rw [apply, if_pos rfl]

theorem termSum_wf {tid : IntTerm → Nat} {a b : IntTerm} (ha : a.WF) (hb : b.WF) :
    (termSum tid a b).WF := by
  unfold termSum
  split
  · exact ha
  · split
    · exact ⟨hb, ha⟩
    · exact ⟨ha, hb⟩

theorem termSum_rel (tid : IntTerm → Nat) (a b : IntTerm) (v u : Int) :
    (termSum tid a b).rel v u ↔ a.rel v u ∨ b.rel v u := by
  unfold termSum
  split
  · next h =>
    subst h
    exact or_self_iff.symm
  · split
    · exact or_comm
    · exact Iff.rfl

theorem termLfp_wf {a : IntTerm} (ha : a.WF) : (termLfp a).WF := by
  cases a with
  | prim g act =>
    cases act with
    | keep => trivial
    | _ => exact ha
  | id => trivial
  | sum _ _ => exact ha
  | lfp _ => exact ha

theorem termLfp_rel (a : IntTerm) : (termLfp a).rel = Relation.ReflTransGen a.rel := by
  cases a with
  | id => exact (reflTransGen_of_le_eq fun _ _ h => h).symm
  | prim g act =>
    cases act with
    | keep =>
      -- a pure guard never moves a value
      exact (reflTransGen_of_le_eq fun _ _ h => h.2).symm
    | _ => rfl
  | sum _ _ => rfl
  | lfp a =>
    exact reflTransGen_congr (fun _ _ h => .single (.single h)) fun _ _ h => h

theorem laws (fuel : Nat) :
    TermLaws (algebra fuel) IntSet.den IntSet.Canon WF (fun _ => True) rel where
  canon_apply := fun hw hc h => (apply_spec hw hc h).1
  den_apply := fun hw _ hc h => (apply_spec hw hc h).2
  isId_rel := by
    intro t ht
    have : t = .id := of_decide_eq_true ht
    subst this
    exact ⟨trivial, rfl⟩
  injective_rel := fun ht => ⟨trivial, fun _ _ _ h1 h2 => injective_rel ht h1 h2⟩

end IntTerm

end LibHSC
