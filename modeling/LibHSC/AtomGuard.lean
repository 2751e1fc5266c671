import LibHSC.GuardEvent
import LibHSC.Lia.Negations

/-!
Guards over one position made of comparisons with constants: a comparison, an
enumeration, any connective of them. Such a guard reads its position alone, is moved to
the leaf without a refusal, and has a value at every machine value.
-/

namespace LibHSC

open Lia

/-- Connectives of comparisons of the value at `p` with machine constants. -/
inductive Over (p : Nat) : BExpr → Prop
  | cmp {g : BExpr} {P : Int → Prop} (h : Compares p g P) : Over p g
  | conn {k : ConnOp} {ops : List BExpr} (hne : ops ≠ []) (h : ∀ x ∈ ops, Over p x) :
      Over p (.conn k ops)

/-- The word whose position `p` holds `v`. -/
def Reading.only (p : Nat) (v : Int) : Reading := ⟨fun q => if q = p then some v else none,
  fun _ _ => none⟩

section Over

variable {R : ExprIds} {p : Nat}

theorem Lia.ConnOp.step_ofBool (k : ConnOp) (a b : Bool) :
    ∃ c : Bool, k.step (Truth.ofBool a) (Truth.ofBool b) = Truth.ofBool c := by
  cases k <;> cases a <;> cases b <;> first | exact ⟨true, rfl⟩ | exact ⟨false, rfl⟩

theorem Lia.ConnOp.neutral_ofBool (k : ConnOp) : ∃ c : Bool, k.decisive.not = Truth.ofBool c := by
  cases k
  · exact ⟨true, rfl⟩
  · exact ⟨false, rfl⟩

theorem flattenConn_ne_nil {k : ConnOp} {xs : List BExpr} (hne : xs ≠ [])
    (h : ∀ x ∈ xs, Over p x) : flattenConn k xs ≠ [] := by
  cases xs with
  | nil => exact absurd rfl hne
  | cons x xs =>
    cases h x List.mem_cons_self with
    | cmp hx =>
      obtain ⟨k', c, -, ⟨rfl, -⟩ | ⟨rfl, -⟩⟩ := hx <;>
        cases k <;> simp [flattenConn, ConnOp.neutral]
    | conn hops _ =>
      rw [flattenConn]
      split
      · simp [hops]
      · simp

namespace Over

theorem ne_immediate {g : BExpr} (h : Over p g) : g ≠ .bfalse ∧ g ≠ .btrue ∧ g ≠ .bundef := by
  cases h with
  | cmp h => exact h.ne_immediate
  | conn _ _ => simp

theorem packBools {k : ConnOp} {xs : List BExpr} (hne : xs ≠ []) (h : ∀ x ∈ xs, Over p x) :
    Over p (packBools k xs) := by
  match xs with
  | [] => exact absurd rfl hne
  | [x] => exact h x List.mem_cons_self
  | x :: y :: xs => exact .conn hne h

/-- The constructor splices, sorts and drops repeats. -/
theorem mk {k : ConnOp} {xs : List BExpr} (hne : xs ≠ []) (h : ∀ x ∈ xs, Over p x) :
    Over p (Lia.conn R k xs) := by
  have habs : k.absorbing ∉ xs := by
    intro hmem
    obtain ⟨h1, h2, -⟩ := (h _ hmem).ne_immediate
    cases k
    · exact h1 rfl
    · exact h2 rfl
  have hmem : ∀ x, x ∈ sortBools R (flattenConn k xs).dedup ↔ x ∈ flattenConn k xs := by
    intro x
    rw [(sortBools_perm R _).mem_iff, List.mem_dedup]
  unfold Lia.conn
  rw [if_neg habs]
  refine packBools ?_ fun x hx => ?_
  · obtain ⟨y, hy⟩ := List.exists_mem_of_ne_nil _ (flattenConn_ne_nil hne h)
    exact List.ne_nil_of_mem ((hmem y).mpr hy)
  · rcases mem_flattenConn ((hmem x).mp hx) with hx | ⟨ops, hops, hx⟩
    · exact h x hx
    · cases h _ hops with
      | cmp hc => obtain ⟨_, _, -, ⟨hc, -⟩ | ⟨hc, -⟩⟩ := hc <;> cases hc
      | conn _ hall => exact hall x hx

theorem collects {g : BExpr} (h : Over p g) :
    (∀ q, q ∈ collectBool g ↔ q = p) ∧ collectArraysBool g = [] := by
  induction h with
  | cmp h =>
    obtain ⟨k, c, -, ⟨rfl, -⟩ | ⟨rfl, -⟩⟩ := h <;>
      simp [collectBool, collect, collectArraysBool, collectArrays]
  | @conn k ops hne h ih =>
    constructor
    · intro q
      rw [collectBool, mem_collectBoolList]
      constructor
      · rintro ⟨x, hx, hq⟩
        exact ((ih x hx).1 q).mp hq
      · intro hq
        obtain ⟨x, hx⟩ := List.exists_mem_of_ne_nil _ hne
        exact ⟨x, hx, ((ih x hx).1 q).mpr hq⟩
    · rw [collectArraysBool]
      refine List.eq_nil_iff_forall_not_mem.mpr fun q hq => ?_
      obtain ⟨x, hx, hq⟩ := mem_collectArraysBoolList.mp hq
      simp [(ih x hx).2] at hq

theorem support {g : BExpr} (h : Over p g) : supportBool g = [p] ∧ arrayPositionsBool g = [] := by
  obtain ⟨hmem, harr⟩ := h.collects
  constructor
  · have hnodup := (collectBool g).nodup_dedup
    have hone : (collectBool g).dedup = [p] := by
      refine List.perm_singleton.mp ((List.perm_ext_iff_of_nodup hnodup (by simp)).mpr fun q => ?_)
      rw [List.mem_dedup, hmem, List.mem_singleton]
    simp [supportBool, sortPositions, hone]
  · simp [arrayPositionsBool, sortPositions, harr]

theorem within {g : BExpr} (h : Over p g) : g.Within (p ≤ ·) (p ≤ ·) := by
  obtain ⟨hmem, harr⟩ := h.collects
  refine ⟨fun q hq => ?_, fun q hq => ?_⟩
  · exact ((hmem q).mp hq).ge
  · rw [harr] at hq
    cases hq

/-- The value at the position decides. -/
theorem decided {g : BExpr} (h : Over p g) (v : Int) :
    ∃ b : Bool, exactBool (Reading.only p v) g = Truth.ofBool b := by
  induction h with
  | cmp h =>
    obtain ⟨k, c, -, ⟨rfl, -⟩ | ⟨rfl, -⟩⟩ := h
    · exact ⟨cmpEval k v c, by simp [exactBool, exactInt, Reading.only, cmpExact]⟩
    · exact ⟨cmpEval k c v, by simp [exactBool, exactInt, Reading.only, cmpExact]⟩
  | @conn k ops _ _ ih =>
    have hrun : ∀ (ops : List BExpr), (∀ x ∈ ops, ∃ b : Bool,
        exactBool (Reading.only p v) x = Truth.ofBool b) → ∃ b : Bool,
        exactConn (Reading.only p v) k ops = Truth.ofBool b := by
      intro ops
      induction ops with
      | nil => exact fun _ => k.neutral_ofBool
      | cons x xs ihx =>
        intro hall
        obtain ⟨⟨b, hb⟩, hxs⟩ := List.forall_mem_cons.mp hall
        obtain ⟨c, hc⟩ := ihx hxs
        rw [exactConn, hb, hc]
        exact k.step_ofBool b c
    exact hrun ops ih

/-- At the leaf itself the evaluator returns. -/
theorem eval {g : BExpr} (h : Over 0 g) (v : Int) :
    ∃ b : Bool, evalBool [v] g = .ok (Truth.ofBool b) := by
  induction h with
  | cmp h =>
    obtain ⟨b, hb, -⟩ := h.eval v
    exact ⟨b, hb⟩
  | @conn k ops _ _ ih =>
    have hrun : ∀ (ops : List BExpr), (∀ x ∈ ops, ∃ b : Bool, evalBool [v] x =
        .ok (Truth.ofBool b)) → ∀ a : Bool, ∃ b : Bool, evalConn [v] k (Truth.ofBool a) ops =
        .ok (Truth.ofBool b) := by
      intro ops
      induction ops with
      | nil => exact fun _ a => ⟨a, rfl⟩
      | cons x xs ih =>
        intro hall a
        obtain ⟨⟨b, hb⟩, hxs⟩ := List.forall_mem_cons.mp hall
        obtain ⟨c, hc⟩ := k.step_ofBool a b
        obtain ⟨r, hr⟩ := ih hxs c
        exact ⟨r, bind_of_ok hb (hc ▸ hr)⟩
    obtain ⟨a, ha⟩ := k.neutral_ofBool
    obtain ⟨b, hb⟩ := hrun ops ih a
    exact ⟨b, by rw [evalBool, ha, hb]⟩

/-- The move to `p - n` is not refused. -/
theorem rebuild {g : BExpr} (h : Over p g) {n : Nat} (hn : n ≤ p) :
    ∃ g', rebuildBool R (shifting (-n)) (shiftPos (-n)) g = .ok g' ∧ Over (p - n) g' := by
  have hp : shiftPos (-n) p = p - n := by
    have := shiftPos_add hn
    omega
  induction h with
  | cmp h =>
    obtain ⟨k, c, hc, ⟨rfl, -⟩ | ⟨rfl, -⟩⟩ := h
    · refine ⟨compare R k (.var (p - n)) (.const c), ?_, .cmp (compares_left R k (p - n) hc)⟩
      simp [rebuildBool, Lia.rebuild, shifting, hp]
      rfl
    · refine ⟨compare R k (.const c) (.var (p - n)), ?_, .cmp (compares_right R k (p - n) hc)⟩
      simp [rebuildBool, Lia.rebuild, shifting, hp]
      rfl
  | @conn k ops hne _ ih =>
    obtain ⟨gs, hgs, hall, hlen⟩ : ∃ gs, rebuildBoolList R (shifting (-n)) (shiftPos (-n)) ops =
        .ok gs ∧ (∀ x ∈ gs, Over (p - n) x) ∧ gs.length = ops.length := by
      clear hne
      induction ops with
      | nil => exact ⟨[], rfl, by simp, rfl⟩
      | cons x xs ihx =>
        obtain ⟨⟨y, hy, hoy⟩, hxs⟩ := List.forall_mem_cons.mp ih
        obtain ⟨ys, hys, hall, hlen⟩ := ihx (by simp_all) hxs
        exact ⟨y :: ys, bind_of_ok hy (bind_of_ok hys rfl),
          List.forall_mem_cons.mpr ⟨hoy, hall⟩, by simp [hlen]⟩
    have hgsne : gs ≠ [] := by
      rw [← List.length_pos_iff, hlen]
      exact List.length_pos_iff.mpr hne
    exact ⟨_, bind_of_ok hgs rfl, mk hgsne hall⟩

theorem shift {g : BExpr} (h : Over p g) {n : Nat} (hn : n ≤ p) :
    ∃ g', shiftPositionsBool R g (-n) = .ok g' ∧ Over (p - n) g' := by
  unfold shiftPositionsBool
  split
  · next h0 =>
    obtain rfl : n = 0 := by omega
    exact ⟨g, rfl, h⟩
  · exact h.rebuild hn

theorem drop_only (p : Nat) (v : Int) : (Reading.only p v).drop p = .ofEnv [v] := by
  unfold Reading.only Reading.drop Reading.ofEnv
  congr 1
  funext q
  cases q <;> simp

/-- At the leaf the guard is what it was at its position. -/
theorem shift_exact {g g' : BExpr} (h : Over p g) (hg' : shiftPositionsBool R g (-p) = .ok g')
    (v : Int) : IntTerm.Satisfies g' v ↔ exactBool (Reading.only p v) g = .yes := by
  have hcells := sameCells_drop (ρ := Reading.only p v) (fun _ _ => rfl) p
  rw [drop_only] at hcells
  have hbelow := (shiftPositionsBool_agrees hcells h.within hg').below
  obtain ⟨g'', hshift, hover⟩ := h.shift (R := R) le_rfl
  obtain rfl : g'' = g' := Except.ok.inj (hshift.symm.trans hg')
  obtain ⟨b, hb⟩ := h.decided v
  rw [IntTerm.Satisfies, hbelow (by cases b <;> simp [hb, Truth.ofBool])]

/-- The term that keeps the words whose value at `p` satisfies a guard. -/
theorem product {m : Manager} {s : Shape} {g : BExpr} (h : Over 0 g) :
    Tests m s (LibHSC.product s ((List.replicate s.width IntTerm.id).set p (IntTerm.keepIf g)))
      fun w => p < s.width → IntTerm.Satisfies g (valueAt s w p) := by
  refine (Tests.product s _ (fun k v => k = p → p < s.width → IntTerm.Satisfies g v)
    fun k => ?_).congr
    fun w => ?_
  · by_cases hk : k = p ∧ p < s.width
    · obtain ⟨rfl, hw⟩ := hk
      have hget : ((List.replicate s.width IntTerm.id).set k (IntTerm.keepIf g)).getD k IntTerm.id =
          IntTerm.keepIf g := by
        simp [List.getD_eq_getElem?_getD, hw]
      rw [hget]
      refine (Tests.leaf fun v _ => ?_).congr fun v => by simp [hw]
      obtain ⟨b, hb⟩ := h.eval v
      exact ⟨_, hb⟩
    · have hget : ((List.replicate s.width IntTerm.id).set p (IntTerm.keepIf g)).getD k IntTerm.id =
          IntTerm.id := by
        rw [List.getD_eq_getElem?_getD, List.getElem?_set]
        by_cases hkp : p = k
        · subst hkp
          simp only [true_and] at hk
          simp [hk]
        · rw [if_neg hkp, List.getElem?_replicate]
          split <;> rfl
      rw [hget]
      refine (Tests.id .leaf).congr fun v => ?_
      simp only [true_iff]
      exact fun h1 h2 => absurd ⟨h1, h2⟩ hk
  · constructor
    · exact fun hall hp => hall p hp rfl hp
    · rintro hsat k hk rfl hp
      exact hsat hp

end Over

/-- A comparison, read where its operands have values. -/
theorem compare_decided {R : ExprIds} {ρ : Reading} {k : CmpOp} {a b : IExpr} {x y : Int}
    (ha : exactInt ρ a = some x) (hb : exactInt ρ b = some y) :
    exactBool ρ (compare R k a b) = Truth.ofBool (cmpEval k x y) := by
  rcases compare_exact R ρ k a b with h | ⟨h, -⟩
  · rw [h, ha, hb]
    rfl
  · rw [ha] at h
    cases h

theorem compare_only (R : ExprIds) (k : CmpOp) (p : Nat) (v c : Int) :
    exactBool (Reading.only p v) (compare R k (.var p) (.const c)) = Truth.ofBool (cmpEval k v c) :=
  compare_decided (by simp [exactInt, Reading.only]) rfl

/-- The enumeration of constants at a position. -/
def members (R : ExprIds) (p : Nat) (cs : List Int) : List BExpr :=
  cs.map fun c => compare R .eq (.var p) (.const c)

theorem members_exact (R : ExprIds) (p : Nat) (v : Int) (cs : List Int) :
    exactBool (Reading.only p v) (conn R .disj (members R p cs)) = .yes ↔ v ∈ cs := by
  rw [conn_exact]
  have hrun : exactConn (Reading.only p v) .disj
      (members R p cs) = Truth.ofBool (decide (v ∈ cs)) := by
    induction cs with
    | nil => rfl
    | cons c cs ih =>
      show ConnOp.step _ (exactBool _ (compare R .eq (.var p) (.const c)))
        (exactConn _ _ (members R p cs)) = _
      rw [ih, compare_only]
      by_cases hc : v = c
      · subst hc
        by_cases hmem : v ∈ cs <;>
          simp [cmpEval, hmem, Truth.ofBool, ConnOp.step, ConnOp.decisive]
      · by_cases hmem : v ∈ cs <;>
          simp [cmpEval, hc, hmem, Truth.ofBool, ConnOp.step, ConnOp.decisive]
  rw [hrun]
  by_cases hmem : v ∈ cs <;> simp [hmem, Truth.ofBool]

theorem members_over (R : ExprIds) (p : Nat) {cs : List Int} (hne : cs ≠ [])
    (hcs : ∀ c ∈ cs, InInt32 c) : Over p (conn R .disj (members R p cs)) := by
  refine Over.mk (by simpa [members] using hne) fun x hx => ?_
  obtain ⟨c, hc, rfl⟩ := List.mem_map.mp hx
  exact .cmp (compares_left R .eq p (hcs c hc))

/-- The filter of a guard on the leaf's own coordinate. -/
theorem Over.where {N : Numbering} {s : Shape} {d : Code s} {g : BExpr} (h : Over 0 g)
    {pos : Nat} (hp : pos < s.width) (hd : Canon N s d) : Keeps (den s) (Canon N s)
      (fun w => exactBool (Reading.only 0 (valueAt s w pos)) g = .yes) d
      (selectWhere N s d pos g) := by
  have honly : ∀ v, Reading.only 0 v = .ofEnv [v] := fun v => Over.drop_only 0 v
  simp only [honly]
  refine selectWhere_keeps hp (fun v _ => ?_) hd
  obtain ⟨b, hb⟩ := h.eval v
  exact ⟨_, hb⟩

/-- `select_where` for a comparison with a constant. -/
theorem selectWhere_compare {N : Numbering} {s : Shape} {d : Code s} {pos : Nat} (R : ExprIds)
    (k : CmpOp) {c : Int} (hc : InInt32 c) (hp : pos < s.width) (hd : Canon N s d) :
    Keeps (den s) (Canon N s) (fun w => cmpEval k (valueAt s w pos) c = true) d
      (selectWhere N s d pos (compare R k (.var 0) (.const c))) := by
  refine ((Over.cmp (compares_left R k 0 hc)).where hp hd).congr fun w _ => ?_
  rw [compare_only]
  cases cmpEval k (valueAt s w pos) c <;> simp [Truth.ofBool]

/-- `select_where` for an enumeration, the empty one included. -/
theorem selectWhere_members {N : Numbering} {s : Shape} {d : Code s} {pos : Nat} (R : ExprIds)
    {cs : List Int} (hcs : ∀ c ∈ cs, InInt32 c) (hp : pos < s.width) (hd : Canon N s d) :
    Keeps (den s) (Canon N s) (fun w => valueAt s w pos ∈ cs) d
      (selectWhere N s d pos (conn R .disj (members R 0 cs))) := by
  by_cases hne : cs = []
  · subst hne
    refine (selectWhere_keeps hp (fun v _ => ⟨.no, rfl⟩) hd).congr fun w _ => ?_
    simp [members, Lia.conn, flattenConn, sortBools, Lia.packBools, ConnOp.neutral,
      ConnOp.absorbing, exactBool]
  · refine ((members_over R 0 hne hcs).where hp hd).congr fun w _ => ?_
    exact members_exact R 0 _ cs

end Over

end LibHSC
