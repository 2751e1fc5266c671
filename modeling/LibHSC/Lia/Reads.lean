import LibHSC.Lia.Normal

/-!
What the normalizing constructors read: no scalar and no cell beyond those of
their operands. Folding, flattening, sorting and the reflexive comparison only
ever drop a read.
-/

namespace LibHSC.Lia

variable {P Q : Nat → Prop}

/-- The scalars read satisfy `P`, the cells named satisfy `Q`. -/
structure IExpr.Within (P Q : Nat → Prop) (e : IExpr) : Prop where
  scalars : ∀ p ∈ collect e, P p
  cells : ∀ p ∈ collectArrays e, Q p

structure BExpr.Within (P Q : Nat → Prop) (b : BExpr) : Prop where
  scalars : ∀ p ∈ collectBool b, P p
  cells : ∀ p ∈ collectArraysBool b, Q p

theorem mem_collectList {xs : List IExpr} {p : Nat} :
    p ∈ collectList xs ↔ ∃ x ∈ xs, p ∈ collect x := by
  induction xs with
  | nil => simp [collectList]
  | cons x xs ih => simp [collectList, ih]

theorem mem_collectArraysList {xs : List IExpr} {p : Nat} :
    p ∈ collectArraysList xs ↔ ∃ x ∈ xs, p ∈ collectArrays x := by
  induction xs with
  | nil => simp [collectArraysList]
  | cons x xs ih => simp [collectArraysList, ih]

theorem mem_collectBoolList {xs : List BExpr} {p : Nat} :
    p ∈ collectBoolList xs ↔ ∃ x ∈ xs, p ∈ collectBool x := by
  induction xs with
  | nil => simp [collectBoolList]
  | cons x xs ih => simp [collectBoolList, ih]

theorem mem_collectArraysBoolList {xs : List BExpr} {p : Nat} :
    p ∈ collectArraysBoolList xs ↔ ∃ x ∈ xs, p ∈ collectArraysBool x := by
  induction xs with
  | nil => simp [collectArraysBoolList]
  | cons x xs ih => simp [collectArraysBoolList, ih]

theorem mem_support {e : IExpr} {p : Nat} : p ∈ support e ↔ p ∈ collect e := by
  simp [support, sortPositions]

theorem mem_supportBool {b : BExpr} {p : Nat} : p ∈ supportBool b ↔ p ∈ collectBool b := by
  simp [supportBool, sortPositions]

/-! ## One lemma for each node -/

namespace IExpr

@[simp] theorem within_undef : (undef).Within P Q := ⟨by simp [collect], by simp [collectArrays]⟩

@[simp] theorem within_const (v : Int) : (const v).Within P Q :=
  ⟨by simp [collect], by simp [collectArrays]⟩

@[simp] theorem within_var {p : Nat} : (var p).Within P Q ↔ P p :=
  ⟨fun h => h.scalars p (by simp [collect]),
    fun h => ⟨by simpa [collect] using h, by simp [collectArrays]⟩⟩

theorem within_nary {k : NaryOp} {xs : List IExpr} :
    (nary k xs).Within P Q ↔ ∀ x ∈ xs, x.Within P Q := by
  constructor
  · intro h x hx
    exact ⟨fun p hp => h.scalars p (mem_collectList.mpr ⟨x, hx, hp⟩),
      fun p hp => h.cells p (mem_collectArraysList.mpr ⟨x, hx, hp⟩)⟩
  · intro h
    refine ⟨fun p hp => ?_, fun p hp => ?_⟩
    · obtain ⟨x, hx, hp⟩ := mem_collectList.mp hp
      exact (h x hx).scalars p hp
    · obtain ⟨x, hx, hp⟩ := mem_collectArraysList.mp hp
      exact (h x hx).cells p hp

theorem Within.binary {k : BinOp} {a b : IExpr} (ha : a.Within P Q) (hb : b.Within P Q) :
    (IExpr.binary k a b).Within P Q := by
  refine ⟨fun p hp => ?_, fun p hp => ?_⟩
  · exact (List.mem_append.mp hp).elim (ha.scalars p) (hb.scalars p)
  · exact (List.mem_append.mp hp).elim (ha.cells p) (hb.cells p)

theorem Within.of_binary {k : BinOp} {a b : IExpr} (h : (IExpr.binary k a b).Within P Q) :
    a.Within P Q ∧ b.Within P Q :=
  ⟨⟨fun p hp => h.scalars p (List.mem_append_left _ hp),
      fun p hp => h.cells p (List.mem_append_left _ hp)⟩,
    fun p hp => h.scalars p (List.mem_append_right _ hp),
    fun p hp => h.cells p (List.mem_append_right _ hp)⟩

theorem Within.bitComp {a : IExpr} (ha : a.Within P Q) : (IExpr.bitComp a).Within P Q :=
  ⟨ha.scalars, ha.cells⟩

end IExpr

namespace BExpr

theorem Within.wrapBool {b : BExpr} (hb : b.Within P Q) : (IExpr.wrapBool b).Within P Q :=
  ⟨hb.scalars, hb.cells⟩

@[simp] theorem within_bfalse : (bfalse).Within P Q :=
  ⟨by simp [collectBool], by simp [collectArraysBool]⟩

@[simp] theorem within_btrue : (btrue).Within P Q :=
  ⟨by simp [collectBool], by simp [collectArraysBool]⟩

@[simp] theorem within_bundef : (bundef).Within P Q :=
  ⟨by simp [collectBool], by simp [collectArraysBool]⟩

theorem within_cmp {k : CmpOp} {l r : IExpr} :
    (cmp k l r).Within P Q ↔ l.Within P Q ∧ r.Within P Q := by
  constructor
  · intro h
    exact ⟨⟨fun p hp => h.scalars p (List.mem_append_left _ hp),
        fun p hp => h.cells p (List.mem_append_left _ hp)⟩,
      ⟨fun p hp => h.scalars p (List.mem_append_right _ hp),
        fun p hp => h.cells p (List.mem_append_right _ hp)⟩⟩
  · rintro ⟨hl, hr⟩
    refine ⟨fun p hp => ?_, fun p hp => ?_⟩
    · exact (List.mem_append.mp hp).elim (hl.scalars p) (hr.scalars p)
    · exact (List.mem_append.mp hp).elim (hl.cells p) (hr.cells p)

theorem within_conn {k : ConnOp} {xs : List BExpr} :
    (conn k xs).Within P Q ↔ ∀ x ∈ xs, x.Within P Q := by
  constructor
  · intro h x hx
    exact ⟨fun p hp => h.scalars p (mem_collectBoolList.mpr ⟨x, hx, hp⟩),
      fun p hp => h.cells p (mem_collectArraysBoolList.mpr ⟨x, hx, hp⟩)⟩
  · intro h
    refine ⟨fun p hp => ?_, fun p hp => ?_⟩
    · obtain ⟨x, hx, hp⟩ := mem_collectBoolList.mp hp
      exact (h x hx).scalars p hp
    · obtain ⟨x, hx, hp⟩ := mem_collectArraysBoolList.mp hp
      exact (h x hx).cells p hp

theorem within_neg {a : BExpr} : (neg a).Within P Q ↔ a.Within P Q :=
  ⟨fun h => ⟨h.scalars, h.cells⟩, fun h => ⟨h.scalars, h.cells⟩⟩

end BExpr

/-! ## The constructors -/

theorem gatherOps_within {k : NaryOp} {xs flat : List IExpr} {acc : Int} {r : Int × List IExpr}
    (hxs : ∀ x ∈ xs, x.Within P Q) (hflat : ∀ x ∈ flat, x.Within P Q)
    (h : gatherOps k xs acc flat = .ok (some r)) : ∀ x ∈ r.2, x.Within P Q := by
  intro x hx
  rcases gatherOps_mem h x hx with hx | ⟨hx, -⟩ | ⟨ops, hops, hx, -⟩
  · exact hflat x hx
  · exact hxs x hx
  · exact IExpr.within_nary.mp (hxs _ hops) x hx

variable {R : ExprIds}

theorem packOps_within {k : NaryOp} {flat : List IExpr} (h : ∀ x ∈ flat, x.Within P Q) :
    (packOps R k flat).Within P Q := by
  unfold packOps
  split
  · next x => exact h x (List.mem_singleton.mpr rfl)
  · refine IExpr.within_nary.mpr fun x hx => h x ?_
    rwa [sortOps, (List.perm_insertionSort _ _).mem_iff] at hx

theorem nary_within {k : NaryOp} {xs : List IExpr} {e : IExpr} (hxs : ∀ x ∈ xs, x.Within P Q)
    (h : nary R k xs = .ok e) : e.Within P Q := by
  obtain ⟨r, hr, h⟩ := bind_eq_ok.mp h
  cases r with
  | none =>
    cases h
    exact IExpr.within_undef
  | some r =>
    obtain ⟨acc, flat⟩ := r
    dsimp only at h
    split at h
    · cases h
      exact IExpr.within_const 0
    · obtain ⟨c, -, h⟩ := bind_eq_ok.mp h
      cases h
      have hflat := gatherOps_within hxs (by simp) hr
      refine packOps_within fun x hx => ?_
      unfold withConst at hx
      split at hx
      · rcases List.mem_append.mp hx with hx | hx
        · exact hflat x hx
        · exact List.mem_singleton.mp hx ▸ IExpr.within_const c
      · exact hflat x hx

theorem add_within {a b e : IExpr} (ha : a.Within P Q) (hb : b.Within P Q)
    (h : add R a b = .ok e) : e.Within P Q :=
  nary_within (List.forall_mem_cons.mpr ⟨ha, List.forall_mem_singleton.mpr hb⟩) h

theorem binary_within {k : BinOp} {a b e : IExpr} (ha : a.Within P Q) (hb : b.Within P Q)
    (h : binary k a b = .ok e) : e.Within P Q := by
  unfold binary at h
  split at h
  · cases h
    exact IExpr.within_undef
  · cases h
    exact IExpr.within_undef
  · obtain ⟨r, -, h⟩ := bind_eq_ok.mp h
    cases r with
    | none =>
      cases h
      exact IExpr.within_undef
    | some v =>
      obtain ⟨c, -, h⟩ := bind_eq_ok.mp h
      cases h
      exact IExpr.within_const c
  · cases h
    exact ha.binary hb

theorem bitComp_within {a : IExpr} (ha : a.Within P Q) : (bitComp a).Within P Q := by
  unfold bitComp
  split
  · exact IExpr.within_undef
  · exact IExpr.within_const _
  · exact ha.bitComp

theorem wrap_within {b : BExpr} (hb : b.Within P Q) : (wrap b).Within P Q := by
  unfold wrap
  split
  · exact IExpr.within_const 1
  · exact IExpr.within_const 0
  · exact IExpr.within_undef
  · exact hb.wrapBool

theorem ofBool_within (b : Bool) : (ofBool b).Within P Q := by
  cases b with
  | true => exact BExpr.within_btrue
  | false => exact BExpr.within_bfalse

theorem compare_within {k : CmpOp} {l r : IExpr} (hl : l.Within P Q) (hr : r.Within P Q) :
    (compare R k l r).Within P Q := by
  unfold compare
  split
  · exact BExpr.within_bundef
  · exact BExpr.within_bundef
  · exact ofBool_within _
  · split
    · exact ofBool_within _
    · split
      · exact BExpr.within_cmp.mpr ⟨hr, hl⟩
      · exact BExpr.within_cmp.mpr ⟨hl, hr⟩

theorem flattenConn_within {k : ConnOp} {xs : List BExpr} (h : ∀ x ∈ xs, x.Within P Q) :
    ∀ x ∈ flattenConn k xs, x.Within P Q := by
  induction xs with
  | nil => simp [flattenConn]
  | cons x xs ih =>
    obtain ⟨hx, hxs⟩ := List.forall_mem_cons.mp h
    unfold flattenConn
    split
    · simp
    · next heq =>
      cases heq
      split
      · intro y hy
        rcases List.mem_append.mp hy with hy | hy
        · exact BExpr.within_conn.mp hx y hy
        · exact ih hxs y hy
      · exact List.forall_mem_cons.mpr ⟨hx, ih hxs⟩
    · next heq =>
      cases heq
      split
      · exact ih hxs
      · exact List.forall_mem_cons.mpr ⟨hx, ih hxs⟩

theorem conn_within {k : ConnOp} {xs : List BExpr} (h : ∀ x ∈ xs, x.Within P Q) :
    (conn R k xs).Within P Q := by
  have hflat : ∀ x ∈ sortBools R (flattenConn k xs).dedup, x.Within P Q := by
    intro x hx
    rw [sortBools, (List.perm_insertionSort _ _).mem_iff, List.mem_dedup] at hx
    exact flattenConn_within h x hx
  unfold conn
  split
  · cases k with
    | conj => exact BExpr.within_bfalse
    | disj => exact BExpr.within_btrue
  · unfold packBools
    split
    · cases k with
      | conj => exact BExpr.within_btrue
      | disj => exact BExpr.within_bfalse
    · next x hx => exact hflat x (by rw [hx]; exact List.mem_singleton.mpr rfl)
    · exact BExpr.within_conn.mpr hflat

theorem neg_within {b : BExpr} (hb : b.Within P Q) : (neg R b).Within P Q := by
  cases b with
  | bfalse => exact BExpr.within_btrue
  | btrue => exact BExpr.within_bfalse
  | bundef => exact BExpr.within_bundef
  | cmp k l r =>
    obtain ⟨hl, hr⟩ := BExpr.within_cmp.mp hb
    exact compare_within hl hr
  | conn k ops => exact BExpr.within_neg.mpr hb
  | neg a => exact BExpr.within_neg.mp hb

end LibHSC.Lia
