import LibHSC.Lia.Subst

/-!
The boolean constructors and the negation normal form keep the strong Kleene value. A
boolean expression is what the constructors make: a comparison of one expression with
itself is folded, a negation stands over a connective only. So a negation flips the
comparisons it meets without moving their sides.
-/

namespace LibHSC.Lia

def ConnOp.dual : ConnOp → ConnOp
  | .conj => .disj
  | .disj => .conj

section Push

variable (R : ExprIds)

mutual

/-- `push_negations`: De Morgan down to the comparisons. -/
def pushNegations : BExpr → BExpr
  | .conn k ops => conn R k (pushList ops)
  | .neg a => pushNegated a
  | .bfalse => .bfalse
  | .btrue => .btrue
  | .bundef => .bundef
  | .cmp k l r => .cmp k l r

/-- `push_negations(neg(a))`. -/
def pushNegated : BExpr → BExpr
  | .conn k ops => conn R k.dual (pushNegatedList ops)
  | .neg a => pushNegations a
  | .bfalse => .btrue
  | .btrue => .bfalse
  | .bundef => .bundef
  | .cmp k l r => compare R (flipped k) l r

def pushList : List BExpr → List BExpr
  | [] => []
  | x :: xs => pushNegations x :: pushList xs

def pushNegatedList : List BExpr → List BExpr
  | [] => []
  | x :: xs => pushNegated x :: pushNegatedList xs

end

/-- The boolean expressions there are. -/
inductive Made : BExpr → Prop
  | constant (b : Bool) : Made (ofBool b)
  | undefined : Made .bundef
  | compare (k : CmpOp) (l r : IExpr) : Made (compare R k l r)
  | conn {k : ConnOp} {xs : List BExpr} : (∀ x ∈ xs, Made x) → Made (conn R k xs)
  | neg {a : BExpr} : Made a → Made (neg R a)

mutual

/-- A comparison has two different sides, not both values, ordered where it commutes; a
negation stands over a connective. -/
def BExpr.Shaped : BExpr → Prop
  | .cmp k l r => (l ≠ r ∧ l ≠ .undef ∧ r ≠ .undef ∧ ¬ (isValue l = true ∧ isValue r = true)) ∧
      (k = .eq ∨ k = .neq → R.iexpr l ≤ R.iexpr r)
  | .conn _ ops => BExpr.ShapedList ops
  | .neg a => isConn a = true ∧ a.Shaped
  | _ => True

def BExpr.ShapedList : List BExpr → Prop
  | [] => True
  | x :: xs => x.Shaped ∧ BExpr.ShapedList xs

end

end Push

section Shapes

variable {R : ExprIds}

theorem shapedList_iff {xs : List BExpr} :
    BExpr.ShapedList R xs ↔ ∀ x ∈ xs, x.Shaped R := by
  induction xs with
  | nil => simp [BExpr.ShapedList]
  | cons x xs ih => rw [BExpr.ShapedList, ih, List.forall_mem_cons]

/-- What the constructor of connectives takes its operands from. -/
theorem mem_flattenConn {k : ConnOp} {xs : List BExpr} {x : BExpr}
    (hx : x ∈ flattenConn k xs) : x ∈ xs ∨ ∃ ops, .conn k ops ∈ xs ∧ x ∈ ops := by
  induction xs with
  | nil => cases hx
  | cons y ys ih =>
    have hup : (x ∈ ys ∨ ∃ ops, .conn k ops ∈ ys ∧ x ∈ ops) →
        x ∈ y :: ys ∨ ∃ ops, .conn k ops ∈ y :: ys ∧ x ∈ ops := by
      rintro (h | ⟨ops, h, hx⟩)
      · exact .inl (List.mem_cons_of_mem _ h)
      · exact .inr ⟨ops, List.mem_cons_of_mem _ h, hx⟩
    have hcons : x ∈ y :: flattenConn k ys →
        x ∈ y :: ys ∨ ∃ ops, .conn k ops ∈ y :: ys ∧ x ∈ ops := by
      intro h
      rcases List.mem_cons.mp h with rfl | h
      · exact .inl List.mem_cons_self
      · exact hup (ih h)
    have hother : x ∈ (if y = k.neutral then flattenConn k ys else y :: flattenConn k ys) →
        x ∈ y :: ys ∨ ∃ ops, .conn k ops ∈ y :: ys ∧ x ∈ ops := by
      intro h
      split at h
      · exact hup (ih h)
      · exact hcons h
    cases y with
    | conn k' ops =>
      rw [flattenConn] at hx
      split at hx
      · next hk =>
        subst hk
        rcases List.mem_append.mp hx with h | h
        · exact .inr ⟨ops, List.mem_cons_self .., h⟩
        · exact hup (ih h)
      · exact hcons hx
    | _ => exact hother hx

/-- A property of boolean expressions that a connective has when its operands do passes to
what the constructor makes. -/
theorem conn_all {X : BExpr → Prop} (htrue : X .btrue) (hfalse : X .bfalse)
    (hconn : ∀ k ops, X (.conn k ops) ↔ ∀ x ∈ ops, X x) {k : ConnOp} {xs : List BExpr}
    (h : ∀ x ∈ xs, X x) : X (conn R k xs) := by
  have hneutral : X k.neutral := by
    cases k
    · exact htrue
    · exact hfalse
  have hflat : ∀ x ∈ sortBools R (flattenConn k xs).dedup, X x := by
    intro x hx
    rcases mem_flattenConn (List.mem_dedup.mp ((sortBools_perm R _).mem_iff.mp hx)) with
      hx | ⟨ops, hops, hx⟩
    · exact h x hx
    · exact (hconn k ops).mp (h _ hops) x hx
  unfold conn
  split
  · next hm => exact h _ hm
  · unfold packBools
    split
    · exact hneutral
    · next y heq => exact hflat y (heq ▸ List.mem_singleton.mpr rfl)
    · exact (hconn k _).mpr hflat

theorem conn_shaped {k : ConnOp} {xs : List BExpr} (h : ∀ x ∈ xs, x.Shaped R) :
    (conn R k xs).Shaped R :=
  conn_all (X := BExpr.Shaped R) trivial trivial (fun _ _ => shapedList_iff) h

theorem ofBool_shaped (b : Bool) : (ofBool b).Shaped R := by
  cases b <;> trivial

theorem compare_shaped (k : CmpOp) (l r : IExpr) : (compare R k l r).Shaped R := by
  unfold compare
  split
  · trivial
  · trivial
  · exact ofBool_shaped _
  · next h1 h2 h3 =>
    have hv : ¬ (isValue l = true ∧ isValue r = true) := by
      rintro ⟨h4, h5⟩
      cases l with
      | const x =>
        cases r with
        | const y => exact h3 x y rfl rfl
        | _ => cases h5
      | _ => cases h4
    split
    · exact ofBool_shaped _
    · next hne =>
      split
      · next hk => exact ⟨⟨Ne.symm hne, h2, h1, fun h => hv ⟨h.2, h.1⟩⟩, fun _ => hk.2.le⟩
      · next hk =>
        refine ⟨⟨hne, h1, h2, hv⟩, fun hc => Nat.le_of_not_lt fun hlt => hk ⟨hc, hlt⟩⟩

theorem flipped_commutes {k : CmpOp} (h : flipped k = .eq ∨ flipped k = .neq) :
    k = .eq ∨ k = .neq := by
  cases k <;> simp [flipped] at h ⊢

/-- A comparison already made is made again. -/
theorem compare_of_shaped {k k' : CmpOp} {l r : IExpr} (h : (BExpr.cmp k l r).Shaped R)
    (hk : k' = .eq ∨ k' = .neq → k = .eq ∨ k = .neq) : compare R k' l r = .cmp k' l r := by
  obtain ⟨⟨hne, hl, hr, hv⟩, hord⟩ := h
  unfold compare
  split
  · exact absurd rfl hl
  · exact absurd rfl hr
  · exact absurd ⟨rfl, rfl⟩ hv
  · rw [if_neg hne, if_neg]
    rintro ⟨hc, hlt⟩
    exact Nat.lt_irrefl _ (hlt.trans_le (hord (hk hc)))

theorem neg_cmp {k : CmpOp} {l r : IExpr} (h : (BExpr.cmp k l r).Shaped R) :
    neg R (.cmp k l r) = .cmp (flipped k) l r :=
  compare_of_shaped h flipped_commutes

theorem neg_shaped {a : BExpr} (ha : a.Shaped R) : (neg R a).Shaped R := by
  cases a with
  | cmp k l r => exact compare_shaped _ _ _
  | conn k ops => exact ⟨rfl, ha⟩
  | neg b => exact ha.2
  | _ => trivial

theorem Made.shaped {e : BExpr} (h : Made R e) : e.Shaped R := by
  induction h with
  | constant b => exact ofBool_shaped b
  | undefined => trivial
  | compare k l r => exact compare_shaped k l r
  | conn _ ih => exact conn_shaped ih
  | neg _ ih => exact neg_shaped ih

end Shapes

/-! ## No negation is left -/

mutual

/-- No negation but in the sides of a comparison. -/
def BExpr.Pushed : BExpr → Prop
  | .conn _ ops => BExpr.PushedList ops
  | .neg _ => False
  | _ => True

def BExpr.PushedList : List BExpr → Prop
  | [] => True
  | x :: xs => x.Pushed ∧ BExpr.PushedList xs

end

section Pushed

variable {R : ExprIds}

theorem pushedList_iff {xs : List BExpr} : BExpr.PushedList xs ↔ ∀ x ∈ xs, x.Pushed := by
  induction xs with
  | nil => simp [BExpr.PushedList]
  | cons x xs ih => rw [BExpr.PushedList, ih, List.forall_mem_cons]

theorem conn_pushed {k : ConnOp} {xs : List BExpr} (h : ∀ x ∈ xs, x.Pushed) :
    (conn R k xs).Pushed :=
  conn_all (X := BExpr.Pushed) trivial trivial (fun _ _ => pushedList_iff) h

theorem compare_pushed (k : CmpOp) (l r : IExpr) : (compare R k l r).Pushed := by
  have hbool : ∀ b : Bool, (ofBool b).Pushed := by
    intro b
    cases b <;> trivial
  unfold compare
  split
  · trivial
  · trivial
  · exact hbool _
  · split
    · exact hbool _
    · split <;> trivial

mutual

theorem pushNegations_pushed : (e : BExpr) → (pushNegations R e).Pushed
  | .conn _ ops => conn_pushed (pushList_pushed ops)
  | .neg a => pushNegated_pushed a
  | .bfalse => trivial
  | .btrue => trivial
  | .bundef => trivial
  | .cmp _ _ _ => trivial

theorem pushNegated_pushed : (e : BExpr) → (pushNegated R e).Pushed
  | .conn _ ops => conn_pushed (pushNegatedList_pushed ops)
  | .neg a => pushNegations_pushed a
  | .bfalse => trivial
  | .btrue => trivial
  | .bundef => trivial
  | .cmp _ _ _ => compare_pushed _ _ _

theorem pushList_pushed : (ops : List BExpr) → ∀ x ∈ pushList R ops, x.Pushed
  | [] => by simp [pushList]
  | x :: xs => List.forall_mem_cons.mpr ⟨pushNegations_pushed x, pushList_pushed xs⟩

theorem pushNegatedList_pushed : (ops : List BExpr) → ∀ x ∈ pushNegatedList R ops, x.Pushed
  | [] => by simp [pushNegatedList]
  | x :: xs => List.forall_mem_cons.mpr ⟨pushNegated_pushed x, pushNegatedList_pushed xs⟩

end

end Pushed

/-! ## Values -/

section Values

variable {R : ExprIds} {ρ : Reading}

theorem ConnOp.step_dual (k : ConnOp) (a b : Truth) :
    k.dual.step a.not b.not = (k.step a b).not := by
  cases k <;> cases a <;> cases b <;> rfl

theorem ConnOp.decisive_dual (k : ConnOp) : k.dual.decisive.not = k.decisive.not.not := by
  cases k <;> rfl

/-- A negation has the value turned. -/
theorem neg_exact {a : BExpr} (ha : a.Shaped R) : exactBool ρ (neg R a) = (exactBool ρ a).not := by
  cases a with
  | cmp k l r => rw [neg_cmp ha, exactBool, exactBool, cmpExact_flipped]
  | neg b => rw [exactBool, Truth.not_not]; rfl
  | _ => rfl

mutual

theorem pushNegations_exact : (e : BExpr) → e.Shaped R →
    exactBool ρ (pushNegations R e) = exactBool ρ e
  | .conn k ops, h => by
    rw [pushNegations, conn_exact, pushList_exact k ops h, exactBool]
  | .neg a, h => by
    rw [pushNegations, pushNegated_exact a h.2, exactBool]
  | .bfalse, _ => rfl
  | .btrue, _ => rfl
  | .bundef, _ => rfl
  | .cmp _ _ _, _ => rfl

theorem pushNegated_exact : (e : BExpr) → e.Shaped R →
    exactBool ρ (pushNegated R e) = (exactBool ρ e).not
  | .conn k ops, h => by
    rw [pushNegated, conn_exact, pushNegatedList_exact k ops h, exactBool]
  | .neg a, h => by
    rw [pushNegated, pushNegations_exact a h.2, exactBool, Truth.not_not]
  | .bfalse, _ => rfl
  | .btrue, _ => rfl
  | .bundef, _ => rfl
  | .cmp k l r, h => neg_exact (a := .cmp k l r) h

theorem pushList_exact (k : ConnOp) : (ops : List BExpr) → BExpr.ShapedList R ops →
    exactConn ρ k (pushList R ops) = exactConn ρ k ops
  | [], _ => rfl
  | x :: xs, h => by
    rw [pushList, exactConn, exactConn, pushNegations_exact x h.1, pushList_exact k xs h.2]

theorem pushNegatedList_exact (k : ConnOp) : (ops : List BExpr) → BExpr.ShapedList R ops →
    exactConn ρ k.dual (pushNegatedList R ops) = (exactConn ρ k ops).not
  | [], _ => k.decisive_dual
  | x :: xs, h => by
    rw [pushNegatedList, exactConn, exactConn, pushNegated_exact x h.1,
      pushNegatedList_exact k xs h.2, k.step_dual]

end

end Values

/-! ## Evaluation -/

/-- Evaluation meets no overflow. -/
def Quiet (env : List Int) (e : BExpr) : Prop := ∃ t, evalBool env e = .ok t

section Quiet

variable {R : ExprIds} {env : List Int}

/-- Every operand is read. -/
theorem evalConn_quiet {k : ConnOp} {xs : List BExpr} : ∀ {acc : Truth},
    (∃ t, evalConn env k acc xs = .ok t) ↔ ∀ x ∈ xs, Quiet env x := by
  induction xs with
  | nil => exact fun {acc} => ⟨fun _ => nofun, fun _ => ⟨acc, rfl⟩⟩
  | cons x xs ih =>
    intro acc
    rw [List.forall_mem_cons]
    constructor
    · rintro ⟨t, h⟩
      obtain ⟨u, hu, h⟩ := bind_eq_ok.mp h
      exact ⟨⟨u, hu⟩, ih.mp ⟨t, h⟩⟩
    · rintro ⟨⟨u, hu⟩, hxs⟩
      obtain ⟨t, ht⟩ := (@ih (k.step acc u)).mpr hxs
      exact ⟨t, by rw [evalConn, hu]; exact ht⟩

theorem quiet_conn {k : ConnOp} {xs : List BExpr} :
    Quiet env (.conn k xs) ↔ ∀ x ∈ xs, Quiet env x := evalConn_quiet

theorem quiet_neg {a : BExpr} : Quiet env (.neg a) ↔ Quiet env a := by
  constructor
  · rintro ⟨t, h⟩
    obtain ⟨u, hu, -⟩ := bind_eq_ok.mp h
    exact ⟨u, hu⟩
  · rintro ⟨t, h⟩
    exact ⟨t.not, by rw [evalBool, h]; rfl⟩

theorem quiet_cmp {k k' : CmpOp} {l r : IExpr} (h : Quiet env (.cmp k l r)) :
    Quiet env (.cmp k' l r) := by
  obtain ⟨t, h⟩ := h
  obtain ⟨x, hx, h⟩ := bind_eq_ok.mp h
  cases x with
  | none => exact ⟨.undef, by rw [evalBool, hx]; rfl⟩
  | some x =>
    obtain ⟨y, hy, h⟩ := bind_eq_ok.mp h
    cases y with
    | none => exact ⟨.undef, by rw [evalBool, hx]; simp only [bind, Except.bind, hy]; rfl⟩
    | some y =>
      refine ⟨Truth.ofBool (cmpEval k' x y), ?_⟩
      rw [evalBool, hx]
      simp only [bind, Except.bind, hy]
      rfl

theorem conn_quiet {k : ConnOp} {xs : List BExpr} (h : ∀ x ∈ xs, Quiet env x) :
    Quiet env (conn R k xs) :=
  conn_all (X := Quiet env) ⟨.yes, rfl⟩ ⟨.no, rfl⟩ (fun _ _ => quiet_conn) h

theorem neg_quiet {a : BExpr} (ha : a.Shaped R) (h : Quiet env a) : Quiet env (neg R a) := by
  cases a with
  | cmp k l r =>
    rw [neg_cmp ha]
    exact quiet_cmp h
  | conn k ops => exact quiet_neg.mpr h
  | neg b => exact quiet_neg.mp h
  | bfalse => exact ⟨.yes, rfl⟩
  | btrue => exact ⟨.no, rfl⟩
  | bundef => exact ⟨.undef, rfl⟩

mutual

theorem pushNegations_quiet : (e : BExpr) → e.Shaped R → Quiet env e → Quiet env (pushNegations R e)
  | .conn _ ops, h, hq => conn_quiet (pushList_quiet ops h (quiet_conn.mp hq))
  | .neg a, h, hq => pushNegated_quiet a h.2 (quiet_neg.mp hq)
  | .bfalse, _, hq => hq
  | .btrue, _, hq => hq
  | .bundef, _, hq => hq
  | .cmp _ _ _, _, hq => hq

theorem pushNegated_quiet : (e : BExpr) → e.Shaped R → Quiet env e → Quiet env (pushNegated R e)
  | .conn _ ops, h, hq => conn_quiet (pushNegatedList_quiet ops h (quiet_conn.mp hq))
  | .neg a, h, hq => pushNegations_quiet a h.2 (quiet_neg.mp hq)
  | .bfalse, _, _ => ⟨.yes, rfl⟩
  | .btrue, _, _ => ⟨.no, rfl⟩
  | .bundef, _, _ => ⟨.undef, rfl⟩
  | .cmp k l r, h, hq => neg_quiet (a := .cmp k l r) h hq

theorem pushList_quiet : (ops : List BExpr) → BExpr.ShapedList R ops →
    (∀ x ∈ ops, Quiet env x) → ∀ x ∈ pushList R ops, Quiet env x
  | [], _, _ => by simp [pushList]
  | x :: xs, h, hq => by
    obtain ⟨hx, hxs⟩ := List.forall_mem_cons.mp hq
    exact List.forall_mem_cons.mpr ⟨pushNegations_quiet x h.1 hx, pushList_quiet xs h.2 hxs⟩

theorem pushNegatedList_quiet : (ops : List BExpr) → BExpr.ShapedList R ops →
    (∀ x ∈ ops, Quiet env x) → ∀ x ∈ pushNegatedList R ops, Quiet env x
  | [], _, _ => by simp [pushNegatedList]
  | x :: xs, h, hq => by
    obtain ⟨hx, hxs⟩ := List.forall_mem_cons.mp hq
    exact List.forall_mem_cons.mpr ⟨pushNegated_quiet x h.1 hx, pushNegatedList_quiet xs h.2 hxs⟩

end

/-- Two expressions with one exact value evaluate alike, where both meet no overflow. -/
theorem evalBool_of_exact {e r : BExpr} {t : Truth} (h : evalBool env e = .ok t)
    (hr : Quiet env r) {f : Truth → Truth}
    (hex : exactBool (.ofEnv env) r = f (exactBool (.ofEnv env) e)) :
    evalBool env r = .ok (f t) := by
  obtain ⟨u, hu⟩ := hr
  rw [hu, ← evalBool_exact r u hu, hex, evalBool_exact e t h]

end Quiet

/-- The constructors keep the strong Kleene value of what they are given, and the negation
normal form evaluates like the expression, with no negation left. -/
theorem boolean_rewrites_kept (R : ExprIds) (env : List Int) :
    (∀ e, Made R e → ∀ t, evalBool env e = .ok t → evalBool env (neg R e) = .ok t.not) ∧
    (∀ (k : ConnOp) xs ts, List.Forall₂ (fun x t => evalBool env x = .ok t) xs ts →
      evalBool env (conn R k xs) = .ok (ts.foldr k.step k.decisive.not)) ∧
    ∀ e, Made R e → (pushNegations R e).Pushed ∧
      ∀ t, evalBool env e = .ok t → evalBool env (pushNegations R e) = .ok t := by
  refine ⟨fun e he t ht => ?_, fun k xs ts h => ?_, fun e he => ⟨pushNegations_pushed e, ?_⟩⟩
  · exact evalBool_of_exact ht (neg_quiet he.shaped ⟨t, ht⟩) (neg_exact he.shaped)
  · have hquiet : ∀ x ∈ xs, Quiet env x := by
      intro x hx
      obtain ⟨t, -, ht⟩ := forall₂_mem_left h hx
      exact ⟨t, ht⟩
    have hvalue : exactConn (.ofEnv env) k xs = ts.foldr k.step k.decisive.not := by
      clear hquiet
      induction h with
      | nil => rfl
      | cons hx _ ih => rw [exactConn, List.foldr_cons, ih, evalBool_exact _ _ hx]
    obtain ⟨u, hu⟩ := conn_quiet (R := R) (k := k) hquiet
    rw [hu, ← evalBool_exact _ u hu, conn_exact, hvalue]
  · exact fun t ht => evalBool_of_exact (f := id) ht
      (pushNegations_quiet e he.shaped ⟨t, ht⟩) (pushNegations_exact e he.shaped)

/-- One over the value at the position, compared with two. -/
def halves : BExpr :=
  compare ⟨fun _ => 0, fun _ => 0⟩ .eq (.binary .div (.const 1) (.var 0)) (.const 2)

/-- Division by zero stays undefined under a negation, beside a true conjunct and pushed. -/
theorem boolean_rewrites_kept_undefined : ∃ R : ExprIds, evalBool [0] (neg R halves) = .ok .undef ∧
      evalBool [0] (conn R .conj [.btrue, halves]) = .ok .undef ∧
      evalBool [0] (pushNegations R (neg R (conn R .conj [.bundef, halves]))) = .ok .undef := by
  have he : Made ⟨fun _ => 0, fun _ => 0⟩ halves := .compare _ _ _
  have hvalue : evalBool [0] halves = .ok .undef := by decide +kernel
  have hboth : ∀ x ∈ [BExpr.bundef, halves], Made ⟨fun _ => 0, fun _ => 0⟩ x := by
    intro x hx
    rcases List.mem_cons.mp hx with rfl | hx
    · exact .undefined
    · exact List.mem_singleton.mp hx ▸ he
  obtain ⟨hneg, hconn, hpush⟩ := boolean_rewrites_kept ⟨fun _ => 0, fun _ => 0⟩ [0]
  refine ⟨⟨fun _ => 0, fun _ => 0⟩, hneg _ he .undef hvalue, ?_, ?_⟩
  · exact hconn .conj [.btrue, halves] [.yes, .undef] (.cons rfl (.cons hvalue .nil))
  · exact (hpush _ (.neg (.conn hboth))).2 .undef (by decide +kernel)

end LibHSC.Lia
