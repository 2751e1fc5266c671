import LibHSC.Ctl.Formula

/-!
The meaning of a formula over a graph in which a state without successor ends its
paths. A formula is true, false or undefined at a state, as its atoms are: `Sat f true`
says that it is true there, `Sat f false` that it is false. The negation normal form
keeps both.
-/

namespace LibHSC.Ctl

open Lia (ConnOp Truth)
open Paths

variable {σ : Type} (step : σ → σ → Prop) (atom : Nat → σ → Truth)

/-- The states where the operator is true, `P` those where its operand is. -/
def UnaryOp.Holds : UnaryOp → (σ → Prop) → σ → Prop
  | .ex, P, s => ∃ π, MaxPath step s π ∧ At π 1 P
  | .ax, P, s => ∀ π, MaxPath step s π → ∀ x, π 1 = some x → P x
  | .ef, P, s => ∃ π, MaxPath step s π ∧ ∃ n, At π n P
  | .af, P, s => ∀ π, MaxPath step s π → ∃ n, At π n P
  | .eg, P, s => ∃ π, MaxPath step s π ∧ Globally P π
  | .ag, P, s => ∀ π, MaxPath step s π → Globally P π

/-- The states where the operator is false, `P` those where its operand is. -/
def UnaryOp.Fails : UnaryOp → (σ → Prop) → σ → Prop
  | .ex, P, s => ∀ π, MaxPath step s π → ∀ x, π 1 = some x → P x
  | .ax, P, s => ∃ π, MaxPath step s π ∧ At π 1 P
  | .ef, P, s => ∀ π, MaxPath step s π → Globally P π
  | .af, P, s => ∃ π, MaxPath step s π ∧ Globally P π
  | .eg, P, s => ∀ π, MaxPath step s π → ∃ n, At π n P
  | .ag, P, s => ∃ π, MaxPath step s π ∧ ∃ n, At π n P

def BinaryOp.Holds : BinaryOp → (σ → Prop) → (σ → Prop) → σ → Prop
  | .eu, P, Q, s => ∃ π, MaxPath step s π ∧ Until P Q π
  | .au, P, Q, s => ∀ π, MaxPath step s π → Until P Q π
  | .ew, P, Q, s => ∃ π, MaxPath step s π ∧ (Until P Q π ∨ Globally P π)
  | .aw, P, Q, s => ∀ π, MaxPath step s π → Until P Q π ∨ Globally P π

def BinaryOp.Fails : BinaryOp → (σ → Prop) → (σ → Prop) → σ → Prop
  | .eu, P, Q, s => ∀ π, MaxPath step s π → NotUntil P Q π
  | .au, P, Q, s => ∃ π, MaxPath step s π ∧ NotUntil P Q π
  | .ew, P, Q, s => ∀ π, MaxPath step s π → NotUntil P Q π ∧ ∃ n, At π n P
  | .aw, P, Q, s => ∃ π, MaxPath step s π ∧ NotUntil P Q π ∧ ∃ n, At π n P

mutual

/-- The formula has the truth value `b` at the state. -/
def Formula.Sat : Formula → Bool → σ → Prop
  | .atom a, b, s => atom a s = Truth.ofBool b
  | .tru, b, _ => b = true
  | .fls, b, _ => b = false
  | .not f, b, s => f.Sat (!b) s
  | .nary .conj kids, b, s => if b then SatAll kids b s else SatAny kids b s
  | .nary .disj kids, b, s => if b then SatAny kids b s else SatAll kids b s
  | .unary o f, b, s => if b then o.Holds step (f.Sat b) s else o.Fails step (f.Sat b) s
  | .binary o f g, b, s =>
    if b then o.Holds step (f.Sat b) (g.Sat b) s else o.Fails step (f.Sat b) (g.Sat b) s

def SatAll : List Formula → Bool → σ → Prop
  | [], _, _ => True
  | f :: fs, b, s => f.Sat b s ∧ SatAll fs b s

def SatAny : List Formula → Bool → σ → Prop
  | [], _, _ => False
  | f :: fs, b, s => f.Sat b s ∨ SatAny fs b s

end

section Operators

variable {step} {P Q P' Q' : σ → Prop} {s : σ}

theorem UnaryOp.holds_congr {o : UnaryOp} (h : ∀ x, P x ↔ P' x) :
    o.Holds step P s ↔ o.Holds step P' s := by
  obtain rfl : P = P' := funext fun x => propext (h x)
  exact Iff.rfl

theorem UnaryOp.fails_congr {o : UnaryOp} (h : ∀ x, P x ↔ P' x) :
    o.Fails step P s ↔ o.Fails step P' s := by
  obtain rfl : P = P' := funext fun x => propext (h x)
  exact Iff.rfl

theorem BinaryOp.holds_congr {o : BinaryOp} (hP : ∀ x, P x ↔ P' x) (hQ : ∀ x, Q x ↔ Q' x) :
    o.Holds step P Q s ↔ o.Holds step P' Q' s := by
  obtain rfl : P = P' := funext fun x => propext (hP x)
  obtain rfl : Q = Q' := funext fun x => propext (hQ x)
  exact Iff.rfl

theorem BinaryOp.fails_congr {o : BinaryOp} (hP : ∀ x, P x ↔ P' x) (hQ : ∀ x, Q x ↔ Q' x) :
    o.Fails step P Q s ↔ o.Fails step P' Q' s := by
  obtain rfl : P = P' := funext fun x => propext (hP x)
  obtain rfl : Q = Q' := funext fun x => propext (hQ x)
  exact Iff.rfl

/-- An operator is false where its dual is true of what is false. -/
theorem UnaryOp.fails_iff (o : UnaryOp) : o.Fails step P s ↔ o.dual.Holds step P s := by
  cases o <;> exact Iff.rfl

theorem BinaryOp.fails_iff (o : BinaryOp) :
    o.Fails step P Q s ↔ o.dual.Holds step Q (fun x => P x ∧ Q x) s := by
  cases o with
  | eu => exact forall₂_congr fun π hπ => notUntil_iff hπ
  | au => exact exists_congr fun π => and_congr_right fun hπ => notUntil_iff hπ
  | ew => exact forall₂_congr fun π hπ => notWeakUntil_iff hπ
  | aw => exact exists_congr fun π => and_congr_right fun hπ => notWeakUntil_iff hπ

end Operators

section Normal

variable {step atom} {s : σ} {b : Bool}

theorem satAll_iff {fs : List Formula} : SatAll step atom fs b s ↔
    ∀ f ∈ fs, f.Sat step atom b s := by
  induction fs with
  | nil => simp [SatAll]
  | cons f fs ih => simp [SatAll, ih]

theorem satAny_iff {fs : List Formula} : SatAny step atom fs b s ↔
    ∃ f ∈ fs, f.Sat step atom b s := by
  induction fs with
  | nil => simp [SatAny]
  | cons f fs ih => simp [SatAny, ih]

theorem sat_conj {fs : List Formula} :
    (Formula.nary .conj fs).Sat step atom true s ↔ ∀ f ∈ fs, f.Sat step atom true s := by
  rw [Formula.Sat, if_pos rfl, satAll_iff]

theorem sat_disj {fs : List Formula} :
    (Formula.nary .disj fs).Sat step atom true s ↔ ∃ f ∈ fs, f.Sat step atom true s := by
  rw [Formula.Sat, if_pos rfl, satAny_iff]

variable (step atom s b) in
/-- The operands give a connective the truth value `b`: all of them, or one of them. -/
def ConnSat (k : ConnOp) (fs : List Formula) : Prop :=
  match k, b with
  | .conj, true => ∀ f ∈ fs, f.Sat step atom true s
  | .disj, false => ∀ f ∈ fs, f.Sat step atom false s
  | .conj, false => ∃ f ∈ fs, f.Sat step atom false s
  | .disj, true => ∃ f ∈ fs, f.Sat step atom true s

theorem sat_nary {k : ConnOp} {fs : List Formula} :
    (Formula.nary k fs).Sat step atom b s ↔ ConnSat step atom s b k fs := by
  cases k <;> cases b <;> simp [Formula.Sat, ConnSat, satAll_iff, satAny_iff]

theorem connSat_congr {k : ConnOp} {fs gs : List Formula} (h : ∀ f, f ∈ fs ↔ f ∈ gs) :
    ConnSat step atom s b k fs ↔ ConnSat step atom s b k gs := by
  cases k <;> cases b <;> simp [ConnSat, h]

variable (b) in
/-- One operand more. -/
def joinSat (k : ConnOp) (p q : Prop) : Prop :=
  match k, b with
  | .conj, true => p ∧ q
  | .disj, false => p ∧ q
  | _, _ => p ∨ q

theorem joinSat_congr {k : ConnOp} {p q p' q' : Prop} (hp : p ↔ p') (hq : q ↔ q') :
    joinSat b k p q ↔ joinSat b k p' q' := by
  rw [hp, hq]

theorem connSat_cons {k : ConnOp} {f : Formula} {fs : List Formula} :
    ConnSat step atom s b k (f :: fs) ↔
      joinSat b k (f.Sat step atom b s) (ConnSat step atom s b k fs) := by
  cases k <;> cases b <;> simp [ConnSat, joinSat]

theorem connSat_append {k : ConnOp} {fs gs : List Formula} :
    ConnSat step atom s b k (fs ++ gs) ↔
      joinSat b k (ConnSat step atom s b k fs) (ConnSat step atom s b k gs) := by
  induction fs with
  | nil => cases k <;> cases b <;> simp [ConnSat, joinSat]
  | cons f fs ih =>
    rw [List.cons_append, connSat_cons, connSat_cons, joinSat_congr Iff.rfl ih]
    cases k <;> cases b <;> simp [joinSat, and_assoc, or_assoc]

theorem connSat_flatten {k : ConnOp} {fs : List Formula} :
    ConnSat step atom s b k (flattenKids k fs) ↔ ConnSat step atom s b k fs := by
  induction fs with
  | nil => exact Iff.rfl
  | cons f fs ih =>
    have hkept : ConnSat step atom s b k (f :: flattenKids k fs) ↔
        ConnSat step atom s b k (f :: fs) := by
      rw [connSat_cons, connSat_cons, joinSat_congr Iff.rfl ih]
    have hother : ConnSat step atom s b k (if f = neutral k then flattenKids k fs
        else f :: flattenKids k fs) ↔ ConnSat step atom s b k (f :: fs) := by
      split
      · next hn =>
        subst hn
        rw [connSat_cons, ih]
        cases k <;> cases b <;> simp [joinSat, neutral, Formula.Sat]
      · exact hkept
    cases f with
    | nary k' gs =>
      rw [flattenKids]
      split
      · next hk =>
        subst hk
        rw [connSat_append, connSat_cons]
        exact joinSat_congr sat_nary.symm ih
      · exact hkept
    | _ => exact hother

theorem sat_packKids {k : ConnOp} {fs : List Formula} :
    (packKids k fs).Sat step atom b s ↔ ConnSat step atom s b k fs := by
  match fs with
  | [] => cases k <;> cases b <;> simp [packKids, neutral, Formula.Sat, ConnSat]
  | [f] => cases k <;> cases b <;> simp [packKids, ConnSat]
  | _ :: _ :: _ => exact sat_nary

theorem mem_sortKids {ids : Formula → Nat} {fs : List Formula} {f : Formula} :
    f ∈ sortKids ids fs ↔ f ∈ fs :=
  (List.perm_insertionSort _ fs).mem_iff

/-- An absorbing operand decides. -/
theorem absorbing_sat {k : ConnOp} {fs : List Formula} (hm : absorbing k ∈ fs) :
    (absorbing k).Sat step atom b s ↔ ConnSat step atom s b k fs := by
  cases k with
  | conj =>
    cases b with
    | true => exact ⟨nofun, fun h => h _ hm⟩
    | false => exact ⟨fun h => ⟨_, hm, h⟩, fun _ => rfl⟩
  | disj =>
    cases b with
    | true => exact ⟨fun h => ⟨_, hm, h⟩, fun _ => rfl⟩
    | false => exact ⟨nofun, fun h => h _ hm⟩

/-- The constructor of connectives keeps their truth values. -/
theorem nary_sat {ids : Formula → Nat} {k : ConnOp} {fs : List Formula} :
    (nary ids k fs).Sat step atom b s ↔ ConnSat step atom s b k fs := by
  unfold nary
  split
  · next hm => exact absorbing_sat hm
  · rw [sat_packKids]
    exact (connSat_congr fun f => by rw [mem_sortKids, List.mem_dedup]).trans connSat_flatten

/-! ## The normal forms keep the truth values -/

theorem sat_unary {o : UnaryOp} {f g : Formula}
    (h : ∀ x, g.Sat step atom b x ↔ f.Sat step atom b x) :
    (Formula.unary o g).Sat step atom b s ↔ (Formula.unary o f).Sat step atom b s := by
  rw [Formula.Sat, Formula.Sat]
  cases b with
  | true => exact UnaryOp.holds_congr h
  | false => exact UnaryOp.fails_congr h

theorem sat_binary {o : BinaryOp} {f g f' g' : Formula}
    (hf : ∀ x, f'.Sat step atom b x ↔ f.Sat step atom b x)
    (hg : ∀ x, g'.Sat step atom b x ↔ g.Sat step atom b x) :
    (Formula.binary o f' g').Sat step atom b s ↔ (Formula.binary o f g).Sat step atom b s := by
  rw [Formula.Sat, Formula.Sat]
  cases b with
  | true => exact BinaryOp.holds_congr hf hg
  | false => exact BinaryOp.fails_congr hf hg

/-- The dual of an operator has its truth values turned. -/
theorem sat_dual_unary {o : UnaryOp} {f g : Formula}
    (h : ∀ x, g.Sat step atom b x ↔ f.Sat step atom (!b) x) :
    (Formula.unary o.dual g).Sat step atom b s ↔ (Formula.unary o f).Sat step atom (!b) s := by
  rw [Formula.Sat, Formula.Sat]
  cases b with
  | true =>
    simp only [Bool.not_true, Bool.false_eq_true, if_false, if_true, o.fails_iff]
    exact UnaryOp.holds_congr h
  | false =>
    have hdual : o.dual.dual = o := by cases o <;> rfl
    simp only [Bool.not_false, Bool.false_eq_true, if_false, if_true, o.dual.fails_iff, hdual]
    exact UnaryOp.holds_congr h

theorem holds_or_iff {o : BinaryOp} {P Q : σ → Prop} :
    o.Holds step (fun x => P x ∨ Q x) (fun x => Q x ∧ (P x ∨ Q x)) s ↔ o.Holds step P Q s := by
  cases o with
  | eu => exact exists_congr fun π => and_congr_right fun _ => until_or_iff
  | au => exact forall₂_congr fun π _ => until_or_iff
  | ew => exact exists_congr fun π => and_congr_right fun hπ => weakUntil_or_iff hπ
  | aw => exact forall₂_congr fun π hπ => weakUntil_or_iff hπ

theorem sat_dual_binary {o : BinaryOp} {f g f' g' : Formula} {ids : Formula → Nat}
    (hf : ∀ x, f'.Sat step atom b x ↔ f.Sat step atom (!b) x)
    (hg : ∀ x, g'.Sat step atom b x ↔ g.Sat step atom (!b) x) :
    (Formula.binary o.dual g' (nary ids .conj [f', g'])).Sat step atom b s ↔
      (Formula.binary o f g).Sat step atom (!b) s := by
  have hboth : ∀ x, (nary ids .conj [f', g']).Sat step atom b x ↔
      joinSat b .conj (f.Sat step atom (!b) x) (g.Sat step atom (!b) x) := by
    intro x
    rw [nary_sat, connSat_cons, joinSat_congr (hf x) connSat_cons]
    refine joinSat_congr Iff.rfl ?_
    rw [joinSat_congr (hg x) Iff.rfl]
    cases b <;> simp [joinSat, ConnSat]
  rw [Formula.Sat, Formula.Sat]
  cases b with
  | true =>
    simp only [Bool.not_true, Bool.false_eq_true, if_false, if_true, o.fails_iff]
    exact BinaryOp.holds_congr hg hboth
  | false =>
    have hdual : o.dual.dual = o := by cases o <;> rfl
    simp only [Bool.not_false, Bool.false_eq_true, if_false, if_true, o.dual.fails_iff, hdual]
    exact (BinaryOp.holds_congr hboth fun x => and_congr (hg x) (hboth x)).trans holds_or_iff

theorem connSat_map {k : ConnOp} {r : Formula → Formula} {fs : List Formula}
    (h : ∀ f ∈ fs, ((r f).Sat step atom b s ↔ f.Sat step atom b s)) :
    ConnSat step atom s b k (fs.map r) ↔ ConnSat step atom s b k fs := by
  induction fs with
  | nil => exact Iff.rfl
  | cons f fs ih =>
    obtain ⟨hf, hfs⟩ := List.forall_mem_cons.mp h
    rw [List.map_cons, connSat_cons, connSat_cons, joinSat_congr hf (ih hfs)]

theorem connSat_dual {k : ConnOp} {r : Formula → Formula} {fs : List Formula}
    (h : ∀ f ∈ fs, ((r f).Sat step atom b s ↔ f.Sat step atom (!b) s)) :
    ConnSat step atom s b (dualConn k) (fs.map r) ↔ ConnSat step atom s (!b) k fs := by
  induction fs with
  | nil => cases k <;> cases b <;> simp [ConnSat, dualConn]
  | cons f fs ih =>
    obtain ⟨hf, hfs⟩ := List.forall_mem_cons.mp h
    rw [List.map_cons, connSat_cons, connSat_cons, joinSat_congr hf (ih hfs)]
    cases k <;> cases b <;> simp [joinSat, dualConn]

variable (ids : Formula → Nat)

mutual

/-- The negation normal form has the truth value of the formula. -/
theorem nnf_sat : (f : Formula) → ∀ (b : Bool) (s : σ),
    ((nnf ids f).Sat step atom b s ↔ f.Sat step atom b s)
  | .atom _, _, _ => Iff.rfl
  | .tru, _, _ => Iff.rfl
  | .fls, _, _ => Iff.rfl
  | .not f, b, s => by
    have := negate_sat f b s
    rwa [nnf, Formula.Sat]
  | .nary k kids, b, s => by
    rw [nnf, nary_sat, sat_nary, nnfList_eq]
    exact connSat_map fun f hf => nnfList_sat kids f hf b s
  | .unary o f, b, s => sat_unary fun x => nnf_sat f b x
  | .binary o f g, b, s => sat_binary (fun x => nnf_sat f b x) fun x => nnf_sat g b x

/-- The negated normal form has the other one. -/
theorem negate_sat : (f : Formula) → ∀ (b : Bool) (s : σ),
    ((negate ids f).Sat step atom b s ↔ f.Sat step atom (!b) s)
  | .atom _, _, _ => Iff.rfl
  | .tru, b, _ => by cases b <;> simp [negate, Formula.Sat]
  | .fls, b, _ => by cases b <;> simp [negate, Formula.Sat]
  | .not f, b, s => by
    have := nnf_sat f b s
    rwa [negate, Formula.Sat, Bool.not_not]
  | .nary k kids, b, s => by
    rw [negate, nary_sat, sat_nary, negateList_eq]
    exact connSat_dual fun f hf => negateList_sat kids f hf b s
  | .unary o f, b, s => sat_dual_unary fun x => negate_sat f b x
  | .binary o f g, b, s => sat_dual_binary (fun x => negate_sat f b x) fun x => negate_sat g b x

theorem nnfList_sat : (fs : List Formula) → ∀ f ∈ fs, ∀ (b : Bool) (s : σ),
    ((nnf ids f).Sat step atom b s ↔ f.Sat step atom b s)
  | [] => nofun
  | f :: fs => List.forall_mem_cons.mpr ⟨nnf_sat f, nnfList_sat fs⟩

theorem negateList_sat : (fs : List Formula) → ∀ f ∈ fs, ∀ (b : Bool) (s : σ),
    ((negate ids f).Sat step atom b s ↔ f.Sat step atom (!b) s)
  | [] => nofun
  | f :: fs => List.forall_mem_cons.mpr ⟨negate_sat f, negateList_sat fs⟩

end

end Normal

end LibHSC.Ctl
