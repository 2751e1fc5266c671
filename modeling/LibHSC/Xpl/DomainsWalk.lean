import LibHSC.Xpl.DomainsLattice

/-!
What the inference takes for granted, and what its walk guarantees where that
holds. The engines do not check that a write stays inside the declared window, that
an assigned `e % k` is non-negative, or that a comparison of a scalar with a
compound expression, which the inference reads as 0, would hold against 0 too. A
term that is clean in these three respects keeps every value in the domain of its
unit, whatever final domains cover what the walk has collected.
-/

namespace LibHSC.Xpl

open Lia

/-! ## Where the inference takes something for granted -/

/-- A side of a comparison that is neither a scalar nor an inline constant: the inference
reads it as 0. -/
def readAsZero : IExpr → Bool
  | .const v => !isConst (.const v)
  | .var _ => false
  | _ => true

mutual

/-- The comparisons of a conjunction. -/
def conjuncts : BExpr → List (CmpOp × IExpr × IExpr)
  | .cmp k l r => [(k, l, r)]
  | .conn .conj ops => conjunctsAll ops
  | _ => []

def conjunctsAll : List BExpr → List (CmpOp × IExpr × IExpr)
  | [] => []
  | g :: gs => conjuncts g ++ conjunctsAll gs

end

/-- Each comparison of a scalar with a compound expression would hold against 0 too. -/
def GuardClean (w : Word) (g : BExpr) : Prop :=
  ∀ x ∈ conjuncts g, x.1 ≠ .neq → ∀ p v, w[p]? = some v →
    (x.2.1 = .var p → readAsZero x.2.2 = true → cmpEval x.1 v 0 = true) ∧
    (x.2.2 = .var p → readAsZero x.2.1 = true → cmpEval x.1 0 v = true)

/-- A remainder by a positive constant, as a whole right-hand side. -/
def remainderBy : IExpr → Option Int
  | .binary .mod _ (.const k) => if isConst (.const k) ∧ 0 < k then some k else none
  | _ => none

/-- An assigned remainder is not negative. -/
def ActionClean (w : Word) : Action → Prop
  | .assign _ rhs => (remainderBy rhs).isSome → ∀ v, strictInt w rhs = .ok v → 0 ≤ v
  | .havoc _ _ _ => True

def MachineWord (w : Word) : Prop := ∀ (p : Nat) v, w[p]? = some v → kMin ≤ v ∧ v ≤ kMax

/-- Machine values, each inside the declared window of its unit. -/
def InWindow (root : Roots) (win : Constraints) (w : Word) : Prop :=
  ∀ p v, w[p]? = some v → (kMin ≤ v ∧ v ≤ kMax) ∧
    ∀ lo hi, win (root p) = some (lo, hi) → lo ≤ v ∧ v ≤ hi

section Clean

variable (root : Roots) (win : Constraints)

mutual

/-- A term on some branches, with nothing taken for granted wrongly: at every filter, at every
assignment and at every written value. -/
def Clean : Term → List Branch → Prop
  | .filter g, bs => ∀ b ∈ bs, evalBool b.s g = .ok .yes → GuardClean b.s g
  | .update c, bs => ∀ b ∈ bs, (∀ a ∈ c, ActionClean b.s a) ∧
      ∀ out, applyUpdate c b = .ok out → ∀ b' ∈ out, InWindow root win b'.s
  | .seq kids, bs => CleanSeq kids bs
  | .alt kids, bs => CleanAlt kids bs
  | .abort, _ => True

def CleanSeq : List Term → List Branch → Prop
  | [], _ => True
  | kid :: kids, bs => Clean kid bs ∧ ∀ out, interp kid bs = .ok out → CleanSeq kids out

def CleanAlt : List Term → List Branch → Prop
  | [], _ => True
  | kid :: kids, bs => Clean kid bs ∧ CleanAlt kids bs

end

end Clean

/-- Reached from a seed by clean firings. -/
inductive CleanReach (root : Roots) (win : Constraints) (m : Model) (seeds : List Word) :
    Word → Prop
  | start {s : Word} : s ∈ seeds → InWindow root win s → CleanReach root win m seeds s
  | step {s : Word} {evt : Event} {bs : List Branch} {b : Branch} :
      CleanReach root win m seeds s → evt ∈ m.events → Clean root win evt.root [⟨s, []⟩] →
      interp evt.root [⟨s, []⟩] = .ok bs → b ∈ bs → CleanReach root win m seeds b.s

/-! ## Constraints -/

/-- The state meets the constraints. -/
def Constraints.Sat (env : Constraints) (w : Word) : Prop :=
  ∀ p lo hi, env p = some (lo, hi) → ∀ v, w[p]? = some v → lo ≤ v ∧ v ≤ hi

section Constrain

variable {env : Constraints} {w : Word}

theorem sat_meet {pos : Nat} {lo hi : Int} (h : env.Sat w)
    (hpos : ∀ v, w[pos]? = some v → lo ≤ v ∧ v ≤ hi) : (env.meet pos lo hi).Sat w := by
  intro p l u hp v hv
  unfold Constraints.meet at hp
  by_cases he : p = pos
  · subst he
    rw [Function.update_self, Option.some.injEq] at hp
    obtain ⟨h1, h2⟩ := hpos v hv
    cases henv : env p with
    | none =>
      rw [henv] at hp
      cases hp
      exact ⟨h1, h2⟩
    | some x =>
      obtain ⟨l', u'⟩ := x
      rw [henv] at hp
      cases hp
      obtain ⟨h3, h4⟩ := h p l' u' henv v hv
      exact ⟨max_le h3 h1, le_min h4 h2⟩
  · rw [Function.update_of_ne he] at hp
    exact h p l u hp v hv

theorem sat_eraseAll {w' : Word} : ∀ {ps : List Nat} {env : Constraints}, env.Sat w →
    (∀ p, p ∉ ps → w'[p]? = w[p]?) → (env.eraseAll ps).Sat w' := by
  intro ps
  have herase : ∀ (ps : List Nat) (env : Constraints) (p : Nat) (x : Int × Int),
      env.eraseAll ps p = some x → p ∉ ps ∧ env p = some x := by
    intro ps
    induction ps with
    | nil => exact fun env p x h => ⟨by simp, h⟩
    | cons q ps ih =>
      intro env p x h
      obtain ⟨h1, h2⟩ := ih (env.erase q) p x h
      by_cases hpq : p = q
      · subst hpq
        rw [Constraints.erase, Function.update_self] at h2
        cases h2
      · rw [Constraints.erase, Function.update_of_ne hpq] at h2
        exact ⟨by simp [hpq, h1], h2⟩
  intro env hsat hsame p lo hi hp v hv
  obtain ⟨h1, h2⟩ := herase ps env p _ hp
  rw [hsame p h1] at hv
  exact hsat p lo hi h2 v hv

theorem rangeOf_spec {k : CmpOp} {c v lo hi : Int} (hr : rangeOf k c = some (lo, hi))
    (hk : cmpEval k v c = true) (hv : kMin ≤ v ∧ v ≤ kMax) : lo ≤ v ∧ v ≤ hi := by
  cases k with
  | eq =>
    cases hr
    have : v = c := by simpa [cmpEval] using hk
    omega
  | neq => cases hr
  | lt =>
    rw [rangeOf] at hr
    split at hr
    · cases hr
    · cases hr
      have : v < c := by simpa [cmpEval] using hk
      omega
  | leq =>
    cases hr
    have : v ≤ c := by simpa [cmpEval] using hk
    omega
  | gt =>
    rw [rangeOf] at hr
    split at hr
    · cases hr
    · cases hr
      have : v > c := by simpa [cmpEval] using hk
      omega
  | geq =>
    cases hr
    have : v ≥ c := by simpa [cmpEval] using hk
    omega

theorem cmpEval_mirrored (k : CmpOp) (a b : Int) : cmpEval (mirrored k) a b = cmpEval k b a := by
  cases k with
  | eq => simp only [mirrored, cmpEval, Bool.beq_comm]
  | neq => simp only [mirrored, cmpEval, bne_comm]
  | lt => rfl
  | leq => rfl
  | gt => rfl
  | geq => rfl

/-- The three readings of a side. -/
theorem side_cases (e : IExpr) :
    (∃ p, e = .var p ∧ side e = (true, p, 0)) ∨ (∃ c, e = .const c ∧ side e = (false, 0, c)) ∨
      (readAsZero e = true ∧ side e = (false, 0, 0)) := by
  cases e with
  | var p => exact .inl ⟨p, rfl, rfl⟩
  | const c =>
    cases hc : isConst (.const c) with
    | true => exact .inr (.inl ⟨c, rfl, by simp [side, hc]⟩)
    | false => exact .inr (.inr ⟨by simp [readAsZero, hc], by simp [side, hc]⟩)
  | undef => exact .inr (.inr ⟨rfl, rfl⟩)
  | nary k ops => exact .inr (.inr ⟨rfl, rfl⟩)
  | binary k a b => exact .inr (.inr ⟨rfl, rfl⟩)
  | bitComp a => exact .inr (.inr ⟨rfl, rfl⟩)
  | array cells index => exact .inr (.inr ⟨rfl, rfl⟩)
  | wrapBool b => exact .inr (.inr ⟨rfl, rfl⟩)

theorem evalBool_cmp_yes {k : CmpOp} {l r : IExpr} (h : evalBool w (.cmp k l r) = .ok .yes) :
    ∃ x y, evalInt w l = .ok (some x) ∧ evalInt w r = .ok (some y) ∧ cmpEval k x y = true := by
  rw [evalBool] at h
  obtain ⟨x, hx, h⟩ := bind_eq_ok.mp h
  cases x with
  | none => cases h
  | some x =>
    obtain ⟨y, hy, h⟩ := bind_eq_ok.mp h
    cases y with
    | none => cases h
    | some y =>
      refine ⟨x, y, hx, hy, ?_⟩
      cases hk : cmpEval k x y with
      | true => rfl
      | false =>
        dsimp only at h
        rw [hk] at h
        cases h

theorem evalInt_var {p : Nat} {x : Int} (h : evalInt w (.var p) = .ok (some x)) :
    w[p]? = some x := by
  rw [evalInt] at h
  cases hp : w[p]? with
  | none =>
    rw [hp] at h
    cases h
  | some v =>
    rw [hp] at h
    cases h
    rfl

/-- A range read off `v rel c`, met wherever the comparison holds. -/
theorem sat_meet_range {k : CmpOp} {c : Int} {p : Nat} (hsat : env.Sat w) (hm : MachineWord w)
    (hk : k ≠ .neq → ∀ v, w[p]? = some v → cmpEval k v c = true) :
    Constraints.Sat (match rangeOf k c with
      | none => env
      | some (lo, hi) => env.meet p lo hi) w := by
  cases hr : rangeOf k c with
  | none => exact hsat
  | some x =>
    obtain ⟨lo, hi⟩ := x
    have hne : k ≠ .neq := by
      rintro rfl
      cases hr
    exact sat_meet hsat fun v hv => rangeOf_spec hr (hk hne v hv) (hm p v hv)

theorem mirrored_ne {k : CmpOp} (h : mirrored k ≠ .neq) : k ≠ .neq := by
  rintro rfl
  exact h rfl

theorem constrainCmp_sat {k : CmpOp} {l r : IExpr} (hsat : env.Sat w) (hm : MachineWord w)
    (hyes : evalBool w (.cmp k l r) = .ok .yes) (hclean : GuardClean w (.cmp k l r)) :
    (constrainCmp k l r env).Sat w := by
  obtain ⟨x, y, hx, hy, hk⟩ := evalBool_cmp_yes hyes
  have hatom := hclean (k, l, r) (by simp [conjuncts])
  unfold constrainCmp
  rcases side_cases l with ⟨p, rfl, hl⟩ | hl
  · -- a scalar on the left
    have hxp := evalInt_var hx
    have hval : ∀ v, w[p]? = some v → v = x := fun v hv => by
      rw [hxp] at hv
      exact (Option.some.inj hv).symm
    rcases side_cases r with ⟨q, rfl, hr⟩ | ⟨c, rfl, hr⟩ | ⟨hzero, hr⟩
    · rw [hl, hr]
      exact hsat
    · rw [hl, hr]
      cases hy
      exact sat_meet_range hsat hm fun _ v hv => hval v hv ▸ hk
    · rw [hl, hr]
      exact sat_meet_range hsat hm fun hne v hv => (hatom hne p v hv).1 rfl hzero
  · have hlf : (side l).1 = false := by
      rcases hl with ⟨c, -, hl⟩ | ⟨-, hl⟩
      · rw [hl]
      · rw [hl]
    rcases side_cases r with ⟨q, rfl, hr⟩ | hr
    · -- a scalar on the right
      have hyq := evalInt_var hy
      have hval : ∀ v, w[q]? = some v → v = y := fun v hv => by
        rw [hyq] at hv
        exact (Option.some.inj hv).symm
      rcases hl with ⟨c, rfl, hl⟩ | ⟨hzero, hl⟩
      · rw [hl, hr]
        cases hx
        refine sat_meet_range hsat hm fun _ v hv => ?_
        show cmpEval (mirrored k) v x = true
        rw [cmpEval_mirrored, hval v hv]
        exact hk
      · rw [hl, hr]
        refine sat_meet_range hsat hm fun hne v hv => ?_
        show cmpEval (mirrored k) v 0 = true
        rw [cmpEval_mirrored]
        exact (hatom (mirrored_ne hne) q v hv).2 rfl hzero
    · have hrf : (side r).1 = false := by
        rcases hr with ⟨c, -, hr⟩ | ⟨-, hr⟩
        · rw [hr]
        · rw [hr]
      dsimp only
      rw [if_pos (hlf.trans hrf.symm)]
      exact hsat

mutual

/-- A guard that holds, and takes nothing for granted wrongly, gives the constraints that are
read off it. -/
theorem constrain_sat (hm : MachineWord w) :
    (g : BExpr) → ∀ {env : Constraints}, env.Sat w → evalBool w g = .ok .yes → GuardClean w g →
    (constrain g env).Sat w
  | .cmp k l r, _, hsat, hyes, hclean => by
    rw [constrain]
    exact constrainCmp_sat hsat hm hyes hclean
  | .conn .conj ops, _, hsat, hyes, hclean => by
    rw [constrain]
    rw [evalBool] at hyes
    exact constrainAll_sat hm ops hsat (evalConn_conj.mp hyes).2 hclean
  | .conn .disj ops, _, hsat, _, _ => by
    rw [constrain]
    · exact hsat
    · simp
    · simp
  | .btrue, _, hsat, _, _ => hsat
  | .bfalse, _, hsat, _, _ => hsat
  | .bundef, _, hsat, _, _ => hsat
  | .neg a, _, hsat, _, _ => hsat

theorem constrainAll_sat (hm : MachineWord w) :
    (gs : List BExpr) → ∀ {env : Constraints}, env.Sat w →
    (∀ g ∈ gs, evalBool w g = .ok .yes) →
    (∀ x ∈ conjunctsAll gs, x.1 ≠ .neq → ∀ p v, w[p]? = some v →
      (x.2.1 = .var p → readAsZero x.2.2 = true → cmpEval x.1 v 0 = true) ∧
      (x.2.2 = .var p → readAsZero x.2.1 = true → cmpEval x.1 0 v = true)) →
    (constrainAll gs env).Sat w
  | [], _, hsat, _, _ => hsat
  | g :: gs, _, hsat, hyes, hclean => by
    obtain ⟨hg, hgs⟩ := List.forall_mem_cons.mp hyes
    rw [constrainAll]
    refine constrainAll_sat hm gs (constrain_sat hm g hsat hg fun x hx => ?_) hgs fun x hx => ?_
    · exact hclean x (List.mem_append_left _ hx)
    · exact hclean x (List.mem_append_right _ hx)

end

end Constrain

/-! ## Units -/

section Units

variable {u : Roots} {p q a b : Nat}

/-- A union never separates. -/
theorem unite_same (h : u p = u q) : unite u a b p = unite u a b q := by
  unfold unite
  rw [h]

theorem unite_le (h : ∀ p, u p ≤ p) : ∀ p, unite u a b p ≤ p := by
  intro p
  unfold unite
  split
  · next heq =>
    have hp := h p
    omega
  · exact h p

theorem unite_joins (u : Roots) (a b : Nat) : unite u a b a = unite u a b b := by
  unfold unite
  rcases le_total (u a) (u b) with h | h
  · rw [max_eq_right h, min_eq_left h, if_pos (rfl : u b = u b)]
    split
    · rfl
    · rfl
  · rw [max_eq_left h, min_eq_right h, if_pos (rfl : u a = u a)]
    split
    · rfl
    · rfl

section Induction

variable {P : Roots → Prop} (hP : ∀ u a b, P u → P (unite u a b))

include hP

/-- What a union keeps, the unions of a model keep. -/
theorem uniteAll_ind {ps : List Nat} {u : Roots} (h : P u) : P (uniteAll u ps) := by
  cases ps with
  | nil => exact h
  | cons x ps =>
    have hfold : ∀ (ps : List Nat) (u : Roots), P u → P (ps.foldl (fun u y => unite u x y) u) := by
      intro ps
      induction ps with
      | nil => exact fun u h => h
      | cons y ps ih => exact fun u h => ih _ (hP u x y h)
    exact hfold ps u h

omit hP in
mutual

theorem uniteArrayNodes_ind (hP : ∀ u a b, P u → P (unite u a b)) : (e : IExpr) →
    ∀ {u : Roots}, P u → P (uniteArrayNodes u e)
  | .array _ index, _, h => uniteArrayNodes_ind hP index (uniteAll_ind hP h)
  | .nary _ ops, _, h => uniteArrayNodesAll_ind hP ops h
  | .binary _ x y, _, h => uniteArrayNodes_ind hP y (uniteArrayNodes_ind hP x h)
  | .bitComp x, _, h => uniteArrayNodes_ind hP x h
  | .undef, _, h => h
  | .const _, _, h => h
  | .var _, _, h => h
  | .wrapBool _, _, h => h

theorem uniteArrayNodesAll_ind (hP : ∀ u a b, P u → P (unite u a b)) : (xs : List IExpr) →
    ∀ {u : Roots}, P u → P (uniteArrayNodesAll u xs)
  | [], _, h => h
  | x :: xs, _, h => uniteArrayNodesAll_ind hP xs (uniteArrayNodes_ind hP x h)

end

theorem uniteIndex_ind {t : Target} {u : Roots} (h : P u) : P (uniteIndex u t) := by
  unfold uniteIndex
  cases t.index with
  | none => exact h
  | some e => exact uniteArrayNodes_ind hP e h

theorem uniteAction_ind {x : Action} {u : Roots} (h : P u) : P (uniteAction u x) := by
  cases x with
  | assign lhs rhs =>
    exact uniteIndex_ind hP (uniteArrayNodes_ind hP rhs (uniteAll_ind hP h))
  | havoc lhs lo hi => exact uniteIndex_ind hP (uniteAll_ind hP h)

theorem foldl_uniteAction_ind {c : Clause} : ∀ {u : Roots}, P u → P (c.foldl uniteAction u) := by
  induction c with
  | nil => exact fun h => h
  | cons x c ih => exact fun h => ih (uniteAction_ind hP h)

theorem foldl_clauses_ind {cs : List Clause} : ∀ {u : Roots}, P u →
    P (cs.foldl (fun u c => c.foldl uniteAction u) u) := by
  induction cs with
  | nil => exact fun h => h
  | cons c cs ih => exact fun h => ih (foldl_uniteAction_ind hP h)

end Induction

/-- The cells of an array are one unit. -/
def OneUnit (u : Roots) (cells : List Nat) : Prop := ∀ q ∈ cells, u q = u (cells.headD 0)

theorem unite_keeps (p q : Nat) : ∀ (u : Roots) (a b : Nat), u p = u q →
    unite u a b p = unite u a b q := fun _ _ _ => unite_same

theorem uniteAll_one (u : Roots) (ps : List Nat) : OneUnit (uniteAll u ps) ps := by
  cases ps with
  | nil => exact fun q hq => absurd hq (by simp)
  | cons x ps =>
    have hkeep : ∀ (ps : List Nat) (u : Roots) (y : Nat), u y = u x →
        (ps.foldl (fun u z => unite u x z) u) y = (ps.foldl (fun u z => unite u x z) u) x := by
      intro ps
      induction ps with
      | nil => exact fun u y h => h
      | cons z ps ih => exact fun u y h => ih _ y (unite_same h)
    have hfold : ∀ (ps : List Nat) (u : Roots), ∀ y ∈ ps,
        (ps.foldl (fun u z => unite u x z) u) y = (ps.foldl (fun u z => unite u x z) u) x := by
      intro ps
      induction ps with
      | nil => exact fun u y hy => absurd hy (by simp)
      | cons z ps ih =>
        intro u y hy
        rcases List.mem_cons.mp hy with rfl | hy
        · exact hkeep ps _ y (unite_joins u x y).symm
        · exact ih _ y hy
    intro q hq
    rcases List.mem_cons.mp hq with rfl | hq
    · rfl
    · exact hfold ps u q hq

/-- The target of an action is one unit, and so is an array it copies from. -/
structure ActionUnits (u : Roots) (x : Action) : Prop where
  target : OneUnit u x.cells
  source : ∀ lhs cells index, x = .assign lhs (.array cells index) → OneUnit u cells

theorem OneUnit.mono {u u' : Roots} (h : ∀ p q, u p = u q → u' p = u' q) {cells : List Nat}
    (hone : OneUnit u cells) : OneUnit u' cells := fun q hq => h q _ (hone q hq)

theorem ActionUnits.mono {u u' : Roots} (h : ∀ p q, u p = u q → u' p = u' q) {x : Action}
    (hx : ActionUnits u x) : ActionUnits u' x :=
  ⟨hx.target.mono h, fun lhs cells index he => (hx.source lhs cells index he).mono h⟩

theorem uniteAction_units (u : Roots) (x : Action) : ActionUnits (uniteAction u x) x := by
  cases x with
  | havoc lhs lo hi =>
    refine ⟨?_, fun _ _ _ he => by cases he⟩
    exact (uniteAll_one u lhs.cells).mono fun p q h => uniteIndex_ind (unite_keeps p q) h
  | assign lhs rhs =>
    refine ⟨?_, fun lhs' cells index he => ?_⟩
    · exact (uniteAll_one u lhs.cells).mono fun p q h =>
        uniteIndex_ind (unite_keeps p q) (uniteArrayNodes_ind (unite_keeps p q) rhs h)
    · cases he
      exact (uniteAll_one _ cells).mono fun p q h =>
        uniteIndex_ind (unite_keeps p q) (uniteArrayNodes_ind (unite_keeps p q) index h)

theorem foldl_uniteAction_units {c : Clause} : ∀ {u : Roots},
    ∀ x ∈ c, ActionUnits (c.foldl uniteAction u) x := by
  induction c with
  | nil => exact fun x hx => absurd hx (by simp)
  | cons y c ih =>
    intro u x hx
    rcases List.mem_cons.mp hx with rfl | hx
    · exact (uniteAction_units u x).mono fun p q h => foldl_uniteAction_ind (unite_keeps p q) h
    · exact ih x hx

/-- Every action of every update of the model, in the units of the model. -/
theorem Model.units_spec (m : Model) (groups : List (List Nat)) {evt : Event}
    (hevt : evt ∈ m.events) : ∀ c ∈ evt.root.updates, ∀ x ∈ c, ActionUnits (m.units groups) x := by
  have hfold : ∀ (cs : List Clause) (u : Roots), ∀ c ∈ cs, ∀ x ∈ c,
      ActionUnits (cs.foldl (fun u c => c.foldl uniteAction u) u) x := by
    intro cs
    induction cs with
    | nil => exact fun u c hc => absurd hc (by simp)
    | cons d cs ih =>
      intro u c hc x hx
      rcases List.mem_cons.mp hc with rfl | hc
      · exact (foldl_uniteAction_units x hx).mono fun p q h =>
          foldl_clauses_ind (unite_keeps p q) h
      · exact ih _ c hc x hx
  exact fun c hc => hfold _ _ c (List.mem_flatMap.mpr ⟨evt, hevt, hc⟩)

/-- A root is the least position of its unit, or below it. -/
theorem Model.units_le (m : Model) (groups : List (List Nat)) (p : Nat) :
    m.units groups p ≤ p := by
  have hunite : ∀ (u : Roots) (a b : Nat), (∀ p, u p ≤ p) → ∀ p, unite u a b p ≤ p :=
    fun _ _ _ => unite_le
  have hgroups : ∀ (gs : List (List Nat)) (u : Roots), (∀ p, u p ≤ p) →
      ∀ p, gs.foldl uniteAll u p ≤ p := by
    intro gs
    induction gs with
    | nil => exact fun u h => h
    | cons g gs ih => exact fun u h => ih _ (uniteAll_ind hunite h)
  exact foldl_clauses_ind hunite (hgroups groups id fun _ => Nat.le_refl _) p

end Units

/-! ## Right-hand sides -/

section Rhs

variable {w : Word}

theorem plusOffset_cons {op : IExpr} {ops : List IExpr} {var : Option Nat} {off : Int}
    {r : Nat × Int} (h : plusOffset (op :: ops) var off = some r) :
    (∃ c, op = .const c ∧ plusOffset ops var (off + c) = some r) ∨
      ∃ p, op = .var p ∧ var = none ∧ plusOffset ops (some p) off = some r := by
  cases op with
  | const c =>
    refine .inl ⟨c, rfl, ?_⟩
    cases hc : isConst (.const c) with
    | true => simpa [plusOffset, hc] using h
    | false => simp [plusOffset, hc] at h
  | var p =>
    cases var with
    | none => exact .inr ⟨p, rfl, rfl, by simpa [plusOffset, isConst] using h⟩
    | some q => simp [plusOffset, isConst] at h
  | undef => simp [plusOffset, isConst] at h
  | nary k xs => simp [plusOffset, isConst] at h
  | binary k a b => simp [plusOffset, isConst] at h
  | bitComp a => simp [plusOffset, isConst] at h
  | array cells index => simp [plusOffset, isConst] at h
  | wrapBool b => simp [plusOffset, isConst] at h

/-- A sum of one scalar and inline constants. By induction on the operands: `var` is the
scalar met so far, `off` the constants, `acc` what the evaluation has summed. -/
theorem plusOffset_spec {pos : Nat} {o : Int} : ∀ {ops : List IExpr} {var : Option Nat}
    {off acc v : Int}, plusOffset ops var off = some (pos, o) →
    evalNary w .plus acc ops = .ok (some v) →
    (∀ p, var = some p → ∃ x, w[p]? = some x ∧ acc = x + off) →
    (var = none → acc = off) → ∃ x, w[pos]? = some x ∧ v = x + o := by
  intro ops
  induction ops with
  | nil =>
    intro var off acc v hplus heval hsome hnone
    cases heval
    cases var with
    | none => cases hplus
    | some p =>
      unfold plusOffset at hplus
      split at hplus
      · cases hplus
      · cases hplus
        exact hsome _ rfl
  | cons op ops ih =>
    intro var off acc v hplus heval hsome hnone
    rw [evalNary] at heval
    obtain ⟨r, hr, hrest⟩ := bind_eq_ok.mp heval
    cases r with
    | none => cases hrest
    | some x =>
      obtain ⟨acc', hacc', hnext⟩ := bind_eq_ok.mp hrest
      have hsum : acc' = acc + x := by
        unfold check32 at hacc'
        split at hacc'
        · cases hacc'
          rfl
        · cases hacc'
      subst hsum
      rcases plusOffset_cons hplus with ⟨c, rfl, htail⟩ | ⟨p, rfl, rfl, htail⟩
      · cases hr
        refine ih htail hnext (fun p hp => ?_) fun hn => ?_
        · obtain ⟨y, hy, hacc⟩ := hsome p hp
          exact ⟨y, hy, by omega⟩
        · rw [hnone hn]
      · refine ih htail hnext (fun q hq => ?_) fun hn => by cases hn
        cases hq
        exact ⟨x, evalInt_var hr, by rw [hnone rfl]; omega⟩

/-- The value of an affine right-hand side is the scalar shifted, inside the machine range
where the scalar is. -/
theorem varOffset_spec {e : IExpr} {pos : Nat} {o v : Int} (h : varOffset e = some (pos, o))
    (hv : evalInt w e = .ok (some v)) : ∃ x, w[pos]? = some x ∧ v = x + o := by
  unfold varOffset at h
  split at h
  · cases h
    exact ⟨v, evalInt_var hv, by omega⟩
  · rw [evalInt] at hv
    exact plusOffset_spec h hv (fun p hp => by cases hp) fun _ => rfl
  · next p c =>
    split at h
    · cases h
      rw [evalInt] at hv
      obtain ⟨l, hl, hv⟩ := bind_eq_ok.mp hv
      cases l with
      | none => cases hv
      | some l =>
        refine ⟨l, evalInt_var hl, ?_⟩
        simp only [evalInt, bind, Except.bind, foldStep, check32] at hv
        split at hv
        · cases hv
        · next hok =>
          cases hv
          split at hok
          · cases hok
            omega
          · cases hok
    · cases h
  · cases h

end Rhs

/-! ## The walk -/

/-- Nothing is lost from one stage of the walk to a later one. -/
structure Inference.Le (i j : Inference) : Prop where
  doms : DomsLe i.doms j.doms
  edges : ∀ e ∈ i.edges, e ∈ j.edges

namespace Inference

variable {i j k : Inference}

theorem Le.refl (i : Inference) : i.Le i := ⟨fun _ _ h => h, fun _ h => h⟩

theorem Le.trans (h : i.Le j) (h' : j.Le k) : i.Le k :=
  ⟨fun p v hv => h'.doms p v (h.doms p v hv), fun e he => h'.edges e (h.edges e he)⟩

theorem le_onDom {dst : Nat} {f : Dom → Dom × Bool} (hf : ∀ d v, d.Has v → (f d).1.Has v) :
    i.Le (i.onDom dst f) :=
  ⟨domsLe_update fun v hv => hf _ v hv, fun _ h => h⟩

theorem le_addValue {dst : Nat} {w : Int} : i.Le (i.onDom dst (Dom.addValue w)) :=
  le_onDom fun _ _ h => Dom.has_addValue (.inl h)

theorem le_addInterval {dst : Nat} {l h : Int} : i.Le (i.onDom dst (Dom.addInterval l h)) :=
  le_onDom fun _ _ h => Dom.has_addInterval (.inl h)

theorem le_blunt {win : Constraints} {dst : Nat} : i.Le (i.blunt win dst) := by
  unfold blunt
  split
  · exact le_addInterval
  · exact le_onDom fun _ _ _ => Dom.has_toTop

theorem le_addEdge {e : Edge} : i.Le (i.addEdge e) :=
  ⟨fun _ _ h => h, fun _ h => List.mem_append_left _ h⟩

end Inference

section Sound

variable {root : Roots} {win : Constraints}

theorem classifyRhs_le {env : Constraints} {dst : Nat} {rhs : IExpr} {i : Inference} :
    i.Le (classifyRhs root win env dst rhs i) := by
  unfold classifyRhs
  split
  · exact Inference.le_addEdge
  · split
    · exact Inference.le_addValue
    · exact Inference.le_addEdge
    · split
      · exact ⟨Inference.le_addInterval.doms, fun _ h => h⟩
      · exact Inference.le_blunt
    · exact Inference.le_addValue.trans Inference.le_addValue
    · exact Inference.le_blunt

theorem foldl_addValue_le {dst : Nat} {vs : List Int} : ∀ {i : Inference},
    i.Le (vs.foldl (fun i v => i.onDom dst (Dom.addValue v)) i) := by
  induction vs with
  | nil => exact fun {i} => Inference.Le.refl i
  | cons v vs ih => exact fun {i} => Inference.le_addValue.trans ih

theorem classifyAction_le {env : Constraints} {i : Inference} {a : Action} :
    i.Le (classifyAction root win env i a) := by
  have hmark : ∀ f : Nat → Bool, i.Le { i with assigned := f } :=
    fun _ => ⟨fun _ _ h => h, fun _ h => h⟩
  cases a with
  | assign lhs rhs => exact (hmark _).trans classifyRhs_le
  | havoc lhs lo hi =>
    simp only [classifyAction]
    split
    · exact hmark _
    · split
      · exact (hmark _).trans foldl_addValue_le
      · exact (hmark _).trans Inference.le_addInterval

theorem classify_le {env : Constraints} {c : Clause} : ∀ {i : Inference},
    i.Le (classify root win env c i) := by
  induction c with
  | nil => exact fun {i} => Inference.Le.refl i
  | cons a c ih => exact fun {i} => classifyAction_le.trans ih

mutual

theorem walk_le : (t : Term) → ∀ {env : Constraints} {i : Inference},
    i.Le (walk root win t env i).2.2
  | .filter _, _, i => Inference.Le.refl i
  | .update _, _, _ => classify_le
  | .seq kids, _, _ => walkSeq_le kids
  | .alt kids, _, _ => walkAlt_le kids
  | .abort, _, i => Inference.Le.refl i

theorem walkSeq_le : (ts : List Term) → ∀ {env : Constraints} {i : Inference},
    i.Le (walkSeq root win ts env i).2.2
  | [], _, i => Inference.Le.refl i
  | t :: ts, _, _ => (walk_le t).trans (walkSeq_le ts)

theorem walkAlt_le : (ts : List Term) → ∀ {env : Constraints} {i : Inference},
    i.Le (walkAlt root win ts env i).2
  | [], _, i => Inference.Le.refl i
  | t :: ts, _, _ => (walk_le t).trans (walkAlt_le ts)

end

/-- The final domains hold what a stage of the walk has collected. -/
structure Covers (win : Constraints) (D : Nat → Dom) (i : Inference) : Prop where
  doms : DomsLe i.doms D
  edges : ∀ e ∈ i.edges, e.Closed win D

theorem Covers.of_le {D : Nat → Dom} {i j : Inference} (hc : Covers win D j) (h : i.Le j) :
    Covers win D i :=
  ⟨fun p v hv => hc.doms p v (h.doms p v hv), fun e he => hc.edges e (h.edges e he)⟩

/-- Every value of the state is in the domain of its unit. -/
def Held (root : Roots) (D : Nat → Dom) (w : Word) : Prop :=
  ∀ (p : Nat) v, w[p]? = some v → (D (root p)).Has v

theorem strictInt_eq_ok {w : Word} {e : IExpr} {v : Int} :
    strictInt w e = .ok v ↔ evalInt w e = .ok (some v) := by
  unfold strictInt
  cases evalInt w e with
  | error err => simp [bind, Except.bind]
  | ok r =>
    cases r with
    | none => simp [bind, Except.bind]
    | some x => simp [bind, Except.bind, pure, Except.pure]

theorem evalInt_array {w : Word} {cells : List Nat} {index : IExpr} {v : Int}
    (h : evalInt w (.array cells index) = .ok (some v)) : ∃ q ∈ cells, w[q]? = some v := by
  rw [evalInt] at h
  obtain ⟨i, -, h⟩ := bind_eq_ok.mp h
  cases i with
  | none => cases h
  | some i =>
    dsimp only at h
    split at h
    · cases h
    · split at h
      · cases h
      · next q hq =>
        split at h
        · next x hx =>
          cases h
          exact ⟨q, List.mem_of_getElem? hq, hx⟩
        · cases h

theorem evalInt_mod_lt {w : Word} {a : IExpr} {k v : Int} (hk : 0 < k)
    (h : evalInt w (.binary .mod a (.const k)) = .ok (some v)) : v < k := by
  rw [evalInt] at h
  obtain ⟨l, -, h⟩ := bind_eq_ok.mp h
  cases l with
  | none => cases h
  | some l =>
    simp only [evalInt, bind, Except.bind, foldStep] at h
    rw [if_neg (by omega)] at h
    unfold check32 at h
    split at h
    · cases h
    · next hok =>
      cases h
      split at hok
      · cases hok
        exact Int.tmod_lt_of_pos l hk
      · cases hok

theorem evalInt_wrap {w : Word} {b : BExpr} {v : Int}
    (h : evalInt w (.wrapBool b) = .ok (some v)) : v = 0 ∨ v = 1 := by
  rw [evalInt] at h
  obtain ⟨t, -, h⟩ := bind_eq_ok.mp h
  cases t with
  | yes =>
    cases h
    exact .inr rfl
  | no =>
    cases h
    exact .inl rfl
  | undef => cases h

variable {D : Nat → Dom} {w : Word}

theorem has_of_onDom {i : Inference} {dst : Nat} {f : Dom → Dom × Bool} {v : Int}
    (hc : Covers win D (i.onDom dst f)) (hv : (f (i.doms dst)).1.Has v) : (D dst).Has v := by
  refine hc.doms dst v ?_
  show (Function.update i.doms dst (f (i.doms dst)).1 dst).Has v
  rwa [Function.update_self]

theorem has_of_blunt {i : Inference} {dst : Nat} {v : Int} (hc : Covers win D (i.blunt win dst))
    (hwin : ∀ lo hi, win dst = some (lo, hi) → lo ≤ v ∧ v ≤ hi) : (D dst).Has v := by
  unfold Inference.blunt at hc
  split at hc
  · next lo hi heq => exact has_of_onDom hc (Dom.has_addInterval (.inr (hwin lo hi heq)))
  · exact has_of_onDom hc Dom.has_toTop

/-- A value an assignment computes is in the domain of its unit: directly, or through the edge
the assignment left. -/
theorem classifyRhs_sound {env : Constraints} {dst : Nat} {rhs : IExpr} {i : Inference} {v : Int}
    (hc : Covers win D (classifyRhs root win env dst rhs i)) (hheld : Held root D w)
    (hm : MachineWord w) (hsat : env.Sat w) (hv : strictInt w rhs = .ok v)
    (hmv : kMin ≤ v ∧ v ≤ kMax) (hwin : ∀ lo hi, win dst = some (lo, hi) → lo ≤ v ∧ v ≤ hi)
    (hmod : (remainderBy rhs).isSome → 0 ≤ v)
    (hunit : ∀ cells index, rhs = .array cells index → OneUnit root cells) :
    (D dst).Has v := by
  rw [strictInt_eq_ok] at hv
  unfold classifyRhs at hc
  split at hc
  · next pos off hvo =>
    obtain ⟨x, hx, rfl⟩ := varOffset_spec hvo hv
    have hrange : ((env pos).getD (kMin, kMax)).1 ≤ x ∧ x ≤ ((env pos).getD (kMin, kMax)).2 := by
      cases henv : env pos with
      | none => exact hm pos x hx
      | some y => exact hsat pos y.1 y.2 henv x hx
    exact hc.edges _ (List.mem_append_right _ (List.mem_singleton.mpr rfl)) x
      (hheld pos x hx) hrange.1 hrange.2 hmv.1 hmv.2 hwin
  · split at hc
    · cases hv
      exact has_of_onDom hc (Dom.has_addValue (.inr rfl))
    · next cells index _ =>
      obtain ⟨q, hq, hval⟩ := evalInt_array hv
      have hsrc : (D (root (cells.headD 0))).Has v := hunit cells index rfl q hq ▸ hheld q v hval
      have hedge := hc.edges _ (List.mem_append_right _ (List.mem_singleton.mpr rfl)) v hsrc
        hmv.1 hmv.2
      simp only [Int.add_zero] at hedge
      exact hedge hmv.1 hmv.2 hwin
    · next a k _ =>
      split at hc
      · next hk =>
        have hlt := evalInt_mod_lt hk.2 hv
        have hpos := hmod (by simp [remainderBy, hk])
        have hc' : Covers win D (i.onDom dst (Dom.addInterval 0 (k - 1))) := ⟨hc.doms, hc.edges⟩
        exact has_of_onDom hc' (Dom.has_addInterval (.inr ⟨hpos, by omega⟩))
      · exact has_of_blunt hc hwin
    · rcases evalInt_wrap hv with rfl | rfl
      · exact has_of_onDom (hc.of_le Inference.le_addValue) (Dom.has_addValue (.inr rfl))
      · exact has_of_onDom hc (Dom.has_addValue (.inr rfl))
    · exact has_of_blunt hc hwin

/-- What an action may write at a position. -/
def Writes (w : Word) : Action → Nat → Int → Prop
  | .assign lhs rhs, p, v => resolve lhs w = .ok p ∧ strictInt w rhs = .ok v
  | .havoc lhs lo hi, p, v => resolve lhs w = .ok p ∧ lo ≤ v ∧ v < hi

theorem resolve_mem {t : Target} {p : Nat} (h : resolve t w = .ok p) : p ∈ t.cells := by
  unfold resolve at h
  split at h
  · split at h
    · next q hq =>
      cases h
      exact List.mem_of_mem_head? hq
    · cases h
  · obtain ⟨i, -, h⟩ := bind_eq_ok.mp h
    split at h
    · cases h
    · split at h
      · next q hq =>
        cases h
        exact List.mem_of_getElem? hq
      · cases h

theorem Writes.mem {a : Action} {p : Nat} {v : Int} (h : Writes w a p v) : p ∈ a.cells := by
  cases a with
  | assign lhs rhs => exact resolve_mem h.1
  | havoc lhs lo hi => exact resolve_mem h.1

theorem foldl_addValue_has {dst : Nat} {v : Int} {vs : List Int} (hv : v ∈ vs) :
    ∀ {i : Inference}, Covers win D (vs.foldl (fun i v => i.onDom dst (Dom.addValue v)) i) →
    (D dst).Has v := by
  induction vs with
  | nil => cases hv
  | cons x vs ih =>
    intro i hc
    rcases List.mem_cons.mp hv with rfl | hv
    · exact has_of_onDom (hc.of_le foldl_addValue_le) (Dom.has_addValue (.inr rfl))
    · exact ih hv hc

theorem classifyAction_sound {env : Constraints} {i : Inference} {a : Action} {p : Nat} {v : Int}
    (hc : Covers win D (classifyAction root win env i a)) (hu : ActionUnits root a)
    (hheld : Held root D w) (hm : MachineWord w) (hsat : env.Sat w) (hclean : ActionClean w a)
    (hw : Writes w a p v) (hmv : kMin ≤ v ∧ v ≤ kMax)
    (hwin : ∀ lo hi, win (root p) = some (lo, hi) → lo ≤ v ∧ v ≤ hi) : (D (root p)).Has v := by
  have hp : root p = root (a.cells.headD 0) := hu.target p hw.mem
  cases a with
  | assign lhs rhs =>
    rw [hp] at hwin ⊢
    exact classifyRhs_sound hc hheld hm hsat hw.2 hmv hwin (fun h => hclean h v hw.2)
      fun cells index he => hu.source lhs cells index (by rw [he])
  | havoc lhs lo hi =>
    rw [hp]
    obtain ⟨-, h1, h2⟩ := hw
    simp only [classifyAction] at hc
    rw [if_neg (by omega)] at hc
    split at hc
    · refine foldl_addValue_has ?_ hc
      exact List.mem_map.mpr ⟨(v - lo).toNat, List.mem_range.mpr (by omega), by omega⟩
    · exact has_of_onDom hc (Dom.has_addInterval (.inr ⟨h1, by omega⟩))

theorem classify_sound {env : Constraints} {c : Clause} {a : Action} (ha : a ∈ c) :
    ∀ {i : Inference}, Covers win D (classify root win env c i) →
    ∃ j, Covers win D (classifyAction root win env j a) := by
  induction c with
  | nil => cases ha
  | cons x c ih =>
    intro i hc
    rcases List.mem_cons.mp ha with rfl | ha
    · exact ⟨i, hc.of_le classify_le⟩
    · exact ih ha hc

theorem gather_writes {c : Clause} : ∀ {writes : List (Nat × Int)} {havocs : List Havoc},
    gather w c = .ok (writes, havocs) →
    (∀ x ∈ writes, ∃ a ∈ c, Writes w a x.1 x.2) ∧
      ∀ h ∈ havocs, ∃ a ∈ c, ∀ v, h.lo ≤ v → v < h.hi → Writes w a h.pos v := by
  induction c with
  | nil =>
    intro writes havocs h
    cases h
    simp
  | cons a c ih =>
    intro writes havocs h
    cases a with
    | assign lhs rhs =>
      rw [gather] at h
      obtain ⟨pos, hpos, h⟩ := bind_eq_ok.mp h
      obtain ⟨v, hv, h⟩ := bind_eq_ok.mp h
      obtain ⟨⟨ws, hs⟩, hrest, h⟩ := bind_eq_ok.mp h
      cases h
      obtain ⟨h1, h2⟩ := ih hrest
      refine ⟨List.forall_mem_cons.mpr ⟨⟨_, List.mem_cons_self, hpos, hv⟩, fun x hx => ?_⟩,
        fun x hx => ?_⟩
      · obtain ⟨a, ha, hw⟩ := h1 x hx
        exact ⟨a, List.mem_cons_of_mem _ ha, hw⟩
      · obtain ⟨a, ha, hw⟩ := h2 x hx
        exact ⟨a, List.mem_cons_of_mem _ ha, hw⟩
    | havoc lhs lo hi =>
      rw [gather] at h
      obtain ⟨pos, hpos, h⟩ := bind_eq_ok.mp h
      obtain ⟨⟨ws, hs⟩, hrest, h⟩ := bind_eq_ok.mp h
      cases h
      obtain ⟨h1, h2⟩ := ih hrest
      refine ⟨fun x hx => ?_, List.forall_mem_cons.mpr
        ⟨⟨_, List.mem_cons_self, fun v hlo hhi => ⟨hpos, hlo, hhi⟩⟩, fun x hx => ?_⟩⟩
      · obtain ⟨a, ha, hw⟩ := h1 x hx
        exact ⟨a, List.mem_cons_of_mem _ ha, hw⟩
      · obtain ⟨a, ha, hw⟩ := h2 x hx
        exact ⟨a, List.mem_cons_of_mem _ ha, hw⟩

theorem write_getElem? (b : Branch) (pos : Nat) (v : Int) (p : Nat) :
    (b.write pos v).s[p]? = b.s[p]? ∨ (p = pos ∧ (b.write pos v).s[p]? = some v) := by
  by_cases hp : p = pos
  · subst hp
    by_cases hlt : p < b.s.length
    · exact .inr ⟨rfl, List.getElem?_set_self hlt⟩
    · refine .inl ?_
      rw [Branch.write, List.getElem?_eq_none (by simpa using hlt),
        List.getElem?_eq_none (by simpa using hlt)]
  · exact .inl (List.getElem?_set_ne (Ne.symm hp))

theorem writes_getElem? {ws : List (Nat × Int)} {p : Nat} : ∀ {b : Branch},
    (ws.foldl (fun b x => b.write x.1 x.2) b).s[p]? = b.s[p]? ∨
      ∃ x ∈ ws, x.1 = p ∧ (ws.foldl (fun b x => b.write x.1 x.2) b).s[p]? = some x.2 := by
  induction ws with
  | nil => exact .inl rfl
  | cons x ws ih =>
    intro b
    rw [List.foldl_cons]
    rcases ih (b := b.write x.1 x.2) with h | ⟨y, hy, hp, h⟩
    · rw [h]
      rcases write_getElem? b x.1 x.2 p with h | ⟨rfl, h⟩
      · exact .inl h
      · exact .inr ⟨x, by simp, rfl, h⟩
    · exact .inr ⟨y, List.mem_cons_of_mem _ hy, hp, h⟩

theorem forks_getElem? {hs : List Havoc} {b' : Branch} : ∀ {forks : List Branch},
    b' ∈ hs.foldl (fun forks h => fork h forks) forks → ∃ b ∈ forks, ∀ p,
      b'.s[p]? = b.s[p]? ∨ ∃ h ∈ hs, h.pos = p ∧ ∃ v, h.lo ≤ v ∧ v < h.hi ∧ b'.s[p]? = some v := by
  induction hs with
  | nil => exact fun hb => ⟨b', hb, fun p => .inl rfl⟩
  | cons h hs ih =>
    intro forks hb
    obtain ⟨mid, hmid, hstep⟩ := ih hb
    obtain ⟨b, hbmem, hmid⟩ := List.mem_flatMap.mp hmid
    obtain ⟨v, hv, rfl⟩ := List.mem_map.mp hmid
    obtain ⟨k, hk, rfl⟩ := List.mem_map.mp hv
    have hk := List.mem_range.mp hk
    refine ⟨b, hbmem, fun p => ?_⟩
    rcases hstep p with heq | ⟨h', hh', hp, hrest⟩
    · rw [heq]
      rcases write_getElem? b h.pos (h.lo + k) p with hsame | ⟨rfl, hval⟩
      · exact .inl hsame
      · exact .inr ⟨h, by simp, rfl, h.lo + k, by omega, by omega, hval⟩
    · exact .inr ⟨h', List.mem_cons_of_mem _ hh', hp, hrest⟩

/-- After an update, a position holds what it held or what an action wrote. -/
theorem applyUpdate_writes {c : Clause} {b b' : Branch} {out : List Branch}
    (h : applyUpdate c b = .ok out) (hb : b' ∈ out) (p : Nat) :
    b'.s[p]? = b.s[p]? ∨ ∃ a ∈ c, ∃ v, Writes b.s a p v ∧ b'.s[p]? = some v := by
  unfold applyUpdate at h
  obtain ⟨⟨writes, havocs⟩, hgather, h⟩ := bind_eq_ok.mp h
  obtain ⟨h1, h2⟩ := gather_writes hgather
  dsimp only at h
  split at h
  · cases h
    obtain ⟨mid, hmid, hfork⟩ := forks_getElem? hb
    obtain rfl := List.mem_singleton.mp hmid
    rcases hfork p with heq | ⟨x, hx, rfl, v, hlo, hhi, hval⟩
    · rw [heq]
      rcases writes_getElem? (p := p) with hsame | ⟨x, hx, rfl, hval⟩
      · exact .inl hsame
      · obtain ⟨a, ha, hw⟩ := h1 x hx
        exact .inr ⟨a, ha, x.2, hw, hval⟩
    · obtain ⟨a, ha, hw⟩ := h2 x hx
      exact .inr ⟨a, ha, v, hw v hlo hhi, hval⟩
  · cases h

/-- What holds of a state along a clean run. -/
structure Kept (root : Roots) (win : Constraints) (D : Nat → Dom) (env : Constraints)
    (w : Word) : Prop where
  held : Held root D w
  window : InWindow root win w
  sat : env.Sat w

theorem InWindow.machine (h : InWindow root win w) : MachineWord w := fun p v hv => (h p v hv).1

theorem update_sound {env : Constraints} {c : Clause} {i : Inference} {b b' : Branch}
    {out : List Branch} (hc : Covers win D (classify root win env c i))
    (hu : ∀ a ∈ c, ActionUnits root a) (hb : Kept root win D env b.s)
    (hclean : ∀ a ∈ c, ActionClean b.s a) (h : applyUpdate c b = .ok out) (hb' : b' ∈ out)
    (hwin : InWindow root win b'.s) :
    Kept root win D (env.eraseAll (Clause.written c)) b'.s ∧
      ∀ p, p ∉ Clause.written c → b'.s[p]? = b.s[p]? := by
  have hsame : ∀ p, p ∉ Clause.written c → b'.s[p]? = b.s[p]? := by
    intro p hp
    refine (applyUpdate_writes h hb' p).resolve_right ?_
    rintro ⟨a, ha, v, hw, -⟩
    exact hp (List.mem_flatMap.mpr ⟨a, ha, hw.mem⟩)
  refine ⟨⟨fun p v hv => ?_, hwin, sat_eraseAll hb.sat hsame⟩, hsame⟩
  rcases applyUpdate_writes h hb' p with heq | ⟨a, ha, x, hw, hx⟩
  · rw [heq] at hv
    exact hb.held p v hv
  · obtain ⟨j, hj⟩ := classify_sound ha hc
    obtain ⟨hmv, hwv⟩ := hwin p v hv
    rw [hx] at hv
    cases hv
    exact classifyAction_sound hj (hu a ha) hb.held hb.window.machine hb.sat (hclean a ha) hw
      hmv hwv

theorem mem_keepDecided {g : BExpr} {b : Branch} : ∀ {bs out : List Branch},
    keepDecided g bs = .ok out → b ∈ out → b ∈ bs ∧ evalBool b.s g = .ok .yes := by
  intro bs
  induction bs with
  | nil =>
    intro out h hb
    cases h
    cases hb
  | cons x bs ih =>
    intro out h hb
    rw [keepDecided] at h
    obtain ⟨kept, hkept, h⟩ := bind_eq_ok.mp h
    obtain ⟨rest, hrest, h⟩ := bind_eq_ok.mp h
    cases h
    have htail : b ∈ rest → b ∈ x :: bs ∧ evalBool b.s g = .ok .yes := fun hb =>
      ⟨List.mem_cons_of_mem _ (ih hrest hb).1, (ih hrest hb).2⟩
    cases kept with
    | false => exact htail hb
    | true =>
      rcases List.mem_cons.mp hb with rfl | hb
      · refine ⟨by simp, ?_⟩
        unfold decideGuard at hkept
        obtain ⟨t, ht, hkept⟩ := bind_eq_ok.mp hkept
        cases t with
        | yes => exact ht
        | no => cases hkept
        | undef => cases hkept
      · exact htail hb

theorem mem_updateAll {c : Clause} {b' : Branch} : ∀ {bs out : List Branch},
    updateAll c bs = .ok out → b' ∈ out → ∃ b ∈ bs, ∃ o, applyUpdate c b = .ok o ∧ b' ∈ o := by
  intro bs
  induction bs with
  | nil =>
    intro out h hb
    cases h
    cases hb
  | cons x bs ih =>
    intro out h hb
    rw [updateAll] at h
    obtain ⟨next, hnext, h⟩ := bind_eq_ok.mp h
    obtain ⟨rest, hrest, h⟩ := bind_eq_ok.mp h
    cases h
    rcases List.mem_append.mp hb with hb | hb
    · exact ⟨x, by simp, next, hnext, hb⟩
    · obtain ⟨b, hbmem, o, ho, hbo⟩ := ih hrest hb
      exact ⟨b, List.mem_cons_of_mem _ hbmem, o, ho, hbo⟩

mutual

/-- A term keeps every value in the domain of its unit, meets the constraints the walk leaves
live, and changes only the cells the walk returns. One case for each kind of term. -/
theorem walk_sound : (t : Term) → ∀ {env : Constraints} {i : Inference},
    Covers win D (walk root win t env i).2.2 →
    (∀ c ∈ t.updates, ∀ a ∈ c, ActionUnits root a) → ∀ {bs out : List Branch},
    Clean root win t bs → interp t bs = .ok out → (∀ b ∈ bs, Kept root win D env b.s) →
    ∀ b' ∈ out, ∃ b ∈ bs, Kept root win D (walk root win t env i).1 b'.s ∧
      ∀ p, p ∉ (walk root win t env i).2.1 → b'.s[p]? = b.s[p]?
  | .filter g, env, i, _, _, bs, out, hclean, h, hbs, b', hb' => by
    rw [interp] at h
    rw [Clean] at hclean
    obtain ⟨hmem, hyes⟩ := mem_keepDecided h hb'
    have hk := hbs b' hmem
    refine ⟨b', hmem, ⟨hk.held, hk.window, ?_⟩, fun _ _ => rfl⟩
    rw [walk]
    exact constrain_sat hk.window.machine g hk.sat hyes (hclean b' hmem hyes)
  | .update c, env, i, hc, hu, bs, out, hclean, h, hbs, b', hb' => by
    rw [interp] at h
    rw [Clean] at hclean
    rw [walk] at hc ⊢
    obtain ⟨b, hbmem, o, ho, hbo⟩ := mem_updateAll h hb'
    obtain ⟨hacts, hwin⟩ := hclean b hbmem
    obtain ⟨hkept, hsame⟩ := update_sound hc (hu c (by simp [Term.updates])) (hbs b hbmem)
      hacts ho hbo (hwin o ho b' hbo)
    exact ⟨b, hbmem, hkept, hsame⟩
  | .seq kids, env, i, hc, hu, bs, out, hclean, h, hbs, b', hb' => by
    rw [interp] at h
    rw [Clean] at hclean
    rw [walk] at hc ⊢
    rw [Term.updates] at hu
    exact walkSeq_sound kids hc hu hclean h hbs b' hb'
  | .alt kids, env, i, hc, hu, bs, out, hclean, h, hbs, b', hb' => by
    rw [interp] at h
    rw [Clean] at hclean
    rw [walk] at hc ⊢
    rw [Term.updates] at hu
    obtain ⟨b, hbmem, hheld, hwin, hsame⟩ := walkAlt_sound kids hc hu hclean h hbs b' hb'
    exact ⟨b, hbmem, ⟨hheld, hwin, sat_eraseAll (hbs b hbmem).sat hsame⟩, hsame⟩
  | .abort, env, i, _, _, bs, out, _, h, _, b', hb' => by
    rw [interp] at h
    cases h
    cases hb'

theorem walkSeq_sound : (ts : List Term) → ∀ {env : Constraints} {i : Inference},
    Covers win D (walkSeq root win ts env i).2.2 →
    (∀ c ∈ Term.updatesAll ts, ∀ a ∈ c, ActionUnits root a) → ∀ {bs out : List Branch},
    CleanSeq root win ts bs → interpSeq ts bs = .ok out →
    (∀ b ∈ bs, Kept root win D env b.s) →
    ∀ b' ∈ out, ∃ b ∈ bs, Kept root win D (walkSeq root win ts env i).1 b'.s ∧
      ∀ p, p ∉ (walkSeq root win ts env i).2.1 → b'.s[p]? = b.s[p]?
  | [], env, i, _, _, bs, out, _, h, hbs, b', hb' => by
    rw [interpSeq] at h
    cases h
    exact ⟨b', hb', hbs b' hb', fun _ _ => rfl⟩
  | t :: ts, env, i, hc, hu, bs, out, hclean, h, hbs, b', hb' => by
    rw [interpSeq] at h
    rw [CleanSeq] at hclean
    rw [walkSeq] at hc ⊢
    obtain ⟨mid, hmid, h⟩ := bind_eq_ok.mp h
    split at h
    · cases h
      cases hb'
    · have hu1 : ∀ c ∈ t.updates, ∀ a ∈ c, ActionUnits root a :=
        fun c hcm => hu c (List.mem_append_left _ hcm)
      have hu2 : ∀ c ∈ Term.updatesAll ts, ∀ a ∈ c, ActionUnits root a :=
        fun c hcm => hu c (List.mem_append_right _ hcm)
      have hfirst := walk_sound t (hc.of_le (walkSeq_le ts)) hu1 hclean.1 hmid hbs
      have hmidKept : ∀ b ∈ mid, Kept root win D (walk root win t env i).1 b.s := by
        intro b hb
        obtain ⟨-, -, hk, -⟩ := hfirst b hb
        exact hk
      obtain ⟨b₁, hb₁, hk, hsame⟩ :=
        walkSeq_sound ts hc hu2 (hclean.2 mid hmid) h hmidKept b' hb'
      obtain ⟨b, hb, -, hsame₁⟩ := hfirst b₁ hb₁
      refine ⟨b, hb, hk, fun p hp => ?_⟩
      obtain ⟨hp1, hp2⟩ := not_or.mp (mt List.mem_append.mpr hp)
      rw [hsame p hp2, hsame₁ p hp1]

theorem walkAlt_sound : (ts : List Term) → ∀ {env : Constraints} {i : Inference},
    Covers win D (walkAlt root win ts env i).2 →
    (∀ c ∈ Term.updatesAll ts, ∀ a ∈ c, ActionUnits root a) → ∀ {bs out : List Branch},
    CleanAlt root win ts bs → interpAlt ts bs = .ok out →
    (∀ b ∈ bs, Kept root win D env b.s) →
    ∀ b' ∈ out, ∃ b ∈ bs, Held root D b'.s ∧ InWindow root win b'.s ∧
      ∀ p, p ∉ (walkAlt root win ts env i).1 → b'.s[p]? = b.s[p]?
  | [], env, i, _, _, bs, out, _, h, _, b', hb' => by
    rw [interpAlt] at h
    cases h
    cases hb'
  | t :: ts, env, i, hc, hu, bs, out, hclean, h, hbs, b', hb' => by
    rw [interpAlt] at h
    rw [CleanAlt] at hclean
    rw [walkAlt] at hc ⊢
    obtain ⟨copy, hcopy, h⟩ := bind_eq_ok.mp h
    obtain ⟨rest, hrest, h⟩ := bind_eq_ok.mp h
    cases h
    have hu1 : ∀ c ∈ t.updates, ∀ a ∈ c, ActionUnits root a :=
      fun c hcm => hu c (List.mem_append_left _ hcm)
    have hu2 : ∀ c ∈ Term.updatesAll ts, ∀ a ∈ c, ActionUnits root a :=
      fun c hcm => hu c (List.mem_append_right _ hcm)
    rcases List.mem_append.mp hb' with hb' | hb'
    · obtain ⟨b, hb, hk, hsame⟩ :=
        walk_sound t (hc.of_le (walkAlt_le ts)) hu1 hclean.1 hcopy hbs b' hb'
      exact ⟨b, hb, hk.held, hk.window, fun p hp => hsame p fun hmem =>
        hp (List.mem_append_left _ hmem)⟩
    · obtain ⟨b, hb, hheld, hwin, hsame⟩ :=
        walkAlt_sound ts hc hu2 hclean.2 hrest hbs b' hb'
      exact ⟨b, hb, hheld, hwin, fun p hp => hsame p fun hmem =>
        hp (List.mem_append_right _ hmem)⟩

end

end Sound

end LibHSC.Xpl
