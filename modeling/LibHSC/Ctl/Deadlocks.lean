import LibHSC.Ctl.Translator

/-!
What reads the deadlocks: `EG` and `EW`, and with them their duals `AF` and `AU`. A formula
without these is checked alike whatever set of deadlocks the checker is handed.
-/

namespace LibHSC.Ctl

open Lia (ConnOp Truth)

/-! ## The formulas -/

mutual

/-- No operator that a path satisfies by ending. -/
def Formula.DeadFree : Formula → Prop
  | .not f => f.DeadFree
  | .nary _ kids => DeadFreeList kids
  | .unary o f => (o ≠ .eg ∧ o ≠ .af) ∧ f.DeadFree
  | .binary o f g => (o ≠ .ew ∧ o ≠ .au) ∧ f.DeadFree ∧ g.DeadFree
  | _ => True

def DeadFreeList : List Formula → Prop
  | [] => True
  | f :: fs => f.DeadFree ∧ DeadFreeList fs

end

theorem deadFreeList_iff {fs : List Formula} : DeadFreeList fs ↔ ∀ f ∈ fs, f.DeadFree := by
  induction fs with
  | nil => simp [DeadFreeList]
  | cons f fs ih => simp [DeadFreeList, ih]

section Normal

variable {ids : Formula → Nat}

theorem nary_deadFree {k : ConnOp} {fs : List Formula} (h : ∀ f ∈ fs, f.DeadFree) :
    (nary ids k fs).DeadFree :=
  nary_all (X := Formula.DeadFree) trivial trivial (fun _ _ => deadFreeList_iff) h

theorem negate_both {f g : Formula} (hf : (negate ids f).DeadFree) (hg : (negate ids g).DeadFree) :
    (nary ids .conj [negate ids f, negate ids g]).DeadFree :=
  nary_deadFree (by simp [hf, hg])

mutual

theorem nnf_deadFree : (f : Formula) → f.DeadFree → (nnf ids f).DeadFree
  | .atom _, _ => trivial
  | .tru, _ => trivial
  | .fls, _ => trivial
  | .not f, h => negate_deadFree f h
  | .nary _ kids, h => nary_deadFree (nnfList_deadFree kids h)
  | .unary _ f, h => ⟨h.1, nnf_deadFree f h.2⟩
  | .binary _ f g, h => ⟨h.1, nnf_deadFree f h.2.1, nnf_deadFree g h.2.2⟩

/-- The duals read the deadlocks together. -/
theorem negate_deadFree : (f : Formula) → f.DeadFree → (negate ids f).DeadFree
  | .atom _, _ => trivial
  | .tru, _ => trivial
  | .fls, _ => trivial
  | .not f, h => nnf_deadFree f h
  | .nary _ kids, h => nary_deadFree (negateList_deadFree kids h)
  | .unary o f, h => by
    refine ⟨?_, negate_deadFree f h.2⟩
    cases o <;> simp_all [Formula.DeadFree, UnaryOp.dual]
  | .binary o f g, h => by
    have hf := negate_deadFree f h.2.1
    have hg := negate_deadFree g h.2.2
    refine ⟨?_, hg, negate_both hf hg⟩
    cases o <;> simp_all [Formula.DeadFree, BinaryOp.dual]

theorem nnfList_deadFree : (fs : List Formula) → DeadFreeList fs → ∀ f ∈ nnfList ids fs, f.DeadFree
  | [], _ => by simp [nnfList]
  | f :: fs, h => List.forall_mem_cons.mpr ⟨nnf_deadFree f h.1, nnfList_deadFree fs h.2⟩

theorem negateList_deadFree : (fs : List Formula) → DeadFreeList fs →
    ∀ f ∈ negateList ids fs, f.DeadFree
  | [], _ => by simp [negateList]
  | f :: fs, h => List.forall_mem_cons.mpr ⟨negate_deadFree f h.1, negateList_deadFree fs h.2⟩

end

end Normal

theorem hereditary_deadFree : Hereditary Formula.DeadFree where
  tru := trivial
  nary _ _ h := deadFreeList_iff.mp h
  unary _ _ h := h.2
  binary _ _ _ h := h.2
  ew _ _ h := absurd rfl h.1.1

/-! ## The checker -/

namespace Model

variable {σ : Type} [DecidableEq σ]

/-- The model with another set of deadlocks. -/
def withDead (M : Model σ) (dead : Finset σ) : Model σ := { M with dead := dead }

variable {M : Model σ} {dead : Finset σ} {ids : Formula → Nat} {rounds depth : Nat}
  {S S' : Formula → Except Halt (Finset σ)} {f g q : Formula}

theorem constrainedLfp_withDead (hS : S' q = S q) {backward before : Bool} {start : Finset σ} :
    (M.withDead dead).constrainedLfp rounds S' backward start q before =
      M.constrainedLfp rounds S backward start q before := by
  unfold constrainedLfp
  rw [hS]
  rfl

theorem satEu_withDead (hf : S' f = S f) (hg : S' g = S g) :
    (M.withDead dead).satEu rounds S' f g = M.satEu rounds S f g := by
  unfold satEu
  rw [hg]
  simp only [constrainedLfp_withDead hf]
  rfl

theorem satAll_withDead {k : ConnOp} : ∀ {fs : List Formula} {acc : Finset σ},
    (∀ f ∈ fs, S' f = S f) → satAll S' k acc fs = satAll S k acc fs := by
  intro fs
  induction fs with
  | nil => exact fun _ => rfl
  | cons f fs ih =>
    intro acc h
    obtain ⟨hf, hfs⟩ := List.forall_mem_cons.mp h
    unfold satAll
    rw [hf]
    exact bind_congr fun s => ih hfs

/-- By induction on the calls; at an operator the operands and their negations agree. -/
theorem sat_withDead : ∀ {n : Nat} {f : Formula}, f.DeadFree →
    (M.withDead dead).sat ids rounds n f = M.sat ids rounds n f := by
  intro n
  induction n with
  | zero => exact fun _ => rfl
  | succ n ih =>
    intro f hf
    unfold sat
    split
    · rfl
    · cases f with
      | not g =>
        have hg : g.DeadFree := hf
        simp only [ih hg]
        rfl
      | nary k kids =>
        have hkids := fun g hg => ih (deadFreeList_iff.mp hf g hg)
        cases k <;> exact satAll_withDead hkids
      | unary o g =>
        have hg := ih hf.2
        have hneg : (negate ids g).DeadFree := negate_deadFree g hf.2
        have hn := ih hneg
        have ht := @ih (constant true) trivial
        cases o with
        | ex =>
          simp only [hg]
          rfl
        | ax =>
          simp only [hn]
          rfl
        | ef => exact satEu_withDead ht hg
        | ag =>
          simp only [satEu_withDead ht hn]
          rfl
        | eg => exact absurd rfl hf.1.1
        | af => exact absurd rfl hf.1.2
      | binary o g k =>
        have hg : (negate ids g).DeadFree := negate_deadFree g hf.2.1
        have hk : (negate ids k).DeadFree := negate_deadFree k hf.2.2
        cases o with
        | eu => exact satEu_withDead (ih hf.2.1) (ih hf.2.2)
        | aw =>
          simp only [satEu_withDead (ih hk) (ih (negate_both hg hk))]
          rfl
        | ew => exact absurd rfl hf.1.1
        | au => exact absurd rfl hf.1.2
      | _ => rfl

theorem eval_withDead : ∀ {r : SetExpr}, r.Plain Formula.DeadFree →
    (M.withDead dead).eval ids rounds depth r = M.eval ids rounds depth r := by
  intro r
  induction r with
  | init => exact fun _ => rfl
  | filter r f ih =>
    intro h
    simp only [eval, ih h.1]
    rfl
  | ey r ih =>
    intro h
    simp only [eval, ih h]
    rfl
  | fwdu r q ih =>
    intro h
    simp only [eval, ih h.1, constrainedLfp_withDead (sat_withDead h.2)]
  | fwdg r q ih => exact fun h => absurd rfl h.2.1.1
  | restrict r f ih =>
    intro h
    simp only [eval, ih h.1, sat_withDead h.2]

theorem search_withDead {s : Finset σ} {goal : Formula} : ∀ {n : Nat} {seen frontier : Finset σ},
    (M.withDead dead).search s goal n seen frontier = M.search s goal n seen frontier := by
  intro n
  induction n with
  | zero => exact rfl
  | succ n ih =>
    intro seen frontier
    simp only [search, ih]
    rfl

theorem nonempty_withDead {s : SetExpr} (hs : s.Plain Formula.DeadFree) :
    (M.withDead dead).nonempty ids rounds depth s = M.nonempty ids rounds depth s := by
  have hother : ∀ {r : SetExpr} {f : Formula}, r.Plain Formula.DeadFree →
      (do return decide ((M.withDead dead).filter
        (← (M.withDead dead).eval ids rounds depth r) f ≠ ∅) : Except Halt Bool) =
      (do return decide (M.filter (← M.eval ids rounds depth r) f ≠ ∅)) := by
    intro r f hr
    rw [eval_withDead hr]
    rfl
  cases s with
  | init => rfl
  | filter r f =>
    cases r with
    | fwdu r q =>
      simp only [nonempty, hother hs.1, existsThrough, eval_withDead hs.1.1, sat_withDead hs.1.2,
        search_withDead]
    | _ => simp only [nonempty, hother hs.1]
  | ey r =>
    have hr : r.Plain Formula.DeadFree := hs
    simp only [nonempty, eval_withDead hr]
    rfl
  | fwdu r q => simp only [nonempty, eval_withDead hs.1]
  | fwdg r q => exact absurd rfl hs.2.1.1
  | restrict r f => simp only [nonempty, eval_withDead hs]

theorem askLeaf_withDead {s : SetExpr} (hs : s.Plain Formula.DeadFree) :
    (M.withDead dead).askLeaf ids rounds depth s = M.askLeaf ids rounds depth s := by
  unfold askLeaf
  rw [nonempty_withDead hs]

/-- A question with no such operator in it is answered alike. -/
theorem ask_withDead {Q : Question} (hQ : ∀ s ∈ Q.leaves, s.Plain Formula.DeadFree) :
    (M.withDead dead).ask ids rounds depth Q = M.ask ids rounds depth Q := by
  have hany : ∀ {ls : List SetExpr} {u : Bool}, (∀ s ∈ ls, s.Plain Formula.DeadFree) →
      (M.withDead dead).askAny ids rounds depth u ls = M.askAny ids rounds depth u ls := by
    intro ls
    induction ls with
    | nil => exact fun _ => rfl
    | cons s ls ih =>
      intro u h
      obtain ⟨hs, hls⟩ := List.forall_mem_cons.mp h
      simp only [askAny, askLeaf_withDead hs, ih hls]
  cases Q with
  | never => rfl
  | nonempty s => exact askLeaf_withDead (hQ s (List.mem_singleton_self s))
  | any ls => exact hany hQ

end Model

end LibHSC.Ctl
