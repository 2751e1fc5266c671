import LibHSC.SumAt

/-!
More rounds for the closures of a run change no value that it returned. An evaluator is
below another when every value of the first is a value of the second; the algebras of a
sort are monotone in the algebras below them, in the registered evaluator and in the fuel.
-/

namespace LibHSC

open Lia

/-- Every value of the first is a value of the second, read by the same tests. -/
structure TermAlgebra.Le {C τ : Type} (M M' : TermAlgebra C τ) : Prop where
  isId : M.isId = M'.isId
  injective : M.injective = M'.injective
  apply : ∀ {t c r}, M.apply t c = .ok r → M'.apply t c = .ok r

section Node

variable {C D σ τ : Type} [DecidableEq C] [DecidableEq D] {H : SupportAlgebra C}
  {T : SupportAlgebra D} {MH MH' : TermAlgebra C σ} {MT MT' : TermAlgebra D τ}

omit [DecidableEq C] [DecidableEq D] in
theorem tailArcs_le (hT : MT.Le MT') {t : τ} : ∀ {l r : List (Arc C D)},
    tailArcs MT t l = .ok r → tailArcs MT' t l = .ok r := by
  intro l
  induction l with
  | nil => exact fun h => h
  | cons x xs ih =>
    exact fun h => bind_le (fun _ => hT.apply) (fun _ => bind_le (fun _ => ih) fun _ h => h) h

omit [DecidableEq D] in
theorem imageArcs_le (hH : MH.Le MH') (hT : MT.Le MT') {h : σ} {t : τ} :
    ∀ {l r : List (Arc C D)}, imageArcs H MH MT h t l = .ok r →
      imageArcs H MH' MT' h t l = .ok r := by
  intro l
  induction l with
  | nil => exact fun h => h
  | cons x xs ih =>
    refine fun h => bind_le (fun _ => hH.apply) (fun p => ite_le ih ?_) h
    exact bind_le (fun _ => hT.apply) fun _ => bind_le (fun _ => ih) fun _ h => h

theorem applyNode_le (hH : MH.Le MH') (hT : MT.Le MT') {h : σ} {t : τ} {d r : List (Arc C D)}
    (hr : applyNode H T MH MT h t d = .ok r) : applyNode H T MH' MT' h t d = .ok r := by
  unfold applyNode at hr ⊢
  rw [← hH.isId, ← hH.injective]
  refine ite_le ?_ (ite_le ?_ ?_) hr
  · exact bind_le (fun _ => tailArcs_le hT) fun _ h => h
  · exact bind_le (fun _ => imageArcs_le hH hT) fun _ h => h
  · exact bind_le (fun _ => imageArcs_le hH hT) fun _ h => h

end Node

namespace OpTerm

section Le

variable {H T D : Type} [DecidableEq D] {A : SupportAlgebra D}
  {node node' : H → T → D → Except Err D} {cases cases' : BExpr → List Assign → D → Except Err D}
  {fuel fuel' : Nat} (hn : ∀ {h t d r}, node h t d = .ok r → node' h t d = .ok r)
  (hc : ∀ {g as d r}, cases g as d = .ok r → cases' g as d = .ok r) (hf : fuel ≤ fuel')

include hn hc hf

mutual

theorem apply_le : (t : OpTerm H T D) → ∀ d r, apply A node cases fuel t d = .ok r →
    apply A node' cases' fuel' t d = .ok r
  | .id => fun _ _ h => h
  | .node _ _ => fun _ _ h => ite_le (fun h => h) hn h
  | .sum ts => fun d r h => ite_le (fun h => h) (applySum_le ts d A.none r) h
  | .compose after before => fun d r h =>
    ite_le (fun h => h) (bind_le (apply_le before d) fun x => apply_le after x r) h
  | .lfp t => fun _ _ h => ite_le (fun h => h)
      (untilStable_mono (fun x _ => bind_le (apply_le t x) fun _ h => h) hf) h
  | .gfp t => fun _ _ h => ite_le (fun h => h)
      (untilStable_mono (fun x _ => bind_le (apply_le t x) fun _ h => h) hf) h
  | .within _ => fun _ _ h => h
  | .saturate f l g => fun _ _ h => ite_le (fun h => h)
      (untilStable_mono (fun x y => bind_le (apply_le f x) fun a =>
        bind_le (apply_le l a) fun b => applyChain_le g b y) hf) h
  | .expr _ _ => fun _ _ h => ite_le (fun h => h) hc h

theorem applySum_le : (ts : List (OpTerm H T D)) → ∀ d acc r,
    applySum A node cases fuel ts d acc = .ok r →
    applySum A node' cases' fuel' ts d acc = .ok r
  | [] => fun _ _ _ h => h
  | t :: ts => fun d _ r => bind_le (apply_le t d) fun _ => applySum_le ts d _ r

theorem applyChain_le : (ts : List (OpTerm H T D)) → ∀ d r,
    applyChain A node cases fuel ts d = .ok r → applyChain A node' cases' fuel' ts d = .ok r
  | [] => fun _ _ h => h
  | t :: ts => fun d r => bind_le (apply_le t d) fun _ => applyChain_le ts _ r

end

end Le

end OpTerm

theorem IntTerm.apply_le {fuel fuel' : Nat} (hf : fuel ≤ fuel') (t : IntTerm) :
    ∀ {c r : IntSet}, apply fuel t c = .ok r → apply fuel' t c = .ok r := by
  induction t with
  | id => exact fun h => h
  | prim g a => exact fun h => h
  | sum a b iha ihb =>
    exact fun h => ite_le (fun h => h)
      (bind_le (fun _ => iha) fun _ => bind_le (fun _ => ihb) fun _ h => h) h
  | lfp a ih =>
    exact fun h => ite_le (fun h => h)
      (untilStable_mono (fun _ _ => bind_le (fun _ => ih) fun _ h => h) hf) h

theorem termAlgebra_le {N : Numbering} {cases cases' : CaseEvaluator} {fuel fuel' : Nat}
    (hc : ∀ {s g as d r}, cases s g as d = .ok r → cases' s g as d = .ok r)
    (hf : fuel ≤ fuel') : (s : Shape) →
    (termAlgebra N cases fuel s).Le (termAlgebra N cases' fuel' s)
  | .unit => by
    rw [termAlgebra, termAlgebra]
    exact ⟨rfl, rfl, fun h => OpTerm.apply_le (fun {h} => h.elim) (fun h => hc h) hf _ _ _ h⟩
  | .leaf => by
    rw [termAlgebra, termAlgebra]
    exact ⟨rfl, rfl, fun h => IntTerm.apply_le hf _ h⟩
  | .pair h t => by
    rw [termAlgebra, termAlgebra]
    exact ⟨rfl, rfl, fun hx => OpTerm.apply_le
      (fun hr => applyNode_le (termAlgebra_le hc hf h) (termAlgebra_le hc hf t) hr)
      (fun h => hc h) hf _ _ _ hx⟩

section Cases

variable {N : Numbering} {R : ExprIds} {M M' : (s : Shape) → TermAlgebra (Code s) (Term s)}
  (hM : ∀ s, (M s).Le (M' s))

include hM

theorem applyClass_le {s : Shape} {guard : BExpr} {as : List Assign} {e x : IExpr}
    {d out r : Code s} (h : applyClass N R M s guard as e x d out = .ok r) :
    applyClass N R M' s guard as e x d out = .ok r := by
  refine bind_le (fun _ h => h) (fun g => ite_le (fun h => h) ?_) h
  refine bind_le (fun _ h => h) fun o => ?_
  cases o with
  | none => exact fun h => h
  | some curried =>
    exact bind_le (fun _ h => h) fun _ => bind_le (fun _ => (hM s).apply) fun _ h => h

theorem applyClasses_le {h t : Shape} {guard : BExpr} {as : List Assign} {e : IExpr} :
    ∀ {cs : List (IExpr × Arc (Code h) (Code t))} {out r : Code (.pair h t)},
      applyClasses N R M h t guard as e cs out = .ok r →
      applyClasses N R M' h t guard as e cs out = .ok r := by
  intro cs
  induction cs with
  | nil => exact fun h => h
  | cons c cs ih => exact fun h => bind_le (fun _ => applyClass_le hM) (fun _ => ih) h

theorem applyGround_le {h t : Shape} {th : Term h} {tt : Term t} :
    ∀ {d r : List (Arc (Code h) (Code t))}, applyGround N M h t th tt d = .ok r →
      applyGround N M' h t th tt d = .ok r := by
  intro d
  induction d with
  | nil => exact fun h => h
  | cons a as ih =>
    refine fun h => bind_le (fun _ => (hM _).apply) (fun _ => ite_le ih ?_) h
    refine bind_le (fun _ => (hM _).apply) fun _ => ite_le ih ?_
    exact bind_le (fun _ => ih) fun _ h => h

theorem caseApply_le {s : Shape} {guard : BExpr} {as : List Assign} {d r : Code s}
    (h : caseApply N R M s guard as d = .ok r) : caseApply N R M' s guard as d = .ok r := by
  cases s with
  | unit => cases h
  | leaf => cases h
  | pair hs ts =>
    simp only [caseApply] at h ⊢
    split at h
    · refine ite_le (bind_le (fun _ h => h) fun _ => applyClasses_le hM) ?_ h
      exact bind_le (fun _ h => h) fun _ => bind_le (fun _ h => h) fun _ => applyClasses_le hM
    · refine bind_le (fun _ h => h) (fun _ => bind_le (fun _ h => h) fun _ => ?_) h
      exact bind_le (fun _ h => h) fun _ => bind_le (fun _ => applyGround_le hM) fun _ h => h

end Cases

theorem caseEngine_le {N : Numbering} {R : ExprIds} {fuel fuel' : Nat} (hf : fuel ≤ fuel') :
    ∀ (depth : Nat) {s : Shape} {g : BExpr} {as : List Assign} {d r : Code s},
      caseEngine N R fuel depth s g as d = .ok r →
      caseEngine N R fuel' depth s g as d = .ok r := by
  intro depth
  induction depth with
  | zero => exact fun h => nomatch h
  | succ n ih => exact fun h => caseApply_le (termAlgebra_le (fun h => ih h) hf) h

/-! ## What a run gives when nothing stops it -/

namespace Manager

variable (m : Manager)

/-- The same run with other bounds on its closures. -/
def withFuel (fuel : Nat) : Manager := { m with fuel := fuel }

/-- The uninterrupted application returns this value: some number of rounds is enough. -/
def Gives (s : Shape) (t : Term s) (d r : Code s) : Prop :=
  ∃ n, (m.withFuel n).apply s t d = .ok r

variable {m}

theorem apply_mono {s : Shape} {t : Term s} {d r : Code s} {n k : Nat} (hk : n ≤ k)
    (h : (m.withFuel n).apply s t d = .ok r) : (m.withFuel k).apply s t d = .ok r :=
  (termAlgebra_le (fun h => caseEngine_le hk m.depth h) hk s).apply h

theorem Gives.unique {s : Shape} {t : Term s} {d r r' : Code s} (h : m.Gives s t d r)
    (h' : m.Gives s t d r') : r = r' := by
  obtain ⟨n, hn⟩ := h
  obtain ⟨k, hk⟩ := h'
  have h1 := apply_mono (Nat.le_max_left n k) hn
  have h2 := apply_mono (Nat.le_max_right n k) hk
  rw [h1] at h2
  cases h2
  rfl

end Manager

end LibHSC
