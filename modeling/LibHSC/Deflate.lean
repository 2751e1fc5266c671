import LibHSC.Steady

/-!
The deflationary closure `gfp`: as a term at a composite sort, and by the plain iteration
in the sort's algebra where there is no such term. Of a monotone term both give the
greatest set below the argument that the term's image covers.
-/

namespace LibHSC

open Lia

/-- The plain iteration: it stops on a stable set, and on an empty one. -/
def deflateLoop {C : Type} [DecidableEq C] (A : SupportAlgebra C) (f : C → Except Err C) :
    Nat → C → Except Err C
  | 0, _ => .error .fuel
  | n + 1, x => do
      let y := A.meet x (← f x)
      if y = x ∨ y = A.none then return y else deflateLoop A f n y

/-- `gfp_at`: the term at a composite sort, the plain iteration at the others. -/
def gfpAt (m : Manager) : (s : Shape) → Term s → Code s → Except Err (Code s)
  | .unit => fun t d =>
    if d = (m.algebra .unit).none ∨ Term.isId .unit t = true then .ok d
    else deflateLoop (m.algebra .unit) (m.apply .unit t) m.fuel d
  | .leaf => fun t d =>
    if d = (m.algebra .leaf).none ∨ Term.isId .leaf t = true then .ok d
    else deflateLoop (m.algebra .leaf) (m.apply .leaf t) m.fuel d
  | .pair h t => fun x d =>
    if d = (m.algebra (.pair h t)).none ∨ Term.isId (.pair h t) x = true then .ok d
    else m.apply (.pair h t) (OpTerm.mkGfp x) d

/-! ## The two loops -/

section Loops

variable {C W : Type} [DecidableEq C] {A : SupportAlgebra C} {den : C → Set W} {Canon : C → Prop}
  (hA : SupportLaws A den Canon) {f : C → Except Err C} (hnone : f A.none = .ok A.none)

theorem deflateLoop_mono {g : C → Except Err C} (hle : ∀ x y, f x = .ok y → g x = .ok y) :
    ∀ {n k : Nat} {x r : C}, n ≤ k → deflateLoop A f n x = .ok r → deflateLoop A g k x = .ok r := by
  intro n
  induction n with
  | zero =>
    intro k x r _ h
    cases h
  | succ n ih =>
    intro k x r hk h
    obtain ⟨k, rfl⟩ : ∃ k', k = k' + 1 := ⟨k - 1, by omega⟩
    obtain ⟨y, hy, h⟩ := bind_eq_ok.mp h
    refine bind_of_ok (hle x y hy) ?_
    exact ite_le (fun h => h) (ih (by omega)) h

include hA hnone

theorem untilStable_none {n : Nat} :
    untilStable Err.fuel (fun x => do return A.meet x (← f x)) (n + 1) A.none = .ok A.none := by
  have hmeet : A.meet A.none A.none = A.none := by
    refine (hA.eq_none_iff (hA.canon_meet hA.canon_none hA.canon_none)).mpr ?_
    rw [hA.den_meet hA.canon_none hA.canon_none, hA.den_none, Set.empty_inter]
  have hstep : (do return A.meet A.none (← f A.none)) = Except.ok (ε := Err) A.none :=
    bind_of_ok hnone (congrArg Except.ok hmeet)
  exact bind_of_ok hstep (if_pos rfl)

/-- Stopping on an empty set changes no value. -/
theorem deflateLoop_iff {x r : C} {n : Nat} :
    (deflateLoop A f n x = .ok r →
      untilStable .fuel (fun x => do return A.meet x (← f x)) (n + 1) x = .ok r) ∧
    (untilStable .fuel (fun x => do return A.meet x (← f x)) n x = .ok r →
      deflateLoop A f n x = .ok r) := by
  induction n generalizing x with
  | zero => exact ⟨fun h => (nomatch h), fun h => nomatch h⟩
  | succ n ih =>
    constructor
    · intro h
      obtain ⟨y, hy, h⟩ := bind_eq_ok.mp h
      refine bind_of_ok (bind_of_ok hy rfl) ?_
      by_cases hx : A.meet x y = x
      · rw [if_pos (Or.inl hx)] at h
        cases h
        rw [if_pos hx]
        exact congrArg Except.ok hx.symm
      · rw [if_neg hx]
        by_cases hn : A.meet x y = A.none
        · rw [if_pos (Or.inr hn)] at h
          cases h
          rw [hn]
          exact untilStable_none hA hnone
        · rw [if_neg (not_or.mpr ⟨hx, hn⟩)] at h
          exact ih.1 h
    · intro h
      obtain ⟨z, hz, h⟩ := bind_eq_ok.mp h
      obtain ⟨y, hy, hz⟩ := bind_eq_ok.mp hz
      cases hz
      refine bind_of_ok hy ?_
      by_cases hx : A.meet x y = x
      · rw [if_pos hx] at h
        rw [if_pos (Or.inl hx), hx]
        exact h
      · rw [if_neg hx] at h
        by_cases hn : A.meet x y = A.none
        · rw [if_pos (Or.inr hn)]
          have hnone' := untilStable_mono (fun _ _ h => h) (Nat.le_succ n) h
          rw [hn, untilStable_none hA hnone] at hnone'
          rw [hn]
          exact hnone'
        · rw [if_neg (not_or.mpr ⟨hx, hn⟩)]
          exact ih.2 h

end Loops

/-! ## The greatest covered set -/

namespace Manager

variable (m : Manager)

/-- The uninterrupted `gfp_at` returns this value. -/
def GivesGfp (s : Shape) (t : Term s) (d r : Code s) : Prop :=
  ∃ n, gfpAt (m.withFuel n) s t d = .ok r

/-- The term's image covers the diagram. -/
def Covers (s : Shape) (t : Term s) (c : Code s) : Prop :=
  ∃ y, m.Gives s t c y ∧ den s c ⊆ den s y

/-- One deflationary round. -/
def deflate (n : Nat) (s : Shape) (t : Term s) (x : Code s) : Except Err (Code s) := do
  return (m.algebra s).meet x (← (m.withFuel n).apply s t x)

variable {m}

theorem deflate_mono {s : Shape} {t : Term s} {n k : Nat} {x y : Code s} (hk : n ≤ k)
    (h : m.deflate n s t x = .ok y) : m.deflate k s t x = .ok y :=
  bind_le (fun _ => apply_mono hk) (fun _ h => h) h

/-- The plain iteration and the term's come to the same. -/
theorem deflateLoop_gives {s : Shape} {t : Term s} {d r : Code s} :
    (∃ n, deflateLoop (m.algebra s) ((m.withFuel n).apply s t) n d = .ok r) ↔
      ∃ n, untilStable .fuel (m.deflate n s t) n d = .ok r := by
  constructor
  · rintro ⟨n, h⟩
    have h' := (deflateLoop_iff (m.laws s) ((m.withFuel n).apply_absent s t)).1 h
    exact ⟨n + 1, untilStable_mono (fun _ _ => deflate_mono (Nat.le_succ n)) le_rfl h'⟩
  · rintro ⟨n, h⟩
    exact ⟨n, (deflateLoop_iff (m.laws s) ((m.withFuel n).apply_absent s t)).2 h⟩

theorem gfpAt_trivial : (s : Shape) → ∀ (t : Term s) (d : Code s),
    d = (m.algebra s).none ∨ Term.isId s t = true → gfpAt m s t d = .ok d
  | .unit => fun _ _ h => if_pos h
  | .leaf => fun _ _ h => if_pos h
  | .pair _ _ => fun _ _ h => if_pos h

theorem givesGfp_iff : (s : Shape) → ∀ (t : Term s) (d r : Code s),
    ¬(d = (m.algebra s).none ∨ Term.isId s t = true) →
    (m.GivesGfp s t d r ↔ ∃ n, untilStable .fuel (m.deflate n s t) n d = .ok r)
  | .unit => fun t d r h => by
    refine Iff.trans (exists_congr fun n => ?_) deflateLoop_gives
    exact Eq.congr_left (if_neg h)
  | .leaf => fun t d r h => by
    refine Iff.trans (exists_congr fun n => ?_) deflateLoop_gives
    exact Eq.congr_left (if_neg h)
  | .pair hs ts => fun t d r h => by
    refine exists_congr fun n => Eq.congr_left ((if_neg h).trans ?_)
    obtain ⟨hd, hid⟩ := not_or.mp h
    have hgfp : OpTerm.mkGfp t = OpTerm.gfp t := by
      cases t with
      | id => exact absurd rfl hid
      | _ => rfl
    show (m.withFuel n).apply (.pair hs ts) (OpTerm.mkGfp t) d = _
    rw [hgfp]
    exact if_neg hd

/-- What a deflationary round of a monotone term keeps. -/
theorem deflate_steady {s : Shape} {t : Term s}
    (ht : Steady (den s) (m.Canon s) (fun n => (m.withFuel n).apply s t)) :
    Steady (den s) (m.Canon s) (fun n => m.deflate n s t) ∧
      ∀ {n c r}, m.Canon s c → m.deflate n s t c = .ok r → den s r ⊆ den s c := by
  refine ⟨(Steady.same.meet (m.laws s) ht).congr fun _ _ => pure_bind _ _, ?_⟩
  intro n c r hc h
  obtain ⟨y, hy, h⟩ := bind_eq_ok.mp h
  cases h
  rw [(m.laws s).den_meet hc (ht.canon hc hy)]
  exact Set.inter_subset_left

theorem deflate_covers {s : Shape} {t : Term s}
    (ht : Steady (den s) (m.Canon s) (fun n => (m.withFuel n).apply s t)) {c : Code s}
    (hc : m.Canon s c) :
    m.Covers s t c ↔ ∃ n y, m.deflate n s t c = .ok y ∧ den s c ⊆ den s y := by
  constructor
  · rintro ⟨y, ⟨n, hy⟩, hle⟩
    refine ⟨n, _, bind_of_ok hy rfl, ?_⟩
    rw [(m.laws s).den_meet hc (ht.canon hc hy)]
    exact Set.subset_inter subset_rfl hle
  · rintro ⟨n, z, hz, hle⟩
    obtain ⟨y, hy, hz⟩ := bind_eq_ok.mp hz
    cases hz
    rw [(m.laws s).den_meet hc (ht.canon hc hy)] at hle
    exact ⟨y, ⟨n, hy⟩, hle.trans Set.inter_subset_right⟩

theorem apply_isId (n : Nat) {s : Shape} {t : Term s} (h : Term.isId s t = true) (d : Code s) :
    (m.withFuel n).apply s t d = .ok d := by
  refine m.fueled_isId n s t d ?_
  cases s with
  | unit => exact h
  | leaf => exact h
  | pair hs ts => exact h

/-- The uninterrupted closure returns the greatest set below its argument that the term's
image covers. -/
def GfpRight (m : Manager) (s : Shape) (t : Term s) (d : Code s) : Prop :=
  (∃ r, m.GivesGfp s t d r) ∧ ∀ r, m.GivesGfp s t d r → m.Canon s r ∧ IsGreatest
    {X | ∃ c, m.Canon s c ∧ den s c = X ∧ X ⊆ den s d ∧ m.Covers s t c} (den s r)

theorem gives_trivial {s : Shape} {t : Term s} {d : Code s}
    (htriv : d = (m.algebra s).none ∨ Term.isId s t = true) : m.Gives s t d d := by
  rcases htriv with hn | hid
  · exact ⟨0, hn ▸ (m.withFuel 0).apply_absent s t⟩
  · exact ⟨0, apply_isId 0 hid d⟩

theorem gfpRight_trivial {s : Shape} {t : Term s} {d : Code s} (hd : m.Canon s d)
    (htriv : d = (m.algebra s).none ∨ Term.isId s t = true) : m.GfpRight s t d := by
  have hgfp : ∀ n, gfpAt (m.withFuel n) s t d = .ok d := fun n => gfpAt_trivial s t d htriv
  refine ⟨⟨d, 0, hgfp 0⟩, ?_⟩
  rintro r ⟨n, hr⟩
  rw [hgfp n] at hr
  cases hr
  exact ⟨hd, ⟨d, hd, rfl, subset_rfl, d, gives_trivial htriv, subset_rfl⟩,
    fun X ⟨_, _, _, hle, _⟩ => hle⟩

/-- The deflationary closure of a monotone term: it returns exactly when one application of
the term does, with the greatest set below the argument that the term's image covers. -/
theorem givesGfp_greatest {s : Shape} {t : Term s}
    (ht : Steady (den s) (m.Canon s) (fun n => (m.withFuel n).apply s t)) {d : Code s}
    (hd : m.Canon s d) :
    ((∃ r, m.GivesGfp s t d r) ↔ ∃ y, m.Gives s t d y) ∧
    ∀ r, m.GivesGfp s t d r → m.Canon s r ∧ IsGreatest
      {X | ∃ c, m.Canon s c ∧ den s c = X ∧ X ⊆ den s d ∧ m.Covers s t c} (den s r) := by
  by_cases htriv : d = (m.algebra s).none ∨ Term.isId s t = true
  · obtain ⟨hreturns, hgreatest⟩ := gfpRight_trivial hd htriv
    exact ⟨⟨fun _ => ⟨d, gives_trivial htriv⟩, fun _ => hreturns⟩, hgreatest⟩
  · obtain ⟨hg, hdef⟩ := deflate_steady ht
    have hiff := fun r => givesGfp_iff (m := m) s t d r htriv
    constructor
    · constructor
      · rintro ⟨r, hr⟩
        obtain ⟨n, hn⟩ := (hiff r).mp hr
        cases n with
        | zero => cases hn
        | succ n =>
          obtain ⟨z, hz, -⟩ := bind_eq_ok.mp hn
          obtain ⟨y, hy, -⟩ := bind_eq_ok.mp hz
          exact ⟨y, n + 1, hy⟩
      · rintro ⟨y, n, hy⟩
        obtain ⟨k, r, hr⟩ := deflate_ends (m.laws s) (fun {c} _ => finite_den s c) hg hdef hd
          (bind_of_ok hy rfl)
        exact ⟨r, (hiff r).mpr ⟨k, hr⟩⟩
    · intro r hr
      obtain ⟨n, hn⟩ := (hiff r).mp hr
      obtain ⟨hrc, hrle, hfix⟩ := deflate_stable hg hdef hd hn
      refine ⟨hrc, ⟨r, hrc, rfl, hrle, ?_⟩, ?_⟩
      · exact (deflate_covers ht hrc).mpr ⟨n, r, hfix, subset_rfl⟩
      · rintro X ⟨c, hc, rfl, hle, hcov⟩
        obtain ⟨k, y, hy, hcy⟩ := (deflate_covers ht hc).mp hcov
        exact deflate_above hg hd hn hc hle ⟨y, hy, hcy⟩

/-! ## Which arguments the closure is right below -/

/-- More words, more words: the term is monotone, and returns below where it returns. -/
def Monotone (m : Manager) (s : Shape) (t : Term s) : Prop :=
  Steady (den s) (m.Canon s) (fun n => (m.withFuel n).apply s t)

/-- Below the diagram the term returns, and the image of a part covers whatever the image
of a smaller one covers. -/
def KeepsCovered (m : Manager) (s : Shape) (t : Term s) (d : Code s) : Prop :=
  ∀ x, m.Canon s x → den s x ⊆ den s d → ∃ z, m.Gives s t x z ∧
    ∀ y, m.Canon s y → den s y ⊆ den s x → m.Covers s t y → den s y ⊆ den s z

variable {s : Shape} {t : Term s} {d : Code s}

theorem keepsCovered_of_steady
    (ht : Steady (den s) (m.Canon s) (fun n => (m.withFuel n).apply s t)) (hd : m.Canon s d)
    (hgives : ∃ y, m.Gives s t d y) : m.KeepsCovered s t d := by
  intro x hx hxd
  obtain ⟨y, n, hy⟩ := hgives
  obtain ⟨k, z, hz, -⟩ := ht.below hd hx hxd hy
  refine ⟨z, ⟨k, hz⟩, fun c hc hcx ⟨u, hu, hcu⟩ => ?_⟩
  obtain ⟨j, u', hu', huz⟩ := ht.below hx hc hcx hz
  obtain rfl := Gives.unique hu ⟨j, hu'⟩
  exact hcu.trans huz

theorem deflate_round (hw : m.WF s t) {n : Nat} {x u : Code s} (hx : m.Canon s x)
    (hu : m.deflate n s t x = .ok u) :
    ∃ z, m.Gives s t x z ∧ m.Canon s u ∧ den s u = den s x ∩ den s z := by
  obtain ⟨z, hz, hu⟩ := bind_eq_ok.mp hu
  cases hu
  have hzc := (m.fueledLaws n s).canon_apply hw hx hz
  exact ⟨z, ⟨n, hz⟩, (m.laws s).canon_meet hx hzc, (m.laws s).den_meet hx hzc⟩

theorem givesGfp_canon (hw : m.WF s t) (hd : m.Canon s d) {r : Code s} (hr : m.GivesGfp s t d r) :
    m.Canon s r := by
  by_cases htriv : d = (m.algebra s).none ∨ Term.isId s t = true
  · obtain ⟨n, hr⟩ := hr
    have hgfp : gfpAt (m.withFuel n) s t d = .ok d := gfpAt_trivial s t d htriv
    rw [hgfp] at hr
    cases hr
    exact hd
  · obtain ⟨n, hn⟩ := (givesGfp_iff (m := m) s t d r htriv).mp hr
    refine (untilStable_inv (P := m.Canon s) (fun x u hx hu => ?_) hd hn).1
    obtain ⟨-, -, huc, -⟩ := deflate_round hw hx hu
    exact huc

/-- Every round keeps what the term covers below the argument, and stays below it. -/
theorem gfpRight_of_keeps (hw : m.WF s t) (hd : m.Canon s d) (hkeeps : m.KeepsCovered s t d) :
    m.GfpRight s t d := by
  by_cases htriv : d = (m.algebra s).none ∨ Term.isId s t = true
  · exact gfpRight_trivial hd htriv
  have hiff := fun r => givesGfp_iff (m := m) s t d r htriv
  have hstep : ∀ {n x u}, m.Canon s x ∧ den s x ⊆ den s d → m.deflate n s t x = .ok u →
      m.Canon s u ∧ den s u ⊆ den s d := by
    intro n x u hx hu
    obtain ⟨z, -, huc, hden⟩ := deflate_round hw hx.1 hu
    rw [hden]
    exact ⟨huc, Set.inter_subset_left.trans hx.2⟩
  refine ⟨?_, fun r hr => ?_⟩
  · have hmono : ∀ n k x y, n ≤ k → m.deflate n s t x = .ok y → m.deflate k s t x = .ok y :=
      fun _ _ _ _ hk h => deflate_mono hk h
    have hends : ∃ n r, untilStable .fuel (m.deflate n s t) n d = .ok r := by
      refine untilStable_total (P := fun x => m.Canon s x ∧ den s x ⊆ den s d)
        (s := fun x => (den s x).ncard) hmono (fun x hx => ?_) d ⟨hd, subset_rfl⟩
      obtain ⟨z, ⟨n, hz⟩, -⟩ := hkeeps x hx.1 hx.2
      have hu : m.deflate n s t x = .ok ((m.algebra s).meet x z) := bind_of_ok hz rfl
      obtain ⟨z', -, huc, hden⟩ := deflate_round hw hx.1 hu
      have hle : den s ((m.algebra s).meet x z) ⊆ den s x := hden ▸ Set.inter_subset_left
      refine ⟨n, _, hu, hstep hx hu, fun hne => Set.ncard_lt_ncard ⟨hle, ?_⟩ (finite_den s x)⟩
      exact fun hsub => hne ((m.laws s).ext huc hx.1 (Set.Subset.antisymm hle hsub))
    obtain ⟨n, r, hr⟩ := hends
    exact ⟨r, (hiff r).mpr ⟨n, hr⟩⟩
  · obtain ⟨n, hn⟩ := (hiff r).mp hr
    obtain ⟨hrd, hfix⟩ := untilStable_inv (P := fun x => m.Canon s x ∧ den s x ⊆ den s d)
      (fun _ _ => hstep) ⟨hd, subset_rfl⟩ hn
    refine ⟨hrd.1, ⟨r, hrd.1, rfl, hrd.2, ?_⟩, ?_⟩
    · obtain ⟨z, hz, -, hden⟩ := deflate_round hw hrd.1 hfix
      exact ⟨z, hz, Set.inter_eq_left.mp hden.symm⟩
    · rintro X ⟨c, hc, rfl, hle, hcov⟩
      refine (untilStable_inv (P := fun x => (m.Canon s x ∧ den s x ⊆ den s d) ∧
        den s c ⊆ den s x) (fun x u hx hu => ⟨hstep hx.1 hu, ?_⟩) ⟨⟨hd, subset_rfl⟩, hle⟩ hn).1.2
      obtain ⟨z, hz, -, hden⟩ := deflate_round hw hx.1.1 hu
      obtain ⟨z', hz', habove⟩ := hkeeps x hx.1.1 hx.1.2
      rw [hden, Gives.unique hz hz']
      exact Set.subset_inter hx.2 (habove c hc hx.2 hcov)

/-- The closure lies in its first round. -/
theorem givesGfp_below (hw : m.WF s t) (hd : m.Canon s d) {r : Code s} (hr : m.GivesGfp s t d r) :
    ∃ z, m.Gives s t d z ∧ den s r ⊆ den s z := by
  by_cases htriv : d = (m.algebra s).none ∨ Term.isId s t = true
  · obtain ⟨n, hr⟩ := hr
    have hgfp : gfpAt (m.withFuel n) s t d = .ok d := gfpAt_trivial s t d htriv
    rw [hgfp] at hr
    cases hr
    rcases htriv with hn | hid
    · exact ⟨d, ⟨0, hn ▸ (m.withFuel 0).apply_absent s t⟩, subset_rfl⟩
    · exact ⟨d, ⟨0, apply_isId 0 hid d⟩, subset_rfl⟩
  · obtain ⟨n, hn⟩ := (givesGfp_iff (m := m) s t d r htriv).mp hr
    cases n with
    | zero => cases hn
    | succ n =>
      obtain ⟨u, hu, hn⟩ := bind_eq_ok.mp hn
      obtain ⟨z, hz, huc, hden⟩ := deflate_round hw hd hu
      have huz : den s u ⊆ den s z := hden ▸ Set.inter_subset_right
      refine ⟨z, hz, ?_⟩
      by_cases hstable : u = d
      · rw [if_pos hstable] at hn
        cases hn
        exact hstable ▸ huz
      · rw [if_neg hstable] at hn
        refine (untilStable_inv (P := fun x => m.Canon s x ∧ den s x ⊆ den s z)
          (fun x v hx hv => ?_) ⟨huc, huz⟩ hn).1.2
        obtain ⟨z', -, hvc, hdenv⟩ := deflate_round hw hx.1 hv
        rw [hdenv]
        exact ⟨hvc, Set.inter_subset_left.trans hx.2⟩

/-- The closure is right on every part of a diagram exactly when the term keeps what it
covers there. -/
theorem gfpRight_below_iff (hw : m.WF s t) :
    (∀ x, m.Canon s x → den s x ⊆ den s d → m.GfpRight s t x) ↔ m.KeepsCovered s t d := by
  constructor
  · intro h x hx hxd
    obtain ⟨⟨r, hr⟩, hright⟩ := h x hx hxd
    obtain ⟨z, hz, hrz⟩ := givesGfp_below hw hx hr
    refine ⟨z, hz, fun y hy hyx hcov => ?_⟩
    exact ((hright r hr).2.2 ⟨y, hy, rfl, hyx, hcov⟩).trans hrz
  · intro h x hx hxd
    exact gfpRight_of_keeps hw hx fun y hy hyx => h y hy (hyx.trans hxd)

end Manager

end LibHSC
