import LibHSC.Ctl.Checker

/-!
The answers that stand whatever the reachable set given to the checker: a state found
for a formula with existential operators only satisfies it. What is asked of the
model is that its events and converses are steps and its deadlocks stuck.
-/

namespace LibHSC.Ctl

open Lia (ConnOp Truth)
open Paths

/-! ## State formulas -/

section Values

variable {σ : Type} {step : σ → σ → Prop} {atom : Nat → σ → Truth} {s : σ}

theorem not_eq_ofBool {t : Truth} {b : Bool} :
    t.not = Truth.ofBool b ↔ t = Truth.ofBool (!b) := by
  cases t <;> cases b <;> simp [Truth.not, Truth.ofBool]

theorem step_eq_ofBool (k : ConnOp) (t u : Truth) (b : Bool) :
    k.step t u = Truth.ofBool b ↔
      if k.decisive = Truth.ofBool b then t = Truth.ofBool b ∨ u = Truth.ofBool b
      else t = Truth.ofBool b ∧ u = Truth.ofBool b := by
  cases k <;> cases t <;> cases u <;> cases b <;> decide

mutual

/-- The selector of a state formula keeps the states where it is true. -/
theorem value_sat : (f : Formula) → isState f = true → ∀ b : Bool,
    (value atom f s = Truth.ofBool b ↔ f.Sat step atom b s)
  | .atom _, _, _ => Iff.rfl
  | .tru, _, b => by cases b <;> simp [value, Formula.Sat, Truth.ofBool]
  | .fls, _, b => by cases b <;> simp [value, Formula.Sat, Truth.ofBool]
  | .not f, h, b => by
    rw [value, Formula.Sat, not_eq_ofBool]
    exact value_sat f h (!b)
  | .nary .conj kids, h, b => by
    rw [value, Formula.Sat]
    exact valueAll_sat .conj kids h b
  | .nary .disj kids, h, b => by
    rw [value, Formula.Sat]
    exact valueAll_sat .disj kids h b

theorem valueAll_sat (k : ConnOp) : (fs : List Formula) → isStateList fs = true → ∀ b : Bool,
    (valueAll atom k fs s = Truth.ofBool b ↔ (match k with
      | .conj => if b then SatAll step atom fs b s else SatAny step atom fs b s
      | .disj => if b then SatAny step atom fs b s else SatAll step atom fs b s))
  | [], _, b => by
    cases k <;> cases b <;>
      simp [valueAll, SatAll, SatAny, Truth.ofBool, ConnOp.decisive, Truth.not]
  | f :: fs, h, b => by
    obtain ⟨hf, hfs⟩ := Bool.and_eq_true_iff.mp h
    have hhead := value_sat f hf b
    have htail := valueAll_sat k fs hfs b
    rw [valueAll, step_eq_ofBool, hhead, htail]
    cases k <;> cases b <;> simp [SatAll, SatAny, ConnOp.decisive, Truth.ofBool]

end

end Values

/-! ## Loops -/

section Loops

variable {σ : Type} [DecidableEq σ]

theorem mem_successors {evs : List (σ → Finset σ)} {x y : σ} :
    y ∈ successors evs x ↔ ∃ e ∈ evs, y ∈ e x := by
  induction evs with
  | nil => simp [successors]
  | cons e evs ih =>
    have hcons : successors (e :: evs) x = e x ∪ successors evs x := rfl
    rw [hcons, Finset.mem_union, ih]
    simp

theorem mem_image {evs : List (σ → Finset σ)} {s : Finset σ} {y : σ} :
    y ∈ image evs s ↔ ∃ x ∈ s, y ∈ successors evs x := by
  simp [image]

variable {h : Finset σ → Finset σ}

/-- What holds at the start and passes through a round holds of the fixpoint. -/
theorem lfpLoop_induct {P : σ → Prop} (hround : ∀ x : Finset σ, (∀ a ∈ x, P a) → ∀ a ∈ h x, P a) :
    ∀ {n : Nat} {x y : Finset σ}, lfpLoop h n x = .ok y → (∀ a ∈ x, P a) → ∀ a ∈ y, P a := by
  intro n
  induction n with
  | zero =>
    intro x y hl
    cases hl
  | succ n ih =>
    intro x y hl hx
    unfold lfpLoop at hl
    split at hl
    · cases hl
      exact hx
    · refine ih hl fun a ha => ?_
      rcases Finset.mem_union.mp ha with ha | ha
      · exact hx a ha
      · exact hround x hx a ha

theorem lfpLoop_closed : ∀ {n : Nat} {x y : Finset σ}, lfpLoop h n x = .ok y → x ⊆ y ∧ h y ⊆ y := by
  intro n
  induction n with
  | zero =>
    intro x y hl
    cases hl
  | succ n ih =>
    intro x y hl
    unfold lfpLoop at hl
    split at hl
    · next heq =>
      cases hl
      exact ⟨subset_rfl, Finset.union_eq_left.mp heq⟩
    · obtain ⟨hsub, hclosed⟩ := ih hl
      exact ⟨Finset.union_subset_left hsub, hclosed⟩

/-- The greatest fixpoint supports itself, and holds every set that does. -/
theorem gfpLoop_spec (hmono : ∀ {x y : Finset σ}, x ⊆ y → h x ⊆ h y) :
    ∀ {n : Nat} {x y : Finset σ}, gfpLoop h n x = .ok y →
      y ⊆ x ∧ y ⊆ h y ∧ ∀ z ⊆ x, z ⊆ h z → z ⊆ y := by
  intro n
  induction n with
  | zero =>
    intro x y hl
    cases hl
  | succ n ih =>
    intro x y hl
    unfold gfpLoop at hl
    split at hl
    · next heq =>
      cases hl
      exact ⟨subset_rfl, Finset.inter_eq_left.mp heq, fun z hz _ => hz⟩
    · obtain ⟨hsub, hself, hgreat⟩ := ih hl
      refine ⟨hsub.trans Finset.inter_subset_left, hself, fun z hz hsup => ?_⟩
      exact hgreat z (Finset.subset_inter hz (hsup.trans (hmono hz))) hsup

theorem image_mono {evs : List (σ → Finset σ)} {x y : Finset σ} (hxy : x ⊆ y) :
    image evs x ⊆ image evs y := by
  intro a ha
  obtain ⟨b, hb, hab⟩ := mem_image.mp ha
  exact mem_image.mpr ⟨b, hxy hb, hab⟩

end Loops

/-! ## Operators -/

/-- The events and converses of the model are steps, its deadlocks stuck. -/
structure Model.Steps {σ : Type} [DecidableEq σ] (M : Model σ) (step : σ → σ → Prop) : Prop where
  next : ∀ x y, y ∈ successors M.next x → step x y
  pred : ∀ x y, y ∈ successors M.pred x → step y x
  rawPred : ∀ x y, y ∈ successors M.rawPred x → step y x
  dead : ∀ x ∈ M.dead, Stuck step x

/-- The formula is true at the state, on the graph of `step`. -/
def Model.Holds {σ : Type} (M : Model σ) (step : σ → σ → Prop) (f : Formula) (x : σ) : Prop :=
  f.Sat step M.atom true x

namespace Model

variable {σ : Type} [DecidableEq σ] {M : Model σ} {step : σ → σ → Prop} {ids : Formula → Nat}
  {rounds depth : Nat} {S : Formula → Except Halt (Finset σ)} {f g q : Formula}
  {start res : Finset σ}

omit [DecidableEq σ] in
theorem mem_filter (hq : isState q = true) {s : Finset σ} {x : σ} :
    x ∈ M.filter s q ↔ x ∈ s ∧ M.Holds step q x := by
  rw [filter, Finset.mem_filter]
  exact and_congr_right fun _ => value_sat q hq true

variable (M step S) in
/-- A constraint of a closure by `q`: the selector of a state formula, or a `Sat`. -/
def Constraint (q : Formula) (C : Finset σ → Finset σ) : Prop :=
  ∃ c : σ → Prop, (∀ X x, x ∈ C X ↔ x ∈ X ∧ c x) ∧
    ((isState q = true ∧ ∀ x, c x ↔ M.Holds step q x) ∨ ∃ s, S q = .ok s ∧ ∀ x, c x ↔ x ∈ s)

/-- A constrained closure returns its start, or is a loop under a constraint. -/
theorem constrainedLfp_cases (step : σ → σ → Prop) {backward before : Bool}
    (h : M.constrainedLfp rounds S backward start q before = .ok res) :
    (res = start ∧ (start = ∅ ∨ M.events backward = [] ∨ q = .fls)) ∨
    ∃ C, M.Constraint step S q C ∧ lfpLoop (fun x => if before then
      image (M.events backward) (C x) else C (image (M.events backward) x)) rounds start =
        .ok res := by
  unfold constrainedLfp at h
  split at h
  · next hempty =>
    cases h
    exact .inl ⟨hempty.symm, .inl hempty⟩
  · split at h
    · next hev =>
      cases h
      exact .inl ⟨rfl, .inr (.inl (List.isEmpty_iff.mp hev))⟩
    · split at h
      · next hq =>
        cases h
        exact .inl ⟨rfl, .inr (.inr hq)⟩
      · split at h
        · next hq =>
          refine .inr ⟨fun x => M.filter x q, ⟨M.Holds step q, fun X x => mem_filter hq,
            .inl ⟨hq, fun x => Iff.rfl⟩⟩, ?_⟩
          cases before <;> exact h
        · obtain ⟨s, hs, h⟩ := bind_eq_ok.mp h
          refine .inr ⟨fun x => x ∩ s, ⟨(· ∈ s), fun X x => Finset.mem_inter,
            .inr ⟨s, hs, fun x => Iff.rfl⟩⟩, ?_⟩
          cases before <;> exact h

variable (M step S) in
/-- What the evaluation finds for `f` satisfies it. -/
def SoundAt (f : Formula) : Prop := ∀ s, S f = .ok s → ∀ x ∈ s, M.Holds step f x

omit [DecidableEq σ] in
theorem Constraint.sound {C : Finset σ → Finset σ} (hC : M.Constraint step S q C)
    (hS : M.SoundAt step S q) {X : Finset σ} {x : σ} (hx : x ∈ C X) :
    x ∈ X ∧ M.Holds step q x := by
  obtain ⟨c, hmem, hc⟩ := hC
  obtain ⟨hX, hcx⟩ := (hmem X x).mp hx
  rcases hc with ⟨-, hiff⟩ | ⟨s, hs, hiff⟩
  · exact ⟨hX, (hiff x).mp hcx⟩
  · exact ⟨hX, hS s hs x ((hiff x).mp hcx)⟩

/-- Backward: what is closed reaches the start through `q`. -/
theorem constrainedLfp_backward (hM : M.Steps step) (hS : M.SoundAt step S q)
    (h : M.constrainedLfp rounds S true start q false = .ok res) {G : σ → Prop}
    (hstart : ∀ x ∈ start, G x) : ∀ x ∈ res, Chain step (M.Holds step q) G x := by
  rcases constrainedLfp_cases step h with ⟨rfl, -⟩ | ⟨C, hC, hl⟩
  · exact fun x hx => .goal (hstart x hx)
  · refine lfpLoop_induct (fun X hX y hy => ?_) hl fun x hx => .goal (hstart x hx)
    obtain ⟨him, hq⟩ := hC.sound hS hy
    obtain ⟨x, hx, hyx⟩ := mem_image.mp him
    exact .cons hq (hM.pred x y hyx) (hX x hx)

/-- Forward: what is closed is reached from the start through `q`. -/
theorem constrainedLfp_forward (hM : M.Steps step) (hS : M.SoundAt step S q)
    (h : M.constrainedLfp rounds S false start q true = .ok res) :
    ∀ y ∈ res, ∃ x ∈ start, Chain step (M.Holds step q) (· = y) x := by
  rcases constrainedLfp_cases step h with ⟨rfl, -⟩ | ⟨C, hC, hl⟩
  · exact fun x hx => ⟨x, hx, .goal rfl⟩
  · refine lfpLoop_induct (fun X hX y hy => ?_) hl fun x hx => ⟨x, hx, .goal rfl⟩
    obtain ⟨z, hz, hyz⟩ := mem_image.mp hy
    obtain ⟨hzX, hq⟩ := hC.sound hS hz
    obtain ⟨x, hx, hchain⟩ := hX z hzX
    refine ⟨x, hx, Chain.trans (hchain.mono (fun _ h => h) ?_)⟩
    rintro w rfl
    exact .cons hq (hM.next w y hyz) (.goal rfl)

theorem satEu_sound (hM : M.Steps step) (hf : M.SoundAt step S f) (hg : M.SoundAt step S g)
    (h : M.satEu rounds S f g = .ok res) :
    ∀ x ∈ res, Chain step (M.Holds step f) (M.Holds step g) x := by
  obtain ⟨sg, hsg, h⟩ := bind_eq_ok.mp h
  split at h
  · cases h
  · exact constrainedLfp_backward hM hf h (hg sg hsg)

variable (M step) in
/-- Some path from the state is in `f` all along. -/
def HoldsEg (f : Formula) (x : σ) : Prop :=
  ∃ π, MaxPath step x π ∧ Globally (M.Holds step f) π

omit [DecidableEq σ] in
/-- A set that supports itself backward holds an infinite path from each state. -/
theorem holdsEg_of_support {X : Finset σ} (hf : ∀ x ∈ X, M.Holds step f x)
    (hX : ∀ x ∈ X, ∃ y ∈ X, step x y) : ∀ x ∈ X, M.HoldsEg step f x := by
  intro x hx
  refine exists_globally_iff.mpr ⟨(· ∈ X), hx, hf, fun z hz => ?_⟩
  obtain ⟨y, hy, hst⟩ := hX z hz
  exact .inr ⟨y, hst, hy⟩

theorem hull_backward (hM : M.Steps step) (hpred : M.pred.isEmpty = false) {x0 : Finset σ}
    (h : M.hull rounds true x0 = .ok res) : res ⊆ x0 ∧ ∀ x ∈ res, ∃ y ∈ res, step x y := by
  have hev : ∀ x y, y ∈ successors (M.hullEvents true) x → step y x := by
    intro x y hy
    rw [hullEvents, if_pos rfl] at hy
    split at hy
    · exact hM.pred x y hy
    · exact hM.rawPred x y hy
  have hne : (M.hullEvents true).isEmpty = false := by
    rw [hullEvents, if_pos rfl]
    split
    · exact hpred
    · next hraw => exact Bool.eq_false_iff.mpr hraw
  unfold hull at h
  split at h
  · next hor =>
    cases h
    rcases hor with rfl | hor
    · simp
    · rw [hne] at hor
      cases hor
  · obtain ⟨hsub, hself, -⟩ := gfpLoop_spec image_mono h
    refine ⟨hsub, fun x hx => ?_⟩
    obtain ⟨y, hy, hxy⟩ := mem_image.mp (hself hx)
    exact ⟨y, hy, hev y x hxy⟩

theorem addHull_sound (hM : M.Steps step) (hpred : M.pred.isEmpty = false) {sf r : Finset σ}
    (hf : ∀ x ∈ sf, M.Holds step f x) (hr : ∀ x ∈ r, M.HoldsEg step f x)
    (h : M.addHull rounds sf r = .ok res) : ∀ x ∈ res, M.HoldsEg step f x := by
  unfold addHull at h
  split at h
  · cases h
    exact hr
  · obtain ⟨c, -, h⟩ := bind_eq_ok.mp h
    split at h
    · obtain ⟨b, -, h⟩ := bind_eq_ok.mp h
      split at h
      · obtain ⟨X, hX, h⟩ := bind_eq_ok.mp h
        cases h
        obtain ⟨hsub, hself⟩ := hull_backward hM hpred hX
        intro x hx
        rcases Finset.mem_union.mp hx with hx | hx
        · exact hr x hx
        · exact holdsEg_of_support (fun y hy => hf y (hsub hy)) hself x hx
      · cases h
        exact hr
    · cases h
      exact hr

theorem satEg_sound (hM : M.Steps step) (hf : M.SoundAt step S f)
    (h : M.satEg rounds S f = .ok res) : ∀ x ∈ res, M.HoldsEg step f x := by
  obtain ⟨sf, hsf, h⟩ := bind_eq_ok.mp h
  split at h
  · cases h
  · next hpred =>
    obtain ⟨r, hr, h⟩ := bind_eq_ok.mp h
    -- the paths that end in a deadlock
    have hdead : ∀ y ∈ M.dead ∩ sf, M.HoldsEg step f y := by
      intro y hy
      obtain ⟨hd, hy⟩ := Finset.mem_inter.mp hy
      exact exists_globally_of_stuck (hf sf hsf y hy) (hM.dead y hd)
    have hend : ∀ x ∈ r, M.HoldsEg step f x := fun x hx =>
      exists_globally_of_chain (constrainedLfp_backward hM hf hr hdead x hx)
    exact addHull_sound hM (Bool.eq_false_iff.mpr hpred) (hf sf hsf) hend h

theorem satAll_conj {fs : List Formula} : ∀ {acc : Finset σ}, satAll S .conj acc fs = .ok res →
    ∀ x, x ∈ res ↔ x ∈ acc ∧ ∀ f ∈ fs, ∃ s, S f = .ok s ∧ x ∈ s := by
  induction fs with
  | nil =>
    intro acc h x
    cases h
    simp
  | cons f fs ih =>
    intro acc h x
    obtain ⟨s, hs, h⟩ := bind_eq_ok.mp h
    rw [ih h x, List.forall_mem_cons, Finset.mem_inter, and_assoc]
    refine and_congr_right fun _ => and_congr_left fun _ => ?_
    exact ⟨fun hx => ⟨s, hs, hx⟩, fun ⟨s', hs', hx⟩ => by cases hs.symm.trans hs'; exact hx⟩

theorem satAll_disj {fs : List Formula} : ∀ {acc : Finset σ}, satAll S .disj acc fs = .ok res →
    ∀ x, x ∈ res ↔ x ∈ acc ∨ ∃ f ∈ fs, ∃ s, S f = .ok s ∧ x ∈ s := by
  induction fs with
  | nil =>
    intro acc h x
    cases h
    simp
  | cons f fs ih =>
    intro acc h x
    obtain ⟨s, hs, h⟩ := bind_eq_ok.mp h
    rw [ih h x, List.exists_mem_cons_iff, Finset.mem_union, or_assoc]
    refine or_congr_right (or_congr_left ?_)
    exact ⟨fun hx => ⟨s, hs, hx⟩, fun ⟨s', hs', hx⟩ => by cases hs.symm.trans hs'; exact hx⟩

theorem both_eq_ok {u g : Except Halt (Finset σ)} (h : both u g = .ok res) :
    ∃ a b, u = .ok a ∧ g = .ok b ∧ res = a ∪ b := by
  unfold both at h
  split at h
  · cases h
    exact ⟨_, _, rfl, rfl, rfl⟩
  · cases h
  · cases h
  · cases h

/-- What is found for a normal form with existential operators only satisfies it. -/
theorem sat_sound (hM : M.Steps step) : ∀ {n : Nat} {f : Formula}, f.Nnf → f.Only true →
    M.SoundAt step (M.sat ids rounds n) f := by
  intro n
  induction n with
  | zero =>
    intro f _ _ s h
    cases h
  | succ n ih =>
    intro f hn ho s h x hx
    unfold sat at h
    split at h
    · next hstate =>
      cases h
      exact ((mem_filter hstate).mp hx).2
    · next hstate =>
      cases f with
      | atom a => exact absurd rfl hstate
      | tru => exact absurd rfl hstate
      | fls => exact absurd rfl hstate
      | not g =>
        cases g with
        | atom a => exact absurd rfl hstate
        | _ => exact hn.elim
      | nary k kids =>
        have hkid : ∀ f ∈ kids, M.SoundAt step (M.sat ids rounds n) f := fun f hf =>
          ih (nnfList_iff.mp hn f hf) (onlyList_iff.mp ho f hf)
        cases k with
        | conj =>
          refine sat_conj.mpr fun f hf => ?_
          obtain ⟨s', hs', hx⟩ := ((satAll_conj h x).mp hx).2 f hf
          exact hkid f hf s' hs' x hx
        | disj =>
          obtain ⟨f, hf, s', hs', hx⟩ :=
            ((satAll_disj h x).mp hx).resolve_left (Finset.notMem_empty x)
          exact sat_disj.mpr ⟨f, hf, hkid f hf s' hs' x hx⟩
      | unary o g =>
        have hg : M.SoundAt step (M.sat ids rounds n) g := ih hn ho.2
        cases o with
        | ex =>
          obtain ⟨s', hs', h⟩ := bind_eq_ok.mp h
          split at h
          · cases h
          · cases h
            obtain ⟨y, hy, hxy⟩ := mem_image.mp hx
            exact exists_next_iff.mpr ⟨y, hM.pred y x hxy, hg s' hs' y hy⟩
        | ef =>
          have htrue : M.SoundAt step (M.sat ids rounds n) (constant true) :=
            ih (f := .tru) trivial trivial
          have hchain := satEu_sound hM htrue hg h x hx
          obtain ⟨π, hπ, m, hm, -⟩ := exists_until_iff.mpr hchain
          exact ⟨π, hπ, m, hm⟩
        | eg => exact satEg_sound hM hg h x hx
        | ax => cases ho.1
        | af => cases ho.1
        | ag => cases ho.1
      | binary o f g =>
        have hf := ih hn.1 ho.2.1
        have hg := ih hn.2 ho.2.2
        cases o with
        | eu => exact exists_until_iff.mpr (satEu_sound hM hf hg h x hx)
        | ew =>
          obtain ⟨a, b, ha, hb, rfl⟩ := both_eq_ok h
          rcases Finset.mem_union.mp hx with hx | hx
          · obtain ⟨π, hπ, hu⟩ := exists_until_iff.mpr (satEu_sound hM hf hg ha x hx)
            exact ⟨π, hπ, .inl hu⟩
          · obtain ⟨π, hπ, hall⟩ := satEg_sound hM hf hb x hx
            exact ⟨π, hπ, .inr hall⟩
        | au => cases ho.1
        | aw => cases ho.1

end Model

end LibHSC.Ctl
