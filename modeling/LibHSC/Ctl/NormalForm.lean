import LibHSC.Ctl.Quantifiers

/-!
The negation normal form over a graph whose atoms hold or do not at each state. The
normal form of a formula holds where the formula does, the normal form of its negation
where it does not; and a normal form is its own normal form, since the constructor of
connectives leaves alone what it made.
-/

namespace LibHSC.Ctl

open Lia (ConnOp Truth)
open Paths

section Meaning

variable {σ : Type} (step : σ → σ → Prop) (holds : Nat → σ → Prop)

mutual

/-- The formula holds at the state; a state without successor ends its paths. -/
def Formula.Models : Formula → σ → Prop
  | .atom a, s => holds a s
  | .tru, _ => True
  | .fls, _ => False
  | .not f, s => ¬ f.Models s
  | .nary .conj kids, s => ModelsAll kids s
  | .nary .disj kids, s => ModelsAny kids s
  | .unary o f, s => o.Holds step f.Models s
  | .binary o f g, s => o.Holds step f.Models g.Models s

def ModelsAll : List Formula → σ → Prop
  | [], _ => True
  | f :: fs, s => f.Models s ∧ ModelsAll fs s

def ModelsAny : List Formula → σ → Prop
  | [], _ => False
  | f :: fs, s => f.Models s ∨ ModelsAny fs s

end

open Classical in
/-- The truth values of atoms that hold or do not. -/
noncomputable def truthOf (a : Nat) (s : σ) : Truth := Truth.ofBool (decide (holds a s))

end Meaning

section Duals

variable {σ : Type} {step : σ → σ → Prop} {P Q : σ → Prop} {s : σ}

theorem not_at_iff {π : Nat → Option σ} {n : Nat} :
    ¬ At π n P ↔ ∀ x, π n = some x → ¬ P x := by
  constructor
  · exact fun h x hx hp => h ⟨x, hx, hp⟩
  · rintro h ⟨x, hx, hp⟩
    exact h x hx hp

theorem not_globally_iff {π : Nat → Option σ} :
    ¬ Globally P π ↔ ∃ n, At π n fun x => ¬ P x := by
  constructor
  · intro h
    by_contra hno
    refine h fun n x hx => ?_
    by_contra hp
    exact hno ⟨n, x, hx, hp⟩
  · rintro ⟨n, x, hx, hp⟩ hall
    exact hp (hall n x hx)

theorem globally_not_iff {π : Nat → Option σ} :
    Globally (fun x => ¬ P x) π ↔ ¬ ∃ n, At π n P := by
  constructor
  · rintro h ⟨n, x, hx, hp⟩
    exact h n x hx hp
  · exact fun h n x hx hp => h ⟨n, x, hx, hp⟩

/-- Where the way and the goal have truth values, no until is what is left. -/
theorem not_until_iff {π : Nat → Option σ} (hπ : MaxPath step s π) :
    NotUntil (fun x => ¬ P x) (fun x => ¬ Q x) π ↔ ¬ Until P Q π := by
  constructor
  · rintro hno ⟨n, ⟨x, hx, hq⟩, hway⟩
    obtain ⟨m, hm, y, hy, hp⟩ := (hno n x hx).resolve_left (not_not.mpr hq)
    obtain ⟨z, hz, hpz⟩ := hway m hm
    obtain rfl := Option.some.inj (hy.symm.trans hz)
    exact hp hpz
  · intro h n x hx
    by_cases hq : Q x
    · right
      by_contra hno
      refine h ⟨n, ⟨x, hx, hq⟩, fun m hm => ?_⟩
      obtain ⟨y, hy⟩ := hπ.defined_before hx hm.le
      refine ⟨y, hy, ?_⟩
      by_contra hp
      exact hno ⟨m, hm, y, hy, hp⟩
    · exact .inl hq

theorem UnaryOp.fails_not (o : UnaryOp) :
    o.Fails step (fun x => ¬ P x) s ↔ ¬ o.Holds step P s := by
  cases o with
  | ex =>
    simp only [Fails, Holds, not_exists, not_and, not_at_iff]
  | ax =>
    simp only [Fails, Holds, not_forall, exists_prop, At]
  | ef =>
    simp only [Fails, Holds, not_exists, not_and, globally_not_iff]
  | af =>
    simp only [Fails, Holds, not_forall, exists_prop, globally_not_iff]
  | eg =>
    simp only [Fails, Holds, not_exists, not_and, not_globally_iff]
  | ag =>
    simp only [Fails, Holds, not_forall, exists_prop, not_globally_iff]

theorem BinaryOp.fails_not (o : BinaryOp) :
    o.Fails step (fun x => ¬ P x) (fun x => ¬ Q x) s ↔ ¬ o.Holds step P Q s := by
  have hweak : ∀ π, MaxPath step s π →
      ((NotUntil (fun x => ¬ P x) (fun x => ¬ Q x) π ∧ ∃ n, At π n fun x => ¬ P x) ↔
        ¬ (Until P Q π ∨ Globally P π)) := by
    intro π hπ
    rw [not_or, not_until_iff hπ, not_globally_iff]
  cases o with
  | eu =>
    simp only [Fails, Holds, not_exists, not_and]
    exact forall₂_congr fun π hπ => not_until_iff hπ
  | au =>
    simp only [Fails, Holds, not_forall, exists_prop]
    exact exists_congr fun π => and_congr_right fun hπ => not_until_iff hπ
  | ew =>
    simp only [Fails, Holds, not_exists, not_and]
    exact forall₂_congr hweak
  | aw =>
    simp only [Fails, Holds, not_forall, exists_prop]
    exact exists_congr fun π => and_congr_right (hweak π)

end Duals

section Values

variable {σ : Type} {step : σ → σ → Prop} {holds : Nat → σ → Prop}

/-- A formula over atoms that hold or do not is true where it holds, false elsewhere. -/
def TwoValued (step : σ → σ → Prop) (holds : Nat → σ → Prop) (f : Formula) : Prop :=
  ∀ s, (f.Sat step (truthOf holds) true s ↔ f.Models step holds s) ∧
    (f.Sat step (truthOf holds) false s ↔ ¬ f.Models step holds s)

theorem truthOf_eq_ofBool {a : Nat} {s : σ} {b : Bool} :
    truthOf holds a s = Truth.ofBool b ↔ (b = true ↔ holds a s) := by
  unfold truthOf
  by_cases h : holds a s <;> cases b <;> simp [h, Truth.ofBool]

mutual

theorem twoValued : (f : Formula) → TwoValued step holds f
  | .atom a => fun s => by
    rw [Formula.Sat, Formula.Sat, truthOf_eq_ofBool, truthOf_eq_ofBool, Formula.Models]
    simp
  | .tru => fun s => by simp [Formula.Sat, Formula.Models]
  | .fls => fun s => by simp [Formula.Sat, Formula.Models]
  | .not f => fun s => by
    obtain ⟨ht, hf⟩ := twoValued f s
    rw [Formula.Sat, Formula.Sat, Formula.Models, not_not]
    exact ⟨hf, ht⟩
  | .nary .conj kids => fun s => by
    simp only [Formula.Sat, Formula.Models, if_true, Bool.false_eq_true, if_false]
    exact ⟨twoValuedAll true kids s, twoValuedAll false kids s⟩
  | .nary .disj kids => fun s => by
    simp only [Formula.Sat, Formula.Models, if_true, Bool.false_eq_true, if_false]
    exact ⟨twoValuedAny true kids s, twoValuedAny false kids s⟩
  | .unary o f => fun s => by
    have h := twoValued f
    simp only [Formula.Sat, Formula.Models, if_true, Bool.false_eq_true, if_false]
    refine ⟨UnaryOp.holds_congr fun x => (h x).1, ?_⟩
    exact (UnaryOp.fails_congr fun x => (h x).2).trans o.fails_not
  | .binary o f g => fun s => by
    have hf := twoValued f
    have hg := twoValued g
    simp only [Formula.Sat, Formula.Models, if_true, Bool.false_eq_true, if_false]
    refine ⟨BinaryOp.holds_congr (fun x => (hf x).1) fun x => (hg x).1, ?_⟩
    exact (BinaryOp.fails_congr (fun x => (hf x).2) fun x => (hg x).2).trans o.fails_not

/-- A conjunction: all operands are true, or one is false. -/
theorem twoValuedAll (b : Bool) : (fs : List Formula) → ∀ s,
    ((if b then SatAll step (truthOf holds) fs b s else SatAny step (truthOf holds) fs b s) ↔
      (if b then ModelsAll step holds fs s else ¬ ModelsAll step holds fs s))
  | [], s => by cases b <;> simp [SatAll, SatAny, ModelsAll]
  | f :: fs, s => by
    obtain ⟨ht, hf⟩ := twoValued f s
    have hrest := twoValuedAll b fs s
    cases b with
    | true =>
      simp only [if_true, SatAll, ModelsAll] at hrest ⊢
      exact and_congr ht hrest
    | false =>
      simp only [Bool.false_eq_true, if_false, SatAny, ModelsAll, not_and_or] at hrest ⊢
      exact or_congr hf hrest

theorem twoValuedAny (b : Bool) : (fs : List Formula) → ∀ s,
    ((if b then SatAny step (truthOf holds) fs b s else SatAll step (truthOf holds) fs b s) ↔
      (if b then ModelsAny step holds fs s else ¬ ModelsAny step holds fs s))
  | [], s => by cases b <;> simp [SatAll, SatAny, ModelsAny]
  | f :: fs, s => by
    obtain ⟨ht, hf⟩ := twoValued f s
    have hrest := twoValuedAny b fs s
    cases b with
    | true =>
      simp only [if_true, SatAny, ModelsAny] at hrest ⊢
      exact or_congr ht hrest
    | false =>
      simp only [Bool.false_eq_true, if_false, SatAll, ModelsAny, not_or] at hrest ⊢
      exact and_congr hf hrest

end

end Values

/-! ## What the constructor makes it leaves alone -/

mutual

/-- A formula as the constructors make it, in negation normal form. -/
def Formula.Normal (ids : Formula → Nat) : Formula → Prop
  | .not (.atom _) => True
  | .not _ => False
  | .nary k kids => 2 ≤ kids.length ∧ (kids.Pairwise fun f g => ids f ≤ ids g) ∧ kids.Nodup ∧
      NormalKids ids k kids
  | .unary _ f => f.Normal ids
  | .binary _ f g => f.Normal ids ∧ g.Normal ids
  | _ => True

/-- Operands that neither splice, nor drop out, nor decide. -/
def NormalKids (ids : Formula → Nat) (k : ConnOp) : List Formula → Prop
  | [] => True
  | f :: fs => (f.Normal ids ∧ f.Kept k ∧ f ≠ absorbing k) ∧ NormalKids ids k fs

end

section Normal

variable {ids : Formula → Nat} {k : ConnOp} {fs : List Formula}

theorem normalKids_iff :
    NormalKids ids k fs ↔ ∀ f ∈ fs, f.Normal ids ∧ f.Kept k ∧ f ≠ absorbing k := by
  induction fs with
  | nil => simp [NormalKids]
  | cons f fs ih => rw [NormalKids, ih, List.forall_mem_cons]

theorem flattenKids_cons_kept {f : Formula} (h : f.Kept k) :
    flattenKids k (f :: fs) = f :: flattenKids k fs := by
  cases f with
  | nary k' gs =>
    rw [flattenKids, if_neg]
    rintro rfl
    exact h.1 gs rfl
  | _ => exact if_neg h.2

theorem flattenKids_of_kept (h : ∀ f ∈ fs, f.Kept k) : flattenKids k fs = fs := by
  induction fs with
  | nil => rfl
  | cons f fs ih =>
    obtain ⟨hf, hfs⟩ := List.forall_mem_cons.mp h
    rw [flattenKids_cons_kept hf, ih hfs]

/-- The operands kept from normal ones. -/
theorem normalKids_flatten (h : ∀ f ∈ fs, f.Normal ids) (hab : absorbing k ∉ fs) :
    ∀ f ∈ flattenKids k fs, f.Normal ids ∧ f.Kept k ∧ f ≠ absorbing k := by
  intro f hf
  rcases mem_flattenKids hf with ⟨hf, hkept⟩ | ⟨gs, hgs, hf⟩
  · refine ⟨h f hf, hkept, ?_⟩
    rintro rfl
    exact hab hf
  · exact normalKids_iff.mp (h _ hgs).2.2.2 f hf

theorem nary_normal (h : ∀ f ∈ fs, f.Normal ids) : (nary ids k fs).Normal ids := by
  have htop : ∀ f ∈ [neutral k, absorbing k], f.Normal ids := by
    cases k <;> simp [neutral, absorbing, Formula.Normal]
  unfold nary
  split
  · exact htop _ (by simp)
  · next hab =>
    have hkids := normalKids_flatten h hab
    have hmem : ∀ f ∈ sortKids ids (flattenKids k fs).dedup,
        f.Normal ids ∧ f.Kept k ∧ f ≠ absorbing k :=
      fun f hf => hkids f (List.mem_dedup.mp (mem_sortKids.mp hf))
    have hsort : (sortKids ids (flattenKids k fs).dedup).Pairwise fun f g => ids f ≤ ids g := by
      have : Std.Total fun f g : Formula => ids f ≤ ids g := ⟨fun f g => Nat.le_total _ _⟩
      have : IsTrans Formula fun f g => ids f ≤ ids g := ⟨fun _ _ _ => Nat.le_trans⟩
      exact List.pairwise_insertionSort _ _
    have hnd : (sortKids ids (flattenKids k fs).dedup).Nodup :=
      (List.perm_insertionSort _ _).nodup_iff.mpr (List.nodup_dedup _)
    unfold packKids
    split
    · exact htop _ (by simp)
    · next f heq => exact (hmem f (heq ▸ List.mem_singleton.mpr rfl)).1
    · next hnil hone =>
      refine ⟨?_, hsort, hnd, normalKids_iff.mpr hmem⟩
      cases heq : sortKids ids (flattenKids k fs).dedup with
      | nil => exact absurd heq hnil
      | cons f rest =>
        cases rest with
        | nil => exact absurd heq (hone f)
        | cons _ _ => simp

/-- A normal connective is made again of its operands. -/
theorem nary_of_normal (h : (Formula.nary k fs).Normal ids) : nary ids k fs = .nary k fs := by
  obtain ⟨hlen, hsort, hnd, hkids⟩ := h
  have hkids := normalKids_iff.mp hkids
  have hab : absorbing k ∉ fs := fun hm => (hkids _ hm).2.2 rfl
  have hflat : flattenKids k fs = fs := flattenKids_of_kept fun f hf => (hkids f hf).2.1
  rw [nary, if_neg hab, hflat, hnd.dedup, sortKids, hsort.insertionSort_eq]
  match fs, hlen with
  | _ :: _ :: _, _ => rfl

mutual

theorem nnf_normal : (f : Formula) → (nnf ids f).Normal ids
  | .atom _ => trivial
  | .tru => trivial
  | .fls => trivial
  | .not f => negate_normal f
  | .nary _ kids => nary_normal (nnfList_normal kids)
  | .unary _ f => nnf_normal f
  | .binary _ f g => ⟨nnf_normal f, nnf_normal g⟩

theorem negate_normal : (f : Formula) → (negate ids f).Normal ids
  | .atom _ => trivial
  | .tru => trivial
  | .fls => trivial
  | .not f => nnf_normal f
  | .nary _ kids => nary_normal (negateList_normal kids)
  | .unary _ f => negate_normal f
  | .binary _ f g => by
    have hf := negate_normal f
    have hg := negate_normal g
    refine ⟨hg, nary_normal ?_⟩
    simp [hf, hg]

theorem nnfList_normal : (fs : List Formula) → ∀ f ∈ nnfList ids fs, f.Normal ids
  | [] => by simp [nnfList]
  | f :: fs => List.forall_mem_cons.mpr ⟨nnf_normal f, nnfList_normal fs⟩

theorem negateList_normal : (fs : List Formula) → ∀ f ∈ negateList ids fs, f.Normal ids
  | [] => by simp [negateList]
  | f :: fs => List.forall_mem_cons.mpr ⟨negate_normal f, negateList_normal fs⟩

end

mutual

theorem nnf_of_normal : (f : Formula) → f.Normal ids → nnf ids f = f
  | .atom _, _ => rfl
  | .tru, _ => rfl
  | .fls, _ => rfl
  | .not (.atom _), _ => rfl
  | .nary k kids, h => by
    rw [nnf, nnfList_of_normal k kids h.2.2.2]
    exact nary_of_normal h
  | .unary o f, h => by rw [nnf, nnf_of_normal f h]
  | .binary o f g, h => by rw [nnf, nnf_of_normal f h.1, nnf_of_normal g h.2]

theorem nnfList_of_normal (k : ConnOp) : (fs : List Formula) → NormalKids ids k fs →
    nnfList ids fs = fs
  | [], _ => rfl
  | f :: fs, h => by
    rw [nnfList, nnf_of_normal f h.1.1, nnfList_of_normal k fs h.2]

end

end Normal

/-- The normal form of the negation holds where the formula does not, the normal form where
it does; the normal form has negations on atoms only, and is its own normal form. -/
theorem nnf_negate_spec {σ : Type} (step : σ → σ → Prop) (holds : Nat → σ → Prop)
    (ids : Formula → Nat) (f : Formula) :
    (∀ s, (negate ids f).Models step holds s ↔ ¬ f.Models step holds s) ∧
      (∀ s, (nnf ids f).Models step holds s ↔ f.Models step holds s) ∧
      (nnf ids f).Nnf ∧ (negate ids f).Nnf ∧ nnf ids (nnf ids f) = nnf ids f := by
  refine ⟨fun s => ?_, fun s => ?_, nnf_nnf f, negate_nnf f, nnf_of_normal _ (nnf_normal f)⟩
  · rw [← (twoValued (negate ids f) s).1, negate_sat]
    exact (twoValued f s).2
  · rw [← (twoValued (nnf ids f) s).1, nnf_sat]
    exact (twoValued f s).1

end LibHSC.Ctl
