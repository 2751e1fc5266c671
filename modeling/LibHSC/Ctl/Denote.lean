import LibHSC.Ctl.Sound

/-!
What the set expressions denote, and the forward conversion against it: the leaves of
the questions asked of a seed are inhabited exactly when some state of the seed
satisfies the formula.
-/

namespace LibHSC.Ctl

open Lia (ConnOp)
open Paths

variable {σ : Type}

/-- The states of a set expression. That of a globally is inhabited, by any state,
when some state of its operand starts such a path. -/
def SetExpr.Den (M : Model σ) (step : σ → σ → Prop) : SetExpr → σ → Prop
  | .init, x => x ∈ M.init
  | .filter r f, x => r.Den M step x ∧ M.Holds step f x
  | .ey r, y => ∃ x, r.Den M step x ∧ step x y
  | .fwdu r q, y => ∃ x, r.Den M step x ∧ Chain step (M.Holds step q) (· = y) x
  | .fwdg r q, _ => ∃ x, r.Den M step x ∧ M.HoldsEg step q x
  | .restrict r f, x => r.Den M step x ∧ M.Holds step f x

/-- Filters are by state formulas, and the formulas evaluated satisfy `X`. -/
def SetExpr.Plain (X : Formula → Prop) : SetExpr → Prop
  | .init => True
  | .filter r f => r.Plain X ∧ isState f = true
  | .ey r => r.Plain X
  | .fwdu r q => r.Plain X ∧ X q
  | .fwdg r q => r.Plain X ∧ X (.unary .eg q)
  | .restrict r f => r.Plain X ∧ X f

/-- A property of formulas that passes to their operands. -/
structure Hereditary (X : Formula → Prop) : Prop where
  tru : X .tru
  nary : ∀ k fs, X (.nary k fs) → ∀ f ∈ fs, X f
  unary : ∀ o f, X (.unary o f) → X f
  binary : ∀ o f g, X (.binary o f g) → X f ∧ X g
  ew : ∀ f g, X (.binary .ew f g) → X (.unary .eg f)

theorem hereditary_existential : Hereditary fun f => f.Nnf ∧ f.Only true where
  tru := ⟨trivial, trivial⟩
  nary _ _ h f hf := ⟨nnfList_iff.mp h.1 f hf, onlyList_iff.mp h.2 f hf⟩
  unary _ _ h := ⟨h.1, h.2.2⟩
  binary _ _ _ h := ⟨⟨h.1.1, h.2.2.1⟩, h.1.2, h.2.2.2⟩
  ew _ _ h := ⟨h.1.1, rfl, h.2.2.1⟩

section Rule

variable (M : Model σ) (step : σ → σ → Prop) (X : Formula → Prop)

/-- Some leaf of the question denotes a state. -/
def Question.Inhabited (q : Question) : Prop := ∃ s ∈ q.leaves, ∃ x, s.Den M step x

/-- The questions `g` asks of a seed are whether one of its states satisfies `f`. -/
def RuleSpec (f : Formula) (g : SetExpr → Question) : Prop :=
  ∀ r : SetExpr, r.Plain X → (∀ s ∈ (g r).leaves, s.Plain X) ∧
    ((g r).Inhabited M step ↔ ∃ x, r.Den M step x ∧ M.Holds step f x)

variable {M step X} {ids : Formula → Nat} {qids : SetExpr → Nat} {fromLeft : Bool}

theorem mem_anyOf {kids : List Question} {s : SetExpr} :
    s ∈ (anyOf qids kids).leaves ↔ ∃ k ∈ kids, s ∈ k.leaves := by
  have hsort : s ∈ ((kids.flatMap Question.leaves).dedup).insertionSort
      (fun s t => qids s ≤ qids t) ↔ ∃ k ∈ kids, s ∈ k.leaves := by
    rw [(List.perm_insertionSort _ _).mem_iff, List.mem_dedup, List.mem_flatMap]
  rw [← hsort]
  unfold anyOf
  split
  · next heq => rw [heq, Question.leaves]
  · next heq => rw [heq, Question.leaves]
  · rfl

theorem anyOf_inhabited {kids : List Question} :
    (anyOf qids kids).Inhabited M step ↔ ∃ k ∈ kids, k.Inhabited M step := by
  constructor
  · rintro ⟨s, hs, hx⟩
    obtain ⟨k, hk, hs⟩ := mem_anyOf.mp hs
    exact ⟨k, hk, s, hs, hx⟩
  · rintro ⟨k, hk, s, hs, hx⟩
    exact ⟨s, mem_anyOf.mpr ⟨k, hk, hs⟩, hx⟩

theorem nonempty_inhabited {s : SetExpr} :
    (Question.nonempty s).Inhabited M step ↔ ∃ x, s.Den M step x := by
  simp [Question.Inhabited, Question.leaves]

theorem nonempty_spec {f : Formula} {g : SetExpr → SetExpr}
    (hplain : ∀ r : SetExpr, r.Plain X → (g r).Plain X)
    (hden : ∀ r : SetExpr, (∃ x, (g r).Den M step x) ↔ ∃ x, r.Den M step x ∧ M.Holds step f x) :
    RuleSpec M step X f fun r => .nonempty (g r) := by
  intro r hr
  refine ⟨fun s hs => ?_, nonempty_inhabited.trans (hden r)⟩
  rw [List.mem_singleton.mp hs]
  exact hplain r hr

theorem holds_tru (x : σ) : M.Holds step .tru x := rfl

theorem not_holds_fls (x : σ) : ¬ M.Holds step .fls x := nofun

theorem stateRule_spec {f : Formula} (hf : isState f = true) :
    RuleSpec M step X f (stateRule f) := by
  have hother : RuleSpec M step X f fun r => .nonempty (.filter r f) :=
    nonempty_spec (fun r hr => ⟨hr, hf⟩) fun r => Iff.rfl
  cases f with
  | fls =>
    intro r hr
    refine ⟨nofun, ?_⟩
    simp [stateRule, Question.Inhabited, Question.leaves, not_holds_fls]
  | tru =>
    refine nonempty_spec (g := fun r => r) (fun r hr => hr) fun r => ?_
    simp [holds_tru]
  | _ => exact hother

/-! ## Conjunctions -/

variable (M step X) in
/-- The seed so far and the conjunct that goes on forward stand for `T`. -/
def AccSpec (acc : SetExpr × Option (SetExpr → Question)) (T : σ → Prop) : Prop :=
  acc.1.Plain X ∧ match acc.2 with
    | none => ∀ x, acc.1.Den M step x ↔ T x
    | some g => ∃ f, RuleSpec M step X f g ∧ ∀ x, acc.1.Den M step x ∧ M.Holds step f x ↔ T x

theorem conjunct_spec {acc : SetExpr × Option (SetExpr → Question)} {T : σ → Prop}
    {k : Formula × (SetExpr → Question)} (hacc : AccSpec M step X acc T) (hk : X k.1)
    (hspec : RuleSpec M step X k.1 k.2) :
    AccSpec M step X (conjunct acc k) fun x => T x ∧ M.Holds step k.1 x := by
  obtain ⟨cur, fwd⟩ := acc
  obtain ⟨hplain, hsome⟩ := hacc
  cases fwd with
  | none =>
    unfold conjunct
    dsimp only
    split
    · exact ⟨hplain, k.1, hspec, fun x => and_congr_left fun _ => hsome x⟩
    · exact ⟨⟨hplain, hk⟩, fun x => and_congr_left fun _ => hsome x⟩
  | some g =>
    obtain ⟨f, hg, hiff⟩ := hsome
    exact ⟨⟨hplain, hk⟩, f, hg, fun x =>
      and_right_comm.trans (and_congr_left fun _ => hiff x)⟩

theorem foldl_conjunct_spec : ∀ {ks : List (Formula × (SetExpr → Question))}
    {acc : SetExpr × Option (SetExpr → Question)} {T : σ → Prop}, AccSpec M step X acc T →
    (∀ k ∈ ks, X k.1 ∧ RuleSpec M step X k.1 k.2) →
    AccSpec M step X (ks.foldl conjunct acc) fun x => T x ∧ ∀ k ∈ ks, M.Holds step k.1 x := by
  intro ks
  induction ks with
  | nil =>
    intro acc T hacc _
    simpa using hacc
  | cons k ks ih =>
    intro acc T hacc hks
    obtain ⟨hk, hks⟩ := List.forall_mem_cons.mp hks
    have := ih (conjunct_spec hacc hk.1 hk.2) hks
    simpa [and_assoc] using this

theorem isState_nary {k : ConnOp} {fs : List Formula} (h : ∀ f ∈ fs, isState f = true) :
    isState (nary ids k fs) = true :=
  nary_all (X := fun f => isState f = true) rfl rfl (fun _ _ => isStateList_iff) h

theorem andRule_spec {kids : List Formula} {rest : List (Formula × (SetExpr → Question))}
    (hrest : ∀ k ∈ rest, X k.1 ∧ RuleSpec M step X k.1 k.2)
    (hkids : ∀ f, f ∈ kids ↔ f ∈ kids.filter isState ∨ ∃ k ∈ rest, k.1 = f) :
    RuleSpec M step X (.nary .conj kids) (andRule ids fromLeft (kids.filter isState) rest) := by
  intro r hr
  have hstart : AccSpec M step X (if kids.filter isState = [] then r
      else .filter r (nary ids .conj (kids.filter isState)), none)
      fun x => r.Den M step x ∧ ∀ f ∈ kids.filter isState, M.Holds step f x := by
    split
    · next hnil => exact ⟨hr, fun x => by simp [hnil]⟩
    · refine ⟨⟨hr, isState_nary fun f hf => (List.mem_filter.mp hf).2⟩, fun x => ?_⟩
      exact and_congr_right fun _ => nary_sat
  have hmem : ∀ k, k ∈ (if fromLeft then rest else rest.reverse) ↔ k ∈ rest := by
    intro k
    cases fromLeft with
    | true => exact Iff.rfl
    | false => exact List.mem_reverse
  have hall := foldl_conjunct_spec hstart fun k hk => hrest k ((hmem k).mp hk)
  have hmeaning : ∀ x, ((r.Den M step x ∧ ∀ f ∈ kids.filter isState, M.Holds step f x) ∧
      ∀ k ∈ (if fromLeft then rest else rest.reverse), M.Holds step k.1 x) ↔
      r.Den M step x ∧ M.Holds step (.nary .conj kids) x := by
    intro x
    rw [and_assoc]
    refine and_congr_right fun _ => Iff.trans ?_ sat_conj.symm
    constructor
    · rintro ⟨hs, hr⟩ f hf
      rcases (hkids f).mp hf with hf | ⟨k, hk, rfl⟩
      · exact hs f hf
      · exact hr k ((hmem k).mpr hk)
    · intro h
      exact ⟨fun f hf => h f ((hkids f).mpr (.inl hf)),
        fun k hk => h _ ((hkids _).mpr (.inr ⟨k, (hmem k).mp hk, rfl⟩))⟩
  unfold andRule
  dsimp only
  split
  · next cur g heq =>
    rw [heq] at hall
    obtain ⟨hplain, f, hg, hiff⟩ := hall
    obtain ⟨hleaves, hinh⟩ := hg cur hplain
    exact ⟨hleaves, hinh.trans (exists_congr fun x => (hiff x).trans (hmeaning x))⟩
  · next cur heq =>
    rw [heq] at hall
    obtain ⟨hplain, hiff⟩ := hall
    refine ⟨fun s hs => ?_, nonempty_inhabited.trans
      (exists_congr fun x => (hiff x).trans (hmeaning x))⟩
    rw [List.mem_singleton.mp hs]
    exact hplain

/-! ## The rules -/

theorem ey_spec {f : Formula} {g : SetExpr → Question} (h : RuleSpec M step X f g) :
    RuleSpec M step X (.unary .ex f) fun r => g (.ey r) := by
  intro r hr
  obtain ⟨hleaves, hinh⟩ := h (.ey r) hr
  refine ⟨hleaves, hinh.trans ?_⟩
  constructor
  · rintro ⟨y, ⟨x, hx, hst⟩, hy⟩
    exact ⟨x, hx, exists_next_iff.mpr ⟨y, hst, hy⟩⟩
  · rintro ⟨x, hx, hex⟩
    obtain ⟨y, hst, hy⟩ := exists_next_iff.mp hex
    exact ⟨y, ⟨x, hx, hst⟩, hy⟩

/-- A chain to a state of `Q` is one to some state, which is of `Q`. -/
theorem chain_iff {P Q : σ → Prop} {s : σ} :
    Chain step P Q s ↔ ∃ y, Chain step P (· = y) s ∧ Q y := by
  constructor
  · intro h
    induction h with
    | @goal s hq => exact ⟨s, .goal rfl, hq⟩
    | cons hp hst _ ih =>
      obtain ⟨y, hy, hq⟩ := ih
      exact ⟨y, .cons hp hst hy, hq⟩
  · rintro ⟨y, hy, hq⟩
    refine hy.mono (fun _ h => h) ?_
    rintro z rfl
    exact hq

theorem fwdu_spec {q f : Formula} {g : SetExpr → Question} (hq : X q)
    (h : RuleSpec M step X f g) (r : SetExpr) (hr : r.Plain X) :
    (∀ s ∈ (g (.fwdu r q)).leaves, s.Plain X) ∧ ((g (.fwdu r q)).Inhabited M step ↔
      ∃ x, r.Den M step x ∧ Chain step (M.Holds step q) (M.Holds step f) x) := by
  obtain ⟨hleaves, hinh⟩ := h (.fwdu r q) ⟨hr, hq⟩
  refine ⟨hleaves, hinh.trans ?_⟩
  constructor
  · rintro ⟨y, ⟨x, hx, hc⟩, hy⟩
    exact ⟨x, hx, chain_iff.mpr ⟨y, hc, hy⟩⟩
  · rintro ⟨x, hx, hc⟩
    obtain ⟨y, hc, hy⟩ := chain_iff.mp hc
    exact ⟨y, ⟨x, hx, hc⟩, hy⟩

theorem fwdg_spec {q : Formula} (hq : X (.unary .eg q)) :
    RuleSpec M step X (.unary .eg q) fun r => .nonempty (.fwdg r q) := by
  refine nonempty_spec (fun r hr => ⟨hr, hq⟩) fun r => ?_
  constructor
  · rintro ⟨-, x, hx, heg⟩
    exact ⟨x, hx, heg⟩
  · rintro ⟨x, hx, heg⟩
    exact ⟨x, x, hx, heg⟩

theorem holds_ef_iff {f : Formula} {x : σ} :
    M.Holds step (.unary .ef f) x ↔
      Chain step (M.Holds step (constant true)) (M.Holds step f) x := by
  rw [← exists_until_iff]
  constructor
  · rintro ⟨π, hπ, n, y, hy, hf⟩
    refine ⟨π, hπ, n, ⟨y, hy, hf⟩, fun m hm => ?_⟩
    obtain ⟨z, hz⟩ := hπ.defined_before hy hm.le
    exact ⟨z, hz, rfl⟩
  · rintro ⟨π, hπ, n, hn, -⟩
    exact ⟨π, hπ, n, hn⟩

theorem holds_ew_iff {f g : Formula} {x : σ} :
    M.Holds step (.binary .ew f g) x ↔
      Chain step (M.Holds step f) (M.Holds step g) x ∨ M.HoldsEg step f x := by
  rw [← exists_until_iff]
  constructor
  · rintro ⟨π, hπ, h | h⟩
    · exact .inl ⟨π, hπ, h⟩
    · exact .inr ⟨π, hπ, h⟩
  · rintro (⟨π, hπ, h⟩ | ⟨π, hπ, h⟩)
    · exact ⟨π, hπ, .inl h⟩
    · exact ⟨π, hπ, .inr h⟩

variable (hX : Hereditary X)

include hX

theorem ew_spec {q f : Formula} {g : SetExpr → Question} (hq : X (.binary .ew q f))
    (h : RuleSpec M step X f g) : RuleSpec M step X (.binary .ew q f) fun r =>
      anyOf qids [g (.fwdu r q), .nonempty (.fwdg r q)] := by
  intro r hr
  obtain ⟨hleaves, hinh⟩ := fwdu_spec (hX.binary _ q f hq).1 h r hr
  refine ⟨fun s hs => ?_, anyOf_inhabited.trans ?_⟩
  · obtain ⟨k, hk, hs⟩ := mem_anyOf.mp hs
    rcases List.mem_cons.mp hk with rfl | hk
    · exact hleaves s hs
    · rw [List.mem_singleton.mp hk] at hs
      rw [List.mem_singleton.mp hs]
      exact ⟨hr, hX.ew q f hq⟩
  · have heg : (Question.nonempty (.fwdg r q)).Inhabited M step ↔
        ∃ x, r.Den M step x ∧ M.Holds step (.unary .eg q) x := (fwdg_spec (hX.ew q f hq) r hr).2
    rw [List.exists_mem_cons_iff, hinh]
    simp only [List.mem_singleton, exists_eq_left, holds_ew_iff, heg, ← exists_or, ← and_or_left]
    rfl

mutual

/-- The conversion asks whether a state of the seed satisfies the formula. -/
theorem ruleFrom_spec : (f : Formula) → X f →
    RuleSpec M step X f (ruleFrom ids qids fromLeft f) := by
  intro f hf
  unfold ruleFrom
  split
  · next hstate => exact stateRule_spec hstate
  · cases f with
    | nary k kids =>
      have hkids := rules_spec kids (hX.nary k kids hf)
      cases k with
      | conj =>
        refine andRule_spec (fun k hk => ?_) fun f => ?_
        · exact (hkids k (List.mem_filter.mp hk).1).2
        · constructor
          · intro hfm
            by_cases hs : isState f = true
            · exact .inl (List.mem_filter.mpr ⟨hfm, hs⟩)
            · refine .inr ⟨(f, ruleFrom ids qids fromLeft f), List.mem_filter.mpr ⟨?_, ?_⟩, rfl⟩
              · rw [rules_eq]
                exact List.mem_map.mpr ⟨f, hfm, rfl⟩
              · simpa using hs
          · rintro (hfm | ⟨k, hk, rfl⟩)
            · exact (List.mem_filter.mp hfm).1
            · exact (hkids k (List.mem_filter.mp hk).1).1
      | disj =>
        intro r hr
        refine ⟨fun s hs => ?_, anyOf_inhabited.trans ?_⟩
        · obtain ⟨q, hq, hs⟩ := mem_anyOf.mp hs
          obtain ⟨k, hk, rfl⟩ := List.mem_map.mp hq
          exact ((hkids k hk).2.2 r hr).1 s hs
        · constructor
          · rintro ⟨q, hq, hinh⟩
            obtain ⟨k, hk, rfl⟩ := List.mem_map.mp hq
            obtain ⟨x, hx, hkx⟩ := ((hkids k hk).2.2 r hr).2.mp hinh
            exact ⟨x, hx, sat_disj.mpr ⟨k.1, (hkids k hk).1, hkx⟩⟩
          · rintro ⟨x, hx, hsat⟩
            obtain ⟨f, hfm, hfx⟩ := sat_disj.mp hsat
            have hk : (f, ruleFrom ids qids fromLeft f) ∈ rules ids qids fromLeft kids := by
              rw [rules_eq]
              exact List.mem_map.mpr ⟨f, hfm, rfl⟩
            exact ⟨_, List.mem_map.mpr ⟨_, hk, rfl⟩, ((hkids _ hk).2.2 r hr).2.mpr ⟨x, hx, hfx⟩⟩
    | unary o g =>
      have hg := ruleFrom_spec g (hX.unary o g hf)
      cases o with
      | ex => exact ey_spec hg
      | ef =>
        intro r hr
        obtain ⟨hleaves, hinh⟩ := fwdu_spec (q := constant true) hX.tru hg r hr
        refine ⟨hleaves, hinh.trans (exists_congr fun x => and_congr_right fun _ => ?_)⟩
        exact holds_ef_iff.symm
      | eg => exact fwdg_spec hf
      | ax => exact nonempty_spec (fun r hr => ⟨hr, hf⟩) fun r => Iff.rfl
      | af => exact nonempty_spec (fun r hr => ⟨hr, hf⟩) fun r => Iff.rfl
      | ag => exact nonempty_spec (fun r hr => ⟨hr, hf⟩) fun r => Iff.rfl
    | binary o q g =>
      obtain ⟨hq, hXg⟩ := hX.binary o q g hf
      have hg := ruleFrom_spec g hXg
      cases o with
      | eu =>
        intro r hr
        obtain ⟨hleaves, hinh⟩ := fwdu_spec hq hg r hr
        refine ⟨hleaves, hinh.trans (exists_congr fun x => and_congr_right fun _ => ?_)⟩
        exact exists_until_iff.symm
      | ew => exact ew_spec hX hf hg
      | au => exact nonempty_spec (fun r hr => ⟨hr, hf⟩) fun r => Iff.rfl
      | aw => exact nonempty_spec (fun r hr => ⟨hr, hf⟩) fun r => Iff.rfl
    | _ => exact nonempty_spec (fun r hr => ⟨hr, hf⟩) fun r => Iff.rfl

theorem rules_spec : (fs : List Formula) → (∀ f ∈ fs, X f) → ∀ k ∈ rules ids qids fromLeft fs,
    k.1 ∈ fs ∧ X k.1 ∧ RuleSpec M step X k.1 k.2 := by
  intro fs hfs
  cases fs with
  | nil => simp [rules]
  | cons f fs =>
    obtain ⟨hf, hfs⟩ := List.forall_mem_cons.mp hfs
    refine List.forall_mem_cons.mpr ⟨⟨List.mem_cons_self .., hf, ruleFrom_spec f hf⟩,
      fun k hk => ?_⟩
    obtain ⟨hmem, hspec⟩ := rules_spec fs hfs k hk
    exact ⟨List.mem_cons_of_mem _ hmem, hspec⟩

end

theorem rule_spec (f : Formula) (hf : X f) : RuleSpec M step X f (rule ids qids f) :=
  ruleFrom_spec hX f hf

end Rule

end LibHSC.Ctl
