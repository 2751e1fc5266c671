import LibHSC.Ctl.Translator

/-!
Verdicts on a reachable set that was cut by the deadline. A state found for an
existential formula satisfies it on the full graph, so what the rule of the command
keeps is right of some initial state; it is right of all of them unless the formula
is existential and two initial states differ on it.
-/

namespace LibHSC.Ctl

open Lia (ConnOp Truth)
open Paths

/-! ## Set expressions -/

namespace Model

variable {σ : Type} [DecidableEq σ] {M : Model σ} {step : σ → σ → Prop} {ids : Formula → Nat}
  {rounds depth : Nat} {q : Formula} {a res : Finset σ}

/-- The formulas whose backward evaluation is sound whatever the reachable set. -/
def Existential (f : Formula) : Prop := f.Nnf ∧ f.Only true

theorem sat_existential (hM : M.Steps step) (hq : Existential q) :
    M.SoundAt step (M.sat ids rounds depth) q := sat_sound hM hq.1 hq.2

theorem mem_restrict {S : Formula → Except Halt (Finset σ)} (hS : M.SoundAt step S q)
    (h : M.restrict S a q = .ok res) {x : σ} (hx : x ∈ res) : x ∈ a ∧ M.Holds step q x := by
  unfold restrict at h
  split at h
  · next hstate =>
    cases h
    exact (mem_filter hstate).mp hx
  · obtain ⟨s, hs, h⟩ := bind_eq_ok.mp h
    cases h
    obtain ⟨hxa, hxs⟩ := Finset.mem_inter.mp hx
    exact ⟨hxa, hS s hs x hxs⟩

/-- What is reached through `q` starts a chain of `q`-states to it. -/
theorem reachThrough_sound (hM : M.Steps step) (hq : Existential q)
    (h : M.reachThrough ids rounds depth a q = .ok res) : ∀ y ∈ res,
    M.Holds step q y ∧ ∃ x ∈ a, Chain step (M.Holds step q) (· = y) x := by
  have hS : M.SoundAt step (M.sat ids rounds depth) q := sat_existential hM hq
  obtain ⟨seed, hseed, h⟩ := bind_eq_ok.mp h
  obtain ⟨rq, hrq, h⟩ := bind_eq_ok.mp h
  intro y hy
  obtain ⟨hyr, hqy⟩ := mem_restrict hS h hy
  obtain ⟨x, hx, hchain⟩ := constrainedLfp_forward hM hS hrq y hyr
  exact ⟨hqy, x, (mem_restrict hS hseed hx).1, hchain⟩

theorem hull_forward (hM : M.Steps step) (hnext : M.next.isEmpty = false) {x0 : Finset σ}
    (h : M.hull rounds false x0 = .ok res) : res ⊆ x0 ∧ ∀ x ∈ res, ∃ y ∈ res, step y x := by
  unfold hull at h
  split at h
  · next hor =>
    cases h
    rcases hor with rfl | hor
    · simp
    · exact absurd (hnext.symm.trans hor) Bool.false_ne_true
  · obtain ⟨hsub, hself, -⟩ := gfpLoop_spec image_mono h
    refine ⟨hsub, fun x hx => ?_⟩
    obtain ⟨y, hy, hxy⟩ := mem_image.mp (hself hx)
    exact ⟨y, hy, hM.next y x hxy⟩

/-- A hull that is not empty holds a cycle, and a path that stays on it. -/
theorem holdsEg_of_hull (hM : M.Steps step) (hnext : M.next.isEmpty = false) {x0 : Finset σ}
    (hq : ∀ x ∈ x0, M.Holds step q x) (h : M.hull rounds false x0 = .ok res) (hne : res ≠ ∅) :
    ∃ x ∈ x0, M.HoldsEg step q x := by
  obtain ⟨hsub, hback⟩ := hull_forward hM hnext h
  obtain ⟨Z, ⟨z, hz⟩, hZ, hforth⟩ :=
    exists_forward_closed (Finset.nonempty_iff_ne_empty.mpr hne) hback
  refine ⟨z, hsub (hZ z hz), exists_globally_iff.mpr ⟨Z, hz, ?_, ?_⟩⟩
  · exact fun w hw => hq w (hsub (hZ w hw))
  · exact fun w hw => .inr (hforth w hw)

theorem hullNonempty_true {backward : Bool} {x0 : Finset σ}
    (h : M.hullNonempty rounds backward x0 = .ok true) :
    ∃ X, M.hull rounds backward x0 = .ok X ∧ X ≠ ∅ := by
  unfold hullNonempty at h
  split at h
  · cases h
  · obtain ⟨X, hX, h⟩ := bind_eq_ok.mp h
    exact ⟨X, hX, of_decide_eq_true (Except.ok.inj h)⟩

/-- A state of the hull or of the deadlocks reached through `q` shows a path. -/
theorem reachThrough_eg (hM : M.Steps step) (hq : Existential q)
    (h : M.reachThrough ids rounds depth a q = .ok res) {y : σ} (hy : y ∈ res)
    (heg : M.HoldsEg step q y) : ∃ x ∈ a, M.HoldsEg step q x := by
  obtain ⟨-, x, hx, hchain⟩ := reachThrough_sound hM hq h y hy
  refine ⟨x, hx, exists_globally_of_chain (hchain.mono (fun _ h => h) ?_)⟩
  rintro z rfl
  exact heg

theorem dead_eg (hM : M.Steps step) (hq : ∀ x ∈ a, M.Holds step q x) {y : σ}
    (hy : y ∈ M.dead ∩ a) : y ∈ a ∧ M.HoldsEg step q y := by
  obtain ⟨hd, hya⟩ := Finset.mem_inter.mp hy
  exact ⟨hya, exists_globally_of_stuck (hq y hya) (hM.dead y hd)⟩

/-- The states evaluated are states denoted. -/
theorem eval_sound (hM : M.Steps step) : ∀ {r : SetExpr} {a : Finset σ}, r.Plain Existential →
    M.eval ids rounds depth r = .ok a → ∀ x ∈ a, r.Den M step x := by
  intro r
  induction r with
  | init =>
    intro a _ h x hx
    cases h
    exact hx
  | filter r f ih =>
    intro a hr h x hx
    obtain ⟨b, hb, h⟩ := bind_eq_ok.mp h
    cases h
    obtain ⟨hxb, hf⟩ := (mem_filter hr.2).mp hx
    exact ⟨ih hr.1 hb x hxb, hf⟩
  | ey r ih =>
    intro a hr h y hy
    obtain ⟨b, hb, h⟩ := bind_eq_ok.mp h
    cases h
    obtain ⟨x, hx, hxy⟩ := mem_image.mp hy
    exact ⟨x, ih hr hb x hx, hM.next x y hxy⟩
  | fwdu r q ih =>
    intro a hr h y hy
    obtain ⟨b, hb, h⟩ := bind_eq_ok.mp h
    obtain ⟨x, hx, hchain⟩ := constrainedLfp_forward hM (sat_existential hM hr.2) h y hy
    exact ⟨x, ih hr.1 hb x hx, hchain⟩
  | fwdg r q ih =>
    intro a hr h y hy
    obtain ⟨b, hb, h⟩ := bind_eq_ok.mp h
    obtain ⟨c, hc, h⟩ := bind_eq_ok.mp h
    have hex : Existential q := hereditary_existential.unary .eg q hr.2
    have hq : ∀ x ∈ c, M.Holds step q x := fun x hx => (reachThrough_sound hM hex hc x hx).1
    have hfound : ∀ z ∈ c, M.HoldsEg step q z → ∃ x, r.Den M step x ∧ M.HoldsEg step q x := by
      intro z hz heg
      obtain ⟨x, hx, heg⟩ := reachThrough_eg hM hex hc hz heg
      exact ⟨x, ih hr.1 hb x hx, heg⟩
    have hdead : y ∈ M.dead ∩ c → ∃ x, r.Den M step x ∧ M.HoldsEg step q x := by
      intro hy
      obtain ⟨hyc, heg⟩ := dead_eg hM hq hy
      exact hfound y hyc heg
    split at h
    · cases h
      exact hdead hy
    · next hnone =>
      push Not at hnone
      obtain ⟨cyc, -, h⟩ := bind_eq_ok.mp h
      split at h
      · obtain ⟨X, hX, h⟩ := bind_eq_ok.mp h
        cases h
        rcases Finset.mem_union.mp hy with hy | hy
        · exact hdead hy
        · obtain ⟨z, hz, heg⟩ := holdsEg_of_hull hM (Bool.eq_false_iff.mpr hnone.2) hq hX
            (Finset.ne_empty_of_mem hy)
          exact hfound z hz heg
      · cases h
        exact hdead hy
  | restrict r f ih =>
    intro a hr h x hx
    obtain ⟨b, hb, h⟩ := bind_eq_ok.mp h
    obtain ⟨s, hs, h⟩ := bind_eq_ok.mp h
    cases h
    obtain ⟨hxb, hxs⟩ := Finset.mem_inter.mp hx
    exact ⟨ih hr.1 hb x hxb, sat_existential hM hr.2 s hs x hxs⟩

/-- A hit of the search is a state it can step to. -/
theorem search_sound (hM : M.Steps step) {s : Finset σ} {goal : Formula}
    (hgoal : isState goal = true) {P : σ → Prop} (hP : ∀ x y, P x → x ∈ s → step x y → P y) :
    ∀ {n : Nat} {seen frontier : Finset σ}, (∀ x ∈ frontier, P x) →
      M.search s goal n seen frontier = .ok true → ∃ x, P x ∧ M.Holds step goal x := by
  intro n
  induction n with
  | zero =>
    intro seen frontier _ h
    cases h
  | succ n ih =>
    intro seen frontier hf h
    unfold search at h
    split at h
    · next hne =>
      obtain ⟨x, hx⟩ := Finset.nonempty_iff_ne_empty.mpr hne
      obtain ⟨hxf, hg⟩ := (mem_filter hgoal).mp hx
      exact ⟨x, hf x hxf, hg⟩
    · dsimp only at h
      split at h
      · cases h
      · refine ih (fun y hy => ?_) h
        obtain ⟨x, hx, hxy⟩ := mem_image.mp (Finset.mem_sdiff.mp hy).1
        obtain ⟨hxf, hxs⟩ := Finset.mem_inter.mp hx
        exact hP x y (hf x hxf) hxs (hM.next x y hxy)

theorem existsThrough_sound (hM : M.Steps step) {r0 : SetExpr} {goal : Formula}
    (hr : (SetExpr.fwdu r0 q).Plain Existential) (hgoal : isState goal = true)
    (h : M.existsThrough ids rounds depth r0 q goal = .ok true) :
    ∃ x, (SetExpr.filter (.fwdu r0 q) goal).Den M step x := by
  obtain ⟨a0, ha0, h⟩ := bind_eq_ok.mp h
  split at h
  · cases h
  · obtain ⟨sq, hsq, h⟩ := bind_eq_ok.mp h
    refine search_sound (P := (SetExpr.fwdu r0 q).Den M step) hM hgoal ?_ ?_ h
    · rintro x y ⟨z, hz, hchain⟩ hxs hst
      refine ⟨z, hz, Chain.trans (hchain.mono (fun _ h => h) ?_)⟩
      rintro w rfl
      exact .cons (sat_existential hM hr.2 sq hsq w hxs) hst (.goal rfl)
    · exact fun x hx => ⟨x, eval_sound hM hr.1 ha0 x hx, .goal rfl⟩

/-- A leaf answered yes denotes a state. -/
theorem nonempty_sound (hM : M.Steps step) {r : SetExpr} (hr : r.Plain Existential)
    (h : M.nonempty ids rounds depth r = .ok true) : ∃ x, r.Den M step x := by
  have hfilter : ∀ {r : SetExpr} {f : Formula}, (SetExpr.filter r f).Plain Existential →
      (do return decide (M.filter (← M.eval ids rounds depth r) f ≠ ∅) : Except Halt Bool) =
        .ok true → ∃ x, (SetExpr.filter r f).Den M step x := by
    intro r f hr h
    obtain ⟨a, ha, h⟩ := bind_eq_ok.mp h
    obtain ⟨x, hx⟩ := Finset.nonempty_iff_ne_empty.mpr (of_decide_eq_true (Except.ok.inj h))
    obtain ⟨hxa, hf⟩ := (mem_filter hr.2).mp hx
    exact ⟨x, eval_sound hM hr.1 ha x hxa, hf⟩
  unfold nonempty at h
  split at h
  · obtain ⟨x, hx⟩ := Finset.nonempty_iff_ne_empty.mpr (of_decide_eq_true (Except.ok.inj h))
    exact ⟨x, hx⟩
  · split at h
    · cases h
    · split at h
      · exact existsThrough_sound hM hr.1 hr.2 h
      · exact hfilter hr h
  · split at h
    · cases h
    · exact hfilter hr h
  · next r =>
    obtain ⟨a, ha, h⟩ := bind_eq_ok.mp h
    obtain ⟨y, hy⟩ := Finset.nonempty_iff_ne_empty.mpr (of_decide_eq_true (Except.ok.inj h))
    obtain ⟨x, hx, hxy⟩ := mem_image.mp hy
    have hr : r.Plain Existential := hr
    exact ⟨y, x, eval_sound hM hr ha x hx, hM.next x y hxy⟩
  · obtain ⟨a, ha, h⟩ := bind_eq_ok.mp h
    obtain ⟨x, hx⟩ := Finset.nonempty_iff_ne_empty.mpr (of_decide_eq_true (Except.ok.inj h))
    exact ⟨x, x, eval_sound hM hr.1 ha x hx, .goal rfl⟩
  · next r q =>
    obtain ⟨b, hb, h⟩ := bind_eq_ok.mp h
    obtain ⟨c, hc, h⟩ := bind_eq_ok.mp h
    have hex : Existential q := hereditary_existential.unary .eg q hr.2
    have hq : ∀ x ∈ c, M.Holds step q x := fun x hx => (reachThrough_sound hM hex hc x hx).1
    have hfound : ∀ z ∈ c, M.HoldsEg step q z →
        ∃ x : σ, ∃ y, r.Den M step y ∧ M.HoldsEg step q y := by
      intro z hz heg
      obtain ⟨x, hx, heg⟩ := reachThrough_eg hM hex hc hz heg
      exact ⟨x, x, eval_sound hM hr.1 hb x hx, heg⟩
    split at h
    · cases h
    · split at h
      · next hne =>
        obtain ⟨y, hy⟩ := Finset.nonempty_iff_ne_empty.mpr hne
        obtain ⟨hyc, heg⟩ := dead_eg hM hq hy
        exact hfound y hyc heg
      · split at h
        · cases h
        · next hnext =>
          obtain ⟨cyc, -, h⟩ := bind_eq_ok.mp h
          split at h
          · obtain ⟨X, hX, hne⟩ := hullNonempty_true h
            obtain ⟨z, hz, heg⟩ :=
              holdsEg_of_hull hM (Bool.eq_false_iff.mpr hnext) hq hX hne
            exact hfound z hz heg
          · cases h
  · obtain ⟨a, ha, h⟩ := bind_eq_ok.mp h
    obtain ⟨x, hx⟩ := Finset.nonempty_iff_ne_empty.mpr (of_decide_eq_true (Except.ok.inj h))
    exact ⟨x, eval_sound hM hr ha x hx⟩

/-! ## Questions -/

theorem askLeaf_yes {s : SetExpr} (h : M.askLeaf ids rounds depth s = .ok .yes) :
    M.nonempty ids rounds depth s = .ok true := by
  unfold askLeaf at h
  split at h
  · next b hb =>
    cases b with
    | true => exact hb
    | false => cases h
  · cases h
  · cases h

theorem askAny_yes : ∀ {ls : List SetExpr} {u : Bool}, M.askAny ids rounds depth u ls = .ok .yes →
    ∃ s ∈ ls, M.nonempty ids rounds depth s = .ok true := by
  intro ls
  induction ls with
  | nil =>
    intro u h
    cases u <;> cases h
  | cons s ls ih =>
    intro u h
    obtain ⟨v, hv, h⟩ := bind_eq_ok.mp h
    cases v with
    | yes => exact ⟨s, List.mem_cons_self .., askLeaf_yes hv⟩
    | no =>
      obtain ⟨t, ht, htrue⟩ := ih h
      exact ⟨t, List.mem_cons_of_mem _ ht, htrue⟩
    | unknown =>
      obtain ⟨t, ht, htrue⟩ := ih h
      exact ⟨t, List.mem_cons_of_mem _ ht, htrue⟩

theorem ask_yes {Q : Question} (h : M.ask ids rounds depth Q = .ok .yes) :
    ∃ s ∈ Q.leaves, M.nonempty ids rounds depth s = .ok true := by
  cases Q with
  | never => cases h
  | nonempty s => exact ⟨s, List.mem_cons_self .., askLeaf_yes h⟩
  | any ls => exact askAny_yes h

/-- A question answered yes of an existential formula: some initial state satisfies
it, whatever the reachable set. -/
theorem ask_rule_sound (hM : M.Steps step) {f : Formula} (hf : Existential f)
    {qids : SetExpr → Nat} (h : M.ask ids rounds depth (rule ids qids f .init) = .ok .yes) :
    ∃ x ∈ M.init, M.Holds step f x := by
  obtain ⟨s, hs, hyes⟩ := ask_yes h
  have hspec : RuleSpec M step Existential f (rule ids qids f) :=
    rule_spec hereditary_existential f hf
  obtain ⟨hplain, hinh⟩ := hspec .init trivial
  exact hinh.mp ⟨s, hs, nonempty_sound hM (hplain s hs) hyes⟩

end Model

/-! ## The command -/

namespace System

variable {σ : Type} [DecidableEq σ] {D : System σ} {inv : Inverter σ} {reach : Finset σ}

/-- Every converse is one of the events it stands for. -/
theorem invertEvents_sound : ∀ {ts preds raw : List (σ → Finset σ)},
    invertEvents inv reach ts = some (preds, raw) →
    (∀ p ∈ preds, ∃ t ∈ ts, ∀ x y, y ∈ p x → x ∈ t y) ∧
      ∀ p ∈ raw, ∃ t ∈ ts, ∀ x y, y ∈ p x → x ∈ t y := by
  intro ts
  induction ts with
  | nil =>
    intro preds raw h
    cases h
    exact ⟨nofun, nofun⟩
  | cons t ts ih =>
    intro preds raw h
    obtain ⟨p, hp, h⟩ := Option.bind_eq_some_iff.mp h
    obtain ⟨⟨preds', raw'⟩, hts, h⟩ := Option.bind_eq_some_iff.mp h
    cases h
    obtain ⟨hpreds, hraw⟩ := ih hts
    have hsound := inv.sound t reach p hp
    refine ⟨List.forall_mem_cons.mpr ⟨⟨t, List.mem_cons_self .., fun x y hy => ?_⟩, ?_⟩,
      List.forall_mem_cons.mpr ⟨⟨t, List.mem_cons_self .., hsound⟩, ?_⟩⟩
    · split at hy
      · exact hsound x y hy
      · exact hsound x y (Finset.mem_inter.mp hy).1
    · intro p hp
      obtain ⟨t', ht', h⟩ := hpreds p hp
      exact ⟨t', List.mem_cons_of_mem _ ht', h⟩
    · intro p hp
      obtain ⟨t', ht', h⟩ := hraw p hp
      exact ⟨t', List.mem_cons_of_mem _ ht', h⟩

omit [DecidableEq σ] in
theorem mem_nextEvents {t : σ → Finset σ} (ht : t ∈ D.events) : t ∈ D.nextEvents := by
  unfold nextEvents
  split
  · exact List.mem_append_left _ ht
  · exact ht

theorem converses_sound : (∀ p ∈ (D.converses inv reach).1, ∀ x y, y ∈ p x → D.Step y x) ∧
    ∀ p ∈ (D.converses inv reach).2, ∀ x y, y ∈ p x → D.Step y x := by
  unfold converses
  split
  · exact ⟨nofun, nofun⟩
  · next preds raw heq =>
    obtain ⟨hpreds, hraw⟩ := invertEvents_sound heq
    have hstep : ∀ p : σ → Finset σ, (∃ t ∈ D.events, ∀ x y, y ∈ p x → x ∈ t y) →
        ∀ x y, y ∈ p x → D.Step y x := by
      rintro p ⟨t, ht, h⟩ x y hy
      exact ⟨t, mem_nextEvents ht, h x y hy⟩
    split
    · next hidle =>
      -- the self-loop is its own converse
      have hself : ∀ x y : σ, y ∈ ({x} : Finset σ) → D.Step y x := by
        intro x y hy
        rw [Finset.mem_singleton.mp hy]
        refine ⟨fun s => {s}, ?_, Finset.mem_singleton_self x⟩
        unfold nextEvents
        rw [if_pos (Bool.and_eq_true_iff.mp hidle).1]
        exact List.mem_append_right _ (List.mem_singleton.mpr rfl)
      refine ⟨fun p hp => ?_, fun p hp => ?_⟩
      · rcases List.mem_append.mp hp with hp | hp
        · exact hstep p (hpreds p hp)
        · rw [List.mem_singleton.mp hp]
          exact hself
      · rcases List.mem_append.mp hp with hp | hp
        · exact hstep p (hraw p hp)
        · rw [List.mem_singleton.mp hp]
          exact hself
    · exact ⟨fun p hp => hstep p (hpreds p hp), fun p hp => hstep p (hraw p hp)⟩

theorem disj_eq_no {t u : Truth} (h : ConnOp.disj.step t u = .no) : t = .no ∧ u = .no := by
  cases t <;> cases u <;> first | exact ⟨rfl, rfl⟩ | cases h

theorem conj_eq_no {t u : Truth} (h : ConnOp.conj.step t u = .no) : t = .no ∨ u = .no := by
  cases t <;> cases u <;> first | exact .inl rfl | exact .inr rfl | cases h

omit [DecidableEq σ] in
theorem guardValue_no {s : σ} {ds : List (Decl σ)}
    (h : ds.foldr (fun d acc => ConnOp.disj.step (guardValue d s) acc) .no = .no) :
    ∀ d ∈ ds, guardValue d s = .no := by
  induction ds with
  | nil => exact nofun
  | cons d ds ih =>
    obtain ⟨hd, hds⟩ := disj_eq_no h
    exact List.forall_mem_cons.mpr ⟨hd, ih hds⟩

omit [DecidableEq σ] in
/-- A guard that is false disables its event. -/
theorem enabled_eq_false {s : σ} {guards : List (σ → Truth)}
    (h : guards.foldr (fun g acc => ConnOp.conj.step (g s) acc) .yes = .no) :
    enabled guards s = false := by
  induction guards with
  | nil => cases h
  | cons g gs ih =>
    rcases conj_eq_no h with hg | hgs
    · simp [enabled, hg]
    · have := ih hgs
      unfold enabled at this ⊢
      rw [List.all_cons, this, Bool.and_false]

omit [DecidableEq σ] in
/-- The deadlocks computed from the guards are stuck. -/
theorem dead_stuck {x : σ} (hx : x ∈ D.dead reach) : Stuck D.Step x := by
  unfold dead at hx
  split at hx
  · have hno := (Finset.mem_filter.mp hx).2
    have hguards : ∀ d ∈ D.decls, guardValue d x = .no := by
      refine guardValue_no ?_
      unfold deadlock at hno
      generalize D.decls.foldr (fun d acc => ConnOp.disj.step (guardValue d x) acc) .no = t at hno ⊢
      cases t with
      | no => rfl
      | yes => cases hno
      | undef => cases hno
    rintro y ⟨t, ht, hy⟩
    have hev : t ∉ D.events := by
      intro ht
      obtain ⟨d, hd, hterm⟩ := List.mem_filterMap.mp ht
      have hno := hguards d hd
      cases d with
      | event guards effect =>
        cases hterm
        dsimp only at hy
        rw [enabled_eq_false hno] at hy
        cases hy
      | idle => cases hno
      | family t => cases hno
    unfold nextEvents at ht
    split at ht
    · next hidle =>
      rcases List.mem_append.mp ht with ht | ht
      · exact hev ht
      · obtain ⟨d, hd, hisIdle⟩ := List.any_eq_true.mp hidle
        have hno := hguards d hd
        cases d with
        | event _ _ => cases hisIdle
        | idle => cases hno
        | family _ => cases hno
    · exact hev ht
  · cases hx

/-- The model the command builds steps along the graph. -/
theorem model_steps : (D.model inv reach).Steps D.Step where
  next x y hy := mem_successors.mp hy
  pred x y hy := by
    obtain ⟨p, hp, hy⟩ := mem_successors.mp hy
    exact converses_sound.1 p hp x y hy
  rawPred x y hy := by
    obtain ⟨p, hp, hy⟩ := mem_successors.mp hy
    exact converses_sound.2 p hp x y hy
  dead x hx := dead_stuck hx

variable {ids : Formula → Nat} {qids : SetExpr → Nat} {rounds depth : Nat} {phi : Formula}

/-- A verdict kept on a cut set, for some initial state. -/
theorem doCtl_partial_some {v : Verdict}
    (h : D.doCtl ids qids rounds depth inv reach true phi = .ok v) :
    (v = .yes → pathQuantifiers (nnf ids phi) = .existential ∧ ∃ x ∈ D.init, D.Sat phi true x) ∧
    (v = .no → ∃ x ∈ D.init, D.Sat phi false x) := by
  obtain ⟨w, hw, h⟩ := bind_eq_ok.mp h
  obtain rfl := Except.ok.inj h
  obtain ⟨u, hu, hw⟩ := bind_eq_ok.mp hw
  have hnnf : (nnf ids phi).Nnf := nnf_nnf phi
  constructor
  · intro hyes
    cases w with
    | no =>
      simp only [if_true, keepPartial] at hyes
      split at hyes <;> cases hyes
    | unknown => cases hyes
    | yes =>
      simp only [if_true, keepPartial] at hyes
      split at hyes
      · next hq =>
        refine ⟨hq, ?_⟩
        have honly : (nnf ids phi).Only true := only_of_pathQuantifiers _ (.inr hq)
        have hconv : convertible (nnf ids phi) = true := convertible_of_only _ hnnf honly
        have hform : convert ids qids phi true = ⟨rule ids qids (nnf ids phi) .init, false⟩ := by
          unfold convert
          simp [hconv]
        rw [hform] at hu hw
        cases hw
        obtain ⟨x, hx, hsat⟩ := Model.ask_rule_sound model_steps ⟨hnnf, honly⟩ hu
        exact ⟨x, hx, (nnf_sat ids phi true x).mp hsat⟩
      · cases hyes
  · intro hno
    cases w with
    | yes =>
      simp only [if_true, keepPartial] at hno
      split at hno <;> cases hno
    | unknown => cases hno
    | no =>
      simp only [if_true, keepPartial] at hno
      split at hno
      · next hq =>
        have honly : (nnf ids phi).Only false := only_of_pathQuantifiers _ (.inr hq)
        -- a universal formula is not convertible: its negation was asked
        have hconv : convertible (nnf ids phi) = false := by
          refine Bool.eq_false_iff.mpr fun hc => ?_
          have hnone := isState_quantifiers _ (isState_of_convertible _ hnnf honly hc)
          rw [hnone] at hq
          cases hq
        have hform : convert ids qids phi true =
            ⟨rule ids qids (negate ids (nnf ids phi)) .init, true⟩ := by
          unfold convert
          simp [hconv]
        rw [hform] at hu hw
        have hyes : u = .yes := by
          cases u with
          | yes => rfl
          | no => cases hw
          | unknown => cases hw
        subst hyes
        obtain ⟨x, hx, hsat⟩ := Model.ask_rule_sound model_steps
          ⟨negate_nnf _, negate_only _ hnnf honly⟩ hu
        have hfalse := (negate_sat ids (nnf ids phi) true x).mp hsat
        exact ⟨x, hx, (nnf_sat ids phi false x).mp hfalse⟩
      · cases hno

variable (D ids phi) in
/-- The question asked as for one initial state has the same answer for all of them. -/
def SeedsAgree : Prop :=
  pathQuantifiers (nnf ids phi) = .existential → (∃ x ∈ D.init, D.Sat phi true x) →
    ∀ x ∈ D.init, D.Sat phi true x

/-- A verdict kept on a cut set is the one on the full graph, unless the formula is
existential and the initial states differ on it: then it is asked of one of them only. -/
theorem doCtl_partial_kept (D : System σ) (inv : Inverter σ) (ids : Formula → Nat)
    (qids : SetExpr → Nat) (rounds depth : Nat) (reach : Finset σ) (phi : Formula)
    (hseeds : D.SeedsAgree ids phi) (v : Verdict)
    (h : D.doCtl ids qids rounds depth inv reach true phi = .ok v) :
    (v = .yes → ∀ x ∈ D.init, D.Sat phi true x) ∧ (v = .no → ∃ x ∈ D.init, D.Sat phi false x) := by
  obtain ⟨hyes, hno⟩ := doCtl_partial_some h
  refine ⟨fun hv => ?_, hno⟩
  obtain ⟨hq, hex⟩ := hyes hv
  exact hseeds hq hex

end System

/-! ## An instance -/

/-- The converse within the potential. -/
def potentialInverter (σ : Type) [DecidableEq σ] : Inverter σ where
  run t P := some fun x => P.filter fun y => x ∈ t y
  sound t P p h x y hy := by
    cases h
    exact (Finset.mem_filter.mp hy).2
  complete t P p h x y hy hx := by
    cases h
    exact Finset.mem_filter.mpr ⟨hy, hx⟩

/-- One event, from 0 to 1, and one atom, true at 1. -/
def oneStep (init : Finset Nat) : System Nat where
  decls := [.event [fun s => Truth.ofBool (s == 0)] fun _ => {1}]
  init := init
  atom _ s := Truth.ofBool (s == 1)

theorem oneStep_step {init : Finset Nat} {x y : Nat} : (oneStep init).Step x y ↔ x = 0 ∧ y = 1 := by
  have hnext : (oneStep init).nextEvents =
      [fun s => if enabled [fun s => Truth.ofBool (s == 0)] s then {1} else ∅] := rfl
  unfold System.Step
  rw [hnext]
  cases x with
  | zero => simp [enabled, Truth.ofBool]
  | succ x => simp [enabled, Truth.ofBool]

theorem oneStep_atom {init : Finset Nat} (a s : Nat) :
    (oneStep init).atom a s = Truth.ofBool (s == 1) := rfl

theorem oneStep_ex {init : Finset Nat} {x : Nat} (b : Bool) :
    (oneStep init).Sat (.unary .ex (.atom 0)) b x ↔ (b = true ↔ x = 0) := by
  cases b with
  | true =>
    refine exists_next_iff.trans ?_
    simp [oneStep_step, Formula.Sat, oneStep_atom, Truth.ofBool]
  | false =>
    refine forall_next_iff.trans ?_
    simp [oneStep_step, Formula.Sat, oneStep_atom, Truth.ofBool]

theorem doCtl_partial_kept_oneStep : (oneStep {0}).Sat (.unary .ex (.atom 0)) true 0 :=
  (System.doCtl_partial_kept (oneStep {0}) (potentialInverter Nat) (fun _ => 0) (fun _ => 0) 4 4
    {0} (.unary .ex (.atom 0)) (fun _ _ x hx => (oneStep_ex true).mpr
      (iff_of_true rfl (Finset.mem_singleton.mp hx))) .yes (by decide +kernel)).1 rfl 0
    (Finset.mem_singleton_self 0)

/-- Two initial states, one of which steps to 1. On the set cut at the initial states
`EX p` is kept as true, and it is false at the other one. -/
theorem doCtl_partial_two_seeds :
    (oneStep {0, 2}).doCtl (fun _ => 0) (fun _ => 0) 4 4 (potentialInverter Nat) {0, 2} true
      (.unary .ex (.atom 0)) = .ok .yes ∧
    2 ∈ (oneStep {0, 2}).init ∧ (oneStep {0, 2}).Sat (.unary .ex (.atom 0)) false 2 ∧
      ¬ (oneStep {0, 2}).Sat (.unary .ex (.atom 0)) true 2 := by
  refine ⟨by decide +kernel, by decide, (oneStep_ex false).mpr (by decide), fun h => ?_⟩
  have := (oneStep_ex true).mp h
  exact absurd (this.mp rfl) (by decide)

end LibHSC.Ctl
