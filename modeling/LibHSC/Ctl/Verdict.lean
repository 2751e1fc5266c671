import LibHSC.Ctl.Settled
import LibHSC.Ctl.Deadlocks
import LibHSC.Inverse

/-!
The verdicts. On the model of a finite graph a question is answered yes exactly when some
initial state satisfies the formula; what may be left unknown is a question with a
backward operator in it, asked of a model with no converse.
-/

namespace LibHSC.Ctl

open Lia (ConnOp Truth)
open Paths
open Filter (atTop)

/-- A formula with a path operator is evaluated backward in the set. -/
def SetExpr.Backward : SetExpr → Prop
  | .init => False
  | .filter r _ => r.Backward
  | .ey r => r.Backward
  | .fwdu r q => r.Backward ∨ isState q = false
  | .fwdg r q => r.Backward ∨ isState q = false
  | .restrict r f => r.Backward ∨ isState f = false

namespace Model

variable {σ : Type} [DecidableEq σ] {M : Model σ} {step : σ → σ → Prop} {ids : Formula → Nat}
  {qids : SetExpr → Nat} {fromLeft : Bool} {rounds : Nat} {f q : Formula}

section Settled

variable (hM : M.Exact step) (hr : M.reach.card < rounds)

include hM hr

omit hM hr in
theorem restrict_settled {depth : Nat} {a : Finset σ}
    (hq : M.Settled (isState q = false) (M.sat ids rounds depth q)) :
    M.Settled (isState q = false) (M.restrict (M.sat ids rounds depth) a q) := by
  unfold restrict
  split
  · exact settled_ok _
  · exact hq.bind fun s _ => settled_ok _

theorem reachThrough_settled {depth : Nat} {a : Finset σ} (ha : a ⊆ M.reach)
    (hq : M.Settled (isState q = false) (M.sat ids rounds depth q)) :
    M.Settled (isState q = false) (M.reachThrough ids rounds depth a q) := by
  refine (restrict_settled hq).bind fun seed hseed => ?_
  refine (constrainedLfp_settled hM hr ((restrict_subset hseed).trans ha) fun _ => hq).bind
    fun rq _ => ?_
  exact restrict_settled hq

theorem eval_settled (ids : Formula → Nat) : (r : SetExpr) →
    ∀ᶠ n in atTop, M.Settled r.Backward (M.eval ids rounds n r) := by
  intro r
  induction r with
  | init => exact .of_forall fun n => settled_ok _
  | filter r f ih => exact ih.mono fun n hn => hn.bind fun a _ => settled_ok _
  | ey r ih => exact ih.mono fun n hn => hn.bind fun a _ => settled_ok _
  | fwdu r q ih =>
    refine (ih.and (evaluates hM hr ids q)).mono fun n ⟨hn, hq⟩ => ?_
    refine (hn.mono .inl).bind fun a ha => ?_
    exact constrainedLfp_settled hM hr (eval_inside hM.inside ha) fun _ => hq.mono .inr
  | fwdg r q ih =>
    refine (ih.and (evaluates hM hr ids q)).mono fun n ⟨hn, hq⟩ => ?_
    refine (hn.mono .inl).bind fun a ha => ?_
    have haR := eval_inside hM.inside ha
    refine ((reachThrough_settled hM hr haR hq).mono .inr).bind fun c hc => ?_
    split
    · exact settled_ok _
    · obtain ⟨cyc, hcyc⟩ := hasCycles_ok hr (M := M)
      obtain ⟨X, hX⟩ := hull_ok hr (reachThrough_inside hM.inside hc haR) (b := false)
      rw [hcyc, hX]
      cases cyc <;> exact .inl ⟨_, rfl⟩
  | restrict r f ih =>
    refine (ih.and (evaluates hM hr ids f)).mono fun n ⟨hn, hf⟩ => ?_
    exact (hn.mono .inl).bind fun a _ => (hf.mono .inr).bind fun s _ => settled_ok _

omit hr in
theorem search_ok {s : Finset σ} {goal : Formula} : ∀ {n : Nat} {seen frontier : Finset σ},
    seen ⊆ M.reach → frontier ⊆ seen → M.reach.card < n + seen.card →
    ∃ b, M.search s goal n seen frontier = .ok b := by
  intro n
  induction n with
  | zero =>
    intro seen frontier hseen _ hc
    have := Finset.card_le_card hseen
    omega
  | succ n ih =>
    intro seen frontier hseen hfs hc
    unfold search
    split
    · exact ⟨true, rfl⟩
    · dsimp only
      split
      · exact ⟨false, rfl⟩
      · next hfresh =>
        have hdisj : Disjoint seen (image M.next (frontier ∩ s) \ seen) :=
          Finset.disjoint_sdiff
        have hpos := Finset.card_pos.mpr (Finset.nonempty_iff_ne_empty.mpr hfresh)
        refine ih (Finset.union_subset hseen (Finset.sdiff_subset.trans ?_))
          Finset.subset_union_right ?_
        · exact (image_mono (Finset.inter_subset_left.trans (hfs.trans hseen))).trans
            hM.inside.next
        · rw [Finset.card_union_of_disjoint hdisj]
          omega

theorem nonempty_settled (ids : Formula → Nat) (s : SetExpr) :
    ∀ᶠ n in atTop, M.Settled s.Backward (M.nonempty ids rounds n s) := by
  have hdone : ∀ (r : SetExpr) (k : Finset σ → Bool), ∀ᶠ n in atTop,
      M.Settled r.Backward (do return k (← M.eval ids rounds n r) : Except Halt Bool) :=
    fun r k => (eval_settled hM hr ids r).mono fun n hn => hn.bind fun a _ => settled_ok _
  cases s with
  | init => exact .of_forall fun n => settled_ok _
  | filter r f =>
    have hfilter := hdone r fun a => decide (M.filter a f ≠ ∅)
    cases r with
    | fwdu r q =>
      have hr0 := eval_settled hM hr ids r
      refine (hfilter.and (hr0.and (evaluates hM hr ids q))).mono fun n h => ?_
      obtain ⟨hn, hr0, hq⟩ := h
      show M.Settled (r.Backward ∨ isState q = false) (if f = .fls then Except.ok false
        else if f ≠ .tru ∧ isState q = false then M.existsThrough ids rounds n r q f else _)
      split
      · exact settled_ok _
      · split
        · refine (hr0.mono .inl).bind fun a ha => ?_
          split
          · exact settled_ok _
          · refine (hq.mono .inr).bind fun sq _ => .inl ?_
            have haR : a ⊆ M.reach := eval_inside hM.inside ha
            exact search_ok hM haR subset_rfl (by omega)
        · exact hn
    | _ =>
      refine hfilter.mono fun n hn => ?_
      show M.Settled _ (if f = .fls then Except.ok false else _)
      split
      · exact settled_ok _
      · exact hn
  | ey r => exact hdone r fun a => decide (image M.next a ≠ ∅)
  | fwdu r q => exact (hdone r fun a => decide (a ≠ ∅)).mono fun n hn => hn.mono .inl
  | fwdg r q =>
    refine ((eval_settled hM hr ids r).and (evaluates hM hr ids q)).mono fun n h => ?_
    obtain ⟨hn, hq⟩ := h
    refine (hn.mono .inl).bind fun a ha => ?_
    have haR := eval_inside hM.inside ha
    refine ((reachThrough_settled hM hr haR hq).mono .inr).bind fun c hc => ?_
    split
    · exact settled_ok _
    · split
      · exact settled_ok _
      · split
        · exact settled_ok _
        · obtain ⟨cyc, hcyc⟩ := hasCycles_ok hr (M := M)
          obtain ⟨b, hb⟩ := hullNonempty_ok hr (reachThrough_inside hM.inside hc haR) (b := false)
          rw [hcyc, hb]
          cases cyc <;> exact .inl ⟨_, rfl⟩
  | restrict r f => exact hdone (.restrict r f) fun a => decide (a ≠ ∅)

end Settled

/-! ## Questions -/

variable (M) in
/-- A verdict on `P`. It is unknown only where `need` holds and there is no converse. -/
def Decides (v : Verdict) (P need : Prop) : Prop :=
  (v = .yes → P) ∧ (v = .no → ¬ P) ∧ (v = .unknown → M.pred = [] ∧ need)

omit [DecidableEq σ] in
theorem Decides.congr {v : Verdict} {P P' need : Prop} (hP : P ↔ P') (h : M.Decides v P need) :
    M.Decides v P' need :=
  ⟨fun hv => hP.mp (h.1 hv), fun hv hp => h.2.1 hv (hP.mpr hp), h.2.2⟩

theorem askLeaf_decides (hM : M.Exact step) {depth : Nat} {s : SetExpr} (hs : s.Leaf)
    (h : M.Settled s.Backward (M.nonempty ids rounds depth s)) :
    ∃ v, M.askLeaf ids rounds depth s = .ok v ∧ M.Decides v (∃ x, s.Den M step x) s.Backward := by
  unfold askLeaf
  rcases h with ⟨b, hb⟩ | ⟨href, hpred, hneed⟩
  · have hexact := hM.nonempty hs hb
    rw [hb]
    cases b with
    | true => exact ⟨.yes, rfl, fun _ => hexact.mp rfl, nofun, nofun⟩
    | false =>
      exact ⟨.no, rfl, nofun, fun _ hx => Bool.false_ne_true (hexact.mpr hx), nofun⟩
  · rw [href]
    exact ⟨.unknown, rfl, nofun, nofun, fun _ => ⟨hpred, hneed⟩⟩

theorem askAny_decides (hM : M.Exact step) {depth : Nat} (need : Prop) :
    ∀ {ls : List SetExpr} {u : Bool},
    (∀ s ∈ ls, s.Leaf ∧ M.Settled s.Backward (M.nonempty ids rounds depth s)) →
    (∀ s ∈ ls, s.Backward → need) → (u = true → M.pred = [] ∧ need) →
    ∃ v, M.askAny ids rounds depth u ls = .ok v ∧ (v = .yes → ∃ s ∈ ls, ∃ x, s.Den M step x) ∧
      (v = .no → u = false ∧ ∀ s ∈ ls, ¬ ∃ x, s.Den M step x) ∧
      (v = .unknown → M.pred = [] ∧ need) := by
  intro ls
  induction ls with
  | nil =>
    intro u _ _ hu
    cases u with
    | true => exact ⟨.unknown, rfl, nofun, nofun, fun _ => hu rfl⟩
    | false => exact ⟨.no, rfl, nofun, fun _ => ⟨rfl, nofun⟩, nofun⟩
  | cons s ls ih =>
    intro u hls hneed hu
    obtain ⟨⟨hs, hset⟩, hls⟩ := List.forall_mem_cons.mp hls
    obtain ⟨hneeds, hneed⟩ := List.forall_mem_cons.mp hneed
    obtain ⟨v, hv, hyes, hno, hunknown⟩ := askLeaf_decides hM hs hset
    have hup : (∃ t ∈ ls, ∃ x, t.Den M step x) → ∃ t ∈ s :: ls, ∃ x, t.Den M step x :=
      fun ⟨t, ht, hx⟩ => ⟨t, List.mem_cons_of_mem _ ht, hx⟩
    cases v with
    | yes => exact ⟨.yes, bind_of_ok hv rfl,
        fun _ => ⟨s, List.mem_cons_self .., hyes rfl⟩, nofun, nofun⟩
    | no =>
      obtain ⟨w, hw, h1, h2, h3⟩ := ih hls hneed hu
      refine ⟨w, bind_of_ok hv hw, fun h => hup (h1 h), fun h => ?_, h3⟩
      exact ⟨(h2 h).1, List.forall_mem_cons.mpr ⟨hno rfl, (h2 h).2⟩⟩
    | unknown =>
      obtain ⟨hpred, hback⟩ := hunknown rfl
      obtain ⟨w, hw, h1, h2, h3⟩ := ih (u := true) hls hneed fun _ => ⟨hpred, hneeds hback⟩
      exact ⟨w, bind_of_ok hv hw, fun h => hup (h1 h), fun h => absurd (h2 h).1 nofun, h3⟩

/-- A question whose leaves settle is decided. -/
theorem ask_decides (hM : M.Exact step) {depth : Nat} {Q : Question}
    (hQ : ∀ s ∈ Q.leaves, s.Leaf ∧ M.Settled s.Backward (M.nonempty ids rounds depth s)) :
    ∃ v, M.ask ids rounds depth Q = .ok v ∧
      M.Decides v (Q.Inhabited M step) (∃ s ∈ Q.leaves, s.Backward) := by
  cases Q with
  | never =>
    refine ⟨.no, rfl, nofun, fun _ hinh => ?_, nofun⟩
    obtain ⟨s, hs, -⟩ := hinh
    cases hs
  | nonempty s =>
    obtain ⟨hs, hset⟩ := hQ s (List.mem_singleton_self s)
    obtain ⟨v, hv, hyes, hno, hunknown⟩ := askLeaf_decides hM hs hset
    refine ⟨v, hv, fun h => nonempty_inhabited.mpr (hyes h),
      fun h hinh => hno h (nonempty_inhabited.mp hinh), fun h => ?_⟩
    obtain ⟨hpred, hback⟩ := hunknown h
    exact ⟨hpred, s, List.mem_singleton_self s, hback⟩
  | any ls =>
    obtain ⟨v, hv, hyes, hno, hunknown⟩ := askAny_decides hM (∃ s ∈ ls, s.Backward)
      (u := false) hQ (fun s hs hback => ⟨s, hs, hback⟩) nofun
    refine ⟨v, hv, hyes, fun h hinh => ?_, hunknown⟩
    obtain ⟨s, hs, hx⟩ := hinh
    exact (hno h).2 s hs hx

section Answers

variable (hM : M.Exact step) (hr : M.reach.card < rounds)

include hM hr

/-- With enough depth the question of the rule is decided: whether some initial state
satisfies the formula. -/
theorem rule_decides (ids : Formula → Nat) (qids : SetExpr → Nat) (fromLeft : Bool)
    (f : Formula) : ∀ᶠ depth in atTop, ∃ v,
      M.ask ids rounds depth (ruleFrom ids qids fromLeft f .init) = .ok v ∧
      M.Decides v (∃ x ∈ M.init, M.Holds step f x)
        (∃ s ∈ (ruleFrom ids qids fromLeft f .init).leaves, s.Backward) := by
  have hX : Hereditary fun _ => True := ⟨trivial, by simp, by simp, by simp, by simp⟩
  have hspec : (ruleFrom ids qids fromLeft f .init).Inhabited M step ↔
      ∃ x ∈ M.init, M.Holds step f x := (ruleFrom_spec hX f trivial .init trivial).2
  have hall : ∀ ls : List SetExpr, ∀ᶠ depth in atTop, ∀ s ∈ ls,
      M.Settled s.Backward (M.nonempty ids rounds depth s) := by
    intro ls
    induction ls with
    | nil => exact .of_forall fun _ => nofun
    | cons s ls ih =>
      exact ((nonempty_settled hM hr ids s).and ih).mono fun n hn =>
        List.forall_mem_cons.mpr hn
  refine (hall (ruleFrom ids qids fromLeft f .init).leaves).mono fun depth hset => ?_
  obtain ⟨v, hv, hdec⟩ := ask_decides hM fun s hs =>
    ⟨ruleFrom_asks f .init trivial s hs, hset s hs⟩
  exact ⟨v, hv, hdec.congr hspec⟩

/-- One initial state: the question and its complement are decided alike. -/
theorem check_decides (ids : Formula → Nat) (qids : SetExpr → Nat) (single : Bool) {x0 : σ}
    (hx0 : M.init = {x0}) (phi : Formula) : ∀ᶠ depth in atTop, ∃ v,
      M.check ids rounds depth (convert ids qids phi single) = .ok v ∧
      M.Decides v (M.Holds step phi x0)
        (∃ s ∈ (convert ids qids phi single).root.leaves, s.Backward) := by
  have hx0R : x0 ∈ M.reach := hM.init (hx0 ▸ Finset.mem_singleton_self x0)
  have hone : ∀ f, (∃ x ∈ M.init, M.Holds step f x) ↔ M.Holds step f x0 := by
    intro f
    simp [hx0]
  have hnf : M.Holds step (nnf ids phi) x0 ↔ M.Holds step phi x0 := nnf_sat ids phi true x0
  unfold convert
  dsimp only
  split
  · refine (rule_decides hM hr ids qids false (nnf ids phi)).mono fun depth ⟨v, hv, hdec⟩ => ?_
    refine ⟨v, bind_of_ok hv rfl, hdec.congr ((hone _).trans hnf)⟩
  · have hneg : M.Holds step (negate ids (nnf ids phi)) x0 ↔ ¬ M.Holds step phi x0 :=
      (hM.holds_negate hx0R _).trans (not_congr hnf)
    refine (rule_decides hM hr ids qids false (negate ids (nnf ids phi))).mono
      fun depth ⟨v, hv, hdec⟩ => ?_
    obtain ⟨hyes, hno, hunknown⟩ := hdec.congr ((hone _).trans hneg)
    cases v with
    | yes => exact ⟨.no, bind_of_ok hv rfl, nofun, fun _ => hyes rfl, nofun⟩
    | no => exact ⟨.yes, bind_of_ok hv rfl, fun _ => not_not.mp (hno rfl), nofun, nofun⟩
    | unknown => exact ⟨.unknown, bind_of_ok hv rfl, nofun, nofun, fun _ => hunknown rfl⟩

end Answers

end Model

/-! ## The model of the command -/

namespace System

variable {σ : Type} [DecidableEq σ] {D : System σ} {inv : Inverter σ} {reach : Finset σ}

variable (D reach) in
/-- The set is the reachable one, and every guard and every atom has a value in it. -/
structure Regular : Prop where
  init : D.init ⊆ reach
  closed : ∀ x ∈ reach, ∀ y, D.Step x y → y ∈ reach
  defined : ∀ gs e, Decl.event gs e ∈ D.decls → ∀ g ∈ gs, ∀ x ∈ reach, g x ≠ .undef
  atom : ∀ a, ∀ x ∈ reach, D.atom a x ≠ .undef

variable (D) in
/-- A deadlock that the guards do not show: a family is declared, whose guards are not known,
or an event passes its guard without a successor. -/
def Missed (x : σ) : Prop :=
  Stuck D.Step x ∧ (D.guardsComplete = false ∨
    ∃ gs e, Decl.event gs e ∈ D.decls ∧ enabled gs x = true)

omit [DecidableEq σ] in
/-- A defined guard that does not enable its event is false. -/
theorem guard_eq_no {gs : List (σ → Truth)} {x : σ} (h : enabled gs x = false)
    (hval : ∀ g ∈ gs, g x ≠ .undef) :
    gs.foldr (fun g acc => ConnOp.conj.step (g x) acc) .yes = .no := by
  induction gs with
  | nil => cases h
  | cons g gs ih =>
    obtain ⟨hg, hgs⟩ := List.forall_mem_cons.mp hval
    rw [List.foldr_cons]
    cases hv : g x with
    | undef => exact absurd hv hg
    | no => rfl
    | yes =>
      have htail : enabled gs x = false := by
        simpa [enabled, hv] using h
      rw [ih htail hgs]
      rfl

omit [DecidableEq σ] in
theorem decls_eq_no {s : σ} {ds : List (Decl σ)} (h : ∀ d ∈ ds, guardValue d s = .no) :
    ds.foldr (fun d acc => ConnOp.disj.step (guardValue d s) acc) .no = .no := by
  induction ds with
  | nil => rfl
  | cons d ds ih =>
    obtain ⟨hd, hds⟩ := List.forall_mem_cons.mp h
    rw [List.foldr_cons, hd, ih hds]
    rfl

omit [DecidableEq σ] in
/-- Where the guards are all known, a stuck state fails them all. -/
theorem deadlock_of_stuck (hD : D.Regular reach) {x : σ} (hx : x ∈ reach)
    (hstuck : Stuck D.Step x) (hmissed : ¬ D.Missed x) : x ∈ D.dead reach := by
  have hnot : ¬ (D.guardsComplete = false ∨
      ∃ gs e, Decl.event gs e ∈ D.decls ∧ enabled gs x = true) := fun h => hmissed ⟨hstuck, h⟩
  have hcomplete : D.guardsComplete = true := by
    cases h : D.guardsComplete with
    | false => exact absurd (.inl h) hnot
    | true => rfl
  have hno : ∀ d ∈ D.decls, guardValue d x = .no := by
    intro d hd
    cases d with
    | event gs e =>
      refine guard_eq_no ?_ fun g hg => hD.defined gs e hd g hg x hx
      by_contra hen
      exact hnot (.inr ⟨gs, e, hd, by simpa using hen⟩)
    | idle =>
      refine absurd ?_ (hstuck x)
      refine ⟨fun s => {s}, ?_, Finset.mem_singleton_self x⟩
      unfold nextEvents
      have hidle : D.idleEvent = true := List.any_eq_true.mpr ⟨_, hd, rfl⟩
      rw [if_pos hidle]
      exact List.mem_append_right _ (List.mem_singleton.mpr rfl)
    | family t =>
      have hfam : D.decls.any isFamily = true := List.any_eq_true.mpr ⟨_, hd, rfl⟩
      rw [guardsComplete, hfam] at hcomplete
      cases hcomplete
  unfold dead
  rw [if_pos hcomplete]
  refine Finset.mem_filter.mpr ⟨hx, ?_⟩
  unfold deadlock
  rw [decls_eq_no hno]
  rfl

omit [DecidableEq σ] in
theorem dead_subset : D.dead reach ⊆ reach := by
  unfold dead
  split
  · exact Finset.filter_subset _ _
  · exact Finset.empty_subset _

omit [DecidableEq σ] in
theorem mem_dead (hD : D.Regular reach) (hseen : ∀ x ∈ reach, ¬ D.Missed x) {x : σ} :
    x ∈ D.dead reach ↔ x ∈ reach ∧ Stuck D.Step x :=
  ⟨fun hx => ⟨dead_subset hx, dead_stuck hx⟩,
    fun ⟨hx, hstuck⟩ => deadlock_of_stuck hD hx hstuck (hseen x hx)⟩

/-- A protected converse stays in the reachable set. -/
theorem invertEvents_inside : ∀ {ts preds raw : List (σ → Finset σ)},
    invertEvents inv reach ts = some (preds, raw) → ∀ p ∈ preds, ∀ y ∈ reach, p y ⊆ reach := by
  intro ts
  induction ts with
  | nil =>
    intro preds raw h
    cases h
    exact nofun
  | cons t ts ih =>
    intro preds raw h
    obtain ⟨p, hp, h⟩ := Option.bind_eq_some_iff.mp h
    obtain ⟨⟨preds', raw'⟩, hts, h⟩ := Option.bind_eq_some_iff.mp h
    cases h
    refine List.forall_mem_cons.mpr ⟨fun y hy x hx => ?_, ih hts⟩
    split at hx
    · next hin => exact hin (mem_image.mpr ⟨y, hy, mem_successors.mpr ⟨p, by simp, hx⟩⟩)
    · exact (Finset.mem_inter.mp hx).2

theorem converses_inside : ∀ p ∈ (D.converses inv reach).1, ∀ y ∈ reach, p y ⊆ reach := by
  unfold converses
  split
  · exact nofun
  · next preds raw heq =>
    have hpreds := invertEvents_inside heq
    split
    · intro p hp
      rcases List.mem_append.mp hp with hp | hp
      · exact hpreds p hp
      · rw [List.mem_singleton.mp hp]
        exact fun y hy => Finset.singleton_subset_iff.mpr hy
    · exact hpreds

omit [DecidableEq σ] in
/-- Paired converses give the predecessors of a reachable state. -/
theorem Paired.exists_iff {ts ps : List (σ → Finset σ)} (h : Paired reach ts ps) {x y : σ}
    (hx : x ∈ reach) (hy : y ∈ reach) : (∃ p ∈ ps, x ∈ p y) ↔ ∃ t ∈ ts, y ∈ t x := by
  unfold Paired at h
  induction h with
  | nil => simp
  | cons hp _ ih => rw [List.exists_mem_cons_iff, List.exists_mem_cons_iff, hp x hx y hy, ih]

theorem Paired.successors {ps : List (σ → Finset σ)} (h : Paired reach D.nextEvents ps) {x y : σ}
    (hx : x ∈ reach) (hy : y ∈ reach) : x ∈ successors ps y ↔ D.Step x y :=
  mem_successors.trans (h.exists_iff hx hy)

/-- With the deadlocks of the reachable set the model is of the reachability graph. -/
theorem withDead_exact (hD : D.Regular reach) {dead : Finset σ}
    (hdead : ∀ x, x ∈ dead ↔ x ∈ reach ∧ Stuck D.Step x) :
    ((D.model inv reach).withDead dead).Exact D.Step where
  init := hD.init
  closed := hD.closed
  next _ _ _ := mem_successors
  pred := by
    intro hpred y hy x
    rcases @converses_paired _ _ D inv reach with hnone | ⟨hpreds, -⟩
    · exact absurd (congrArg Prod.fst hnone) hpred
    · constructor
      · intro hx
        obtain ⟨p, hp, hxp⟩ := mem_successors.mp hx
        have hxR := converses_inside p hp y hy hxp
        exact ⟨hxR, (hpreds.successors hxR hy).mp hx⟩
      · rintro ⟨hx, hst⟩
        exact (hpreds.successors hx hy).mpr hst
  rawPred := by
    intro hraw y hy x hx
    rcases @converses_paired _ _ D inv reach with hnone | ⟨-, hpairs⟩
    · exact absurd (congrArg Prod.snd hnone) hraw
    · exact hpairs.successors hx hy
  dead := hdead
  atom := hD.atom

/-- The model the command builds is of the graph, when it misses no deadlock. -/
theorem model_exact (hD : D.Regular reach) (hseen : ∀ x ∈ reach, ¬ D.Missed x) :
    (D.model inv reach).Exact D.Step :=
  withDead_exact hD fun _ => mem_dead hD hseen

omit [DecidableEq σ] in
theorem not_missed {x : σ} (hcomplete : D.guardsComplete = true)
    (hsteps : ∀ gs e, Decl.event gs e ∈ D.decls → enabled gs x = true → (e x).Nonempty) :
    ¬ D.Missed x := by
  rintro ⟨hstuck, hfam | ⟨gs, e, hd, hen⟩⟩
  · rw [hcomplete] at hfam
    cases hfam
  · obtain ⟨y, hy⟩ := hsteps gs e hd hen
    refine hstuck y ⟨fun s => if enabled gs s then e s else ∅, mem_nextEvents ?_, ?_⟩
    · exact List.mem_filterMap.mpr ⟨_, hd, rfl⟩
    · dsimp only
      rw [if_pos hen]
      exact hy

/-- The checker answers as on the graph when no deadlock is missed, or none is asked for. -/
theorem ask_exact (hD : D.Regular reach) (inv : Inverter σ) (ids : Formula → Nat)
    (qids : SetExpr → Nat) (rounds : Nat) {f : Formula}
    (hdead : (∀ x ∈ reach, ¬ D.Missed x) ∨ f.DeadFree) :
    ∃ dead, ((D.model inv reach).withDead dead).Exact D.Step ∧ ∀ depth,
      ((D.model inv reach).withDead dead).ask ids rounds depth (rule ids qids f .init) =
        (D.model inv reach).ask ids rounds depth (rule ids qids f .init) := by
  classical
  rcases hdead with hseen | hfree
  · exact ⟨D.dead reach, model_exact hD hseen, fun _ => rfl⟩
  · have hexact : ((D.model inv reach).withDead (reach.filter (Stuck D.Step))).Exact D.Step :=
      withDead_exact hD fun x => Finset.mem_filter
    refine ⟨_, hexact, fun depth => Model.ask_withDead ?_⟩
    have hspec : RuleSpec (D.model inv reach) D.Step Formula.DeadFree f (rule ids qids f) :=
      rule_spec hereditary_deadFree f hfree
    exact (hspec .init trivial).1

/-- A question is then decided: whether some initial state satisfies the formula. -/
theorem ask_right (hD : D.Regular reach) (inv : Inverter σ) (ids : Formula → Nat)
    (qids : SetExpr → Nat) {rounds : Nat} (hr : reach.card < rounds) {f : Formula}
    (hdead : (∀ x ∈ reach, ¬ D.Missed x) ∨ f.DeadFree) : ∀ᶠ depth in atTop, ∃ v,
      (D.model inv reach).ask ids rounds depth (rule ids qids f .init) = .ok v ∧
      (v = .yes → ∃ x ∈ D.init, D.Sat f true x) ∧ (v = .no → ∀ x ∈ D.init, ¬ D.Sat f true x) ∧
      (v = .unknown → (D.model inv reach).pred = []) := by
  obtain ⟨dead, hM, hask⟩ := ask_exact hD inv ids qids rounds hdead
  refine (Model.rule_decides hM hr ids qids false f).mono fun depth h => ?_
  obtain ⟨v, hv, hyes, hno, hunknown⟩ := h
  refine ⟨v, (hask depth).symm.trans hv, hyes, fun h x hx hsx => ?_, fun h => (hunknown h).1⟩
  exact hno h ⟨x, hx, hsx⟩

theorem sat_negate (hD : D.Regular reach) {x : σ} (hx : x ∈ reach) (ids : Formula → Nat)
    (f : Formula) : D.Sat (negate ids f) true x ↔ ¬ D.Sat f true x := by
  classical
  have hexact : ((D.model (potentialInverter σ) reach).withDead
      (reach.filter (Stuck D.Step))).Exact D.Step :=
    withDead_exact hD fun x => Finset.mem_filter
  exact hexact.holds_negate hx f

end System

/-! ## Main results -/

theorem ofBool_defined (b : Bool) : Truth.ofBool b ≠ .undef := by
  cases b <;> exact nofun

/-- The one step of the system goes to its deadlock. -/
theorem oneStep_regular : (oneStep {0}).Regular {0, 1} where
  init := by decide
  closed := by
    intro x _ y hst
    rw [(oneStep_step.mp hst).2]
    decide
  defined := by
    intro gs e hd g hg x _
    cases List.mem_singleton.mp hd
    rw [List.mem_singleton.mp hg]
    exact ofBool_defined _
  atom _ _ _ := ofBool_defined _

theorem oneStep_seen {init : Finset Nat} (x : Nat) : ¬ (oneStep init).Missed x := by
  refine System.not_missed rfl fun gs e hd _ => ?_
  cases List.mem_singleton.mp hd
  exact ⟨1, Finset.mem_singleton_self 1⟩

theorem oneStep_exact : ((oneStep {0}).model (potentialInverter Nat) {0, 1}).Exact
    (oneStep {0}).Step :=
  System.model_exact oneStep_regular fun x _ => oneStep_seen x

section Main

variable {σ : Type} [DecidableEq σ]

/-- A graph without a step: there is no event to invert. -/
def still : System Nat where
  decls := []
  init := {0}
  atom _ _ := .yes

theorem still_regular : still.Regular {0} where
  init := subset_rfl
  closed := by
    rintro x - y ⟨t, ht, -⟩
    cases ht
  defined := nofun
  atom _ _ _ := nofun

/-- With one initial state a verdict yes or no is right, and a verdict comes; it is unknown
only where a backward operator is needed and there is no converse. -/
theorem verdict_right (M : Model σ) (step : σ → σ → Prop) (hM : M.Exact step)
    (ids : Formula → Nat) (qids : SetExpr → Nat) (rounds : Nat) (hr : M.reach.card < rounds)
    (x0 : σ) (hx0 : M.init = {x0}) (phi : Formula) : ∃ least, ∀ depth, least ≤ depth → ∃ v,
      M.check ids rounds depth (convert ids qids phi true) = .ok v ∧
      (v = .yes → M.Holds step phi x0) ∧ (v = .no → ¬ M.Holds step phi x0) ∧
      (v = .unknown → M.pred = [] ∧ ∃ s ∈ (convert ids qids phi true).root.leaves, s.Backward) :=
  Filter.eventually_atTop.mp (Model.check_decides hM hr ids qids true hx0 phi)

theorem verdict_right_oneStep : ∃ least, ∀ depth, least ≤ depth → ∃ v,
    ((oneStep {0}).model (potentialInverter Nat) {0, 1}).check (fun _ => 0) 3 depth
      (convert (fun _ => 0) (fun _ => 0) (.unary .ag (.unary .ef (.atom 0))) true) = .ok v ∧
      (v = .yes → ((oneStep {0}).model (potentialInverter Nat) {0, 1}).Holds (oneStep {0}).Step
        (.unary .ag (.unary .ef (.atom 0))) 0) ∧
      (v = .no → ¬ ((oneStep {0}).model (potentialInverter Nat) {0, 1}).Holds (oneStep {0}).Step
        (.unary .ag (.unary .ef (.atom 0))) 0) ∧
      (v = .unknown → ((oneStep {0}).model (potentialInverter Nat) {0, 1}).pred = [] ∧
        ∃ s ∈ (convert (fun _ => 0) (fun _ => 0) (.unary .ag (.unary .ef (.atom 0)))
          true).root.leaves, s.Backward) :=
  verdict_right _ _ oneStep_exact (fun _ => 0) (fun _ => 0) 3 (by decide)
    0 rfl (.unary .ag (.unary .ef (.atom 0)))

/-- The command on the whole reachable set, the model built from the default system as it
is, when no deadlock is missed or the formula asks for none. It asks one question whatever
the number of initial states, so its verdict is right exactly when the top of the normal form
is not convertible or the initial states agree on the formula. -/
theorem doCtl_right (D : System σ) (inv : Inverter σ) (reach : Finset σ) (hD : D.Regular reach)
    (hinit : D.init.Nonempty) (ids : Formula → Nat) (qids : SetExpr → Nat) (rounds : Nat)
    (hr : reach.card < rounds) (phi : Formula) (kept : Option (System.Built σ))
    (hkept : ∀ b ∈ kept, b = ⟨D, reach, false⟩)
    (hdead : (∀ x ∈ reach, ¬ D.Missed x) ∨ (nnf ids phi).DeadFree) :
    ∃ least, ∀ depth, least ≤ depth → ∃ v,
      System.ctlForm ids qids rounds depth inv kept ⟨D, reach, false⟩ phi = .ok v ∧
      (v = .unknown → (D.model inv reach).pred = []) ∧
      (v ≠ .unknown → (((v = .yes → ∀ x ∈ D.init, D.Sat phi true x) ∧
        (v = .no → ∃ x ∈ D.init, ¬ D.Sat phi true x)) ↔
        (convertible (nnf ids phi) = true →
          (∀ x ∈ D.init, D.Sat phi true x) ∨ ∀ x ∈ D.init, ¬ D.Sat phi true x))) := by
  have hform : ∀ depth, System.ctlForm ids qids rounds depth inv kept ⟨D, reach, false⟩ phi =
      D.doCtl ids qids rounds depth inv reach false phi := by
    intro depth
    cases kept with
    | none => rfl
    | some b =>
      obtain rfl := hkept b rfl
      rfl
  simp only [hform]
  have hnf : ∀ x, D.Sat (nnf ids phi) true x ↔ D.Sat phi true x := nnf_sat ids phi true
  by_cases hc : convertible (nnf ids phi) = true
  · have hconv : convert ids qids phi true = ⟨rule ids qids (nnf ids phi) .init, false⟩ := by
      unfold convert
      dsimp only
      rw [hc]
      rfl
    obtain ⟨least, hall⟩ := Filter.eventually_atTop.mp (System.ask_right hD inv ids qids hr hdead)
    refine ⟨least, fun depth hd => ?_⟩
    obtain ⟨v, hv, hyes, hno, hunknown⟩ := hall depth hd
    refine ⟨v, ?_, hunknown, fun hne => ?_⟩
    · unfold System.doCtl
      rw [hconv]
      exact bind_of_ok (bind_of_ok hv rfl) rfl
    · rw [forall_prop_of_true hc]
      cases v with
      | unknown => exact absurd rfl hne
      | yes =>
        obtain ⟨x, hx, hsx⟩ := hyes rfl
        refine ⟨fun h => .inl (h.1 rfl), fun h => ⟨fun _ => h.resolve_right ?_, nofun⟩⟩
        exact fun hnone => hnone x hx ((hnf x).mp hsx)
      | no =>
        have hnone : ∀ x ∈ D.init, ¬ D.Sat phi true x := fun x hx hsx =>
          hno rfl x hx ((hnf x).mpr hsx)
        obtain ⟨x, hx⟩ := hinit
        exact ⟨fun _ => .inr hnone, fun _ => ⟨nofun, fun _ => ⟨x, hx, hnone x hx⟩⟩⟩
  · have hconv : convert ids qids phi true =
        ⟨rule ids qids (negate ids (nnf ids phi)) .init, true⟩ := by
      unfold convert
      dsimp only
      rw [Bool.eq_false_iff.mpr hc]
      rfl
    have hneg : ∀ x ∈ D.init, (D.Sat (negate ids (nnf ids phi)) true x ↔ ¬ D.Sat phi true x) :=
      fun x hx => (System.sat_negate hD (hD.init hx) ids _).trans (not_congr (hnf x))
    have hfree : (∀ x ∈ reach, ¬ D.Missed x) ∨ (negate ids (nnf ids phi)).DeadFree :=
      hdead.imp_right (negate_deadFree _)
    obtain ⟨least, hall⟩ := Filter.eventually_atTop.mp (System.ask_right hD inv ids qids hr hfree)
    refine ⟨least, fun depth hd => ?_⟩
    obtain ⟨v, hv, hyes, hno, hunknown⟩ := hall depth hd
    have hdo : ∀ w, (match v with
        | .yes => Verdict.no
        | .no => Verdict.yes
        | .unknown => Verdict.unknown) = w →
        D.doCtl ids qids rounds depth inv reach false phi = .ok w := by
      rintro _ rfl
      unfold System.doCtl
      rw [hconv]
      refine bind_of_ok (bind_of_ok hv ?_) rfl
      cases v <;> rfl
    cases v with
    | unknown => exact ⟨.unknown, hdo _ rfl, fun _ => hunknown rfl, fun h => absurd rfl h⟩
    | yes =>
      obtain ⟨x, hx, hsx⟩ := hyes rfl
      refine ⟨.no, hdo _ rfl, nofun, fun _ => iff_of_true ⟨nofun, fun _ => ?_⟩ fun h => absurd h hc⟩
      exact ⟨x, hx, (hneg x hx).mp hsx⟩
    | no =>
      refine ⟨.yes, hdo _ rfl, nofun, fun _ => iff_of_true ⟨fun _ x hx => ?_, nofun⟩
        fun h => absurd h hc⟩
      exact by_contra fun hsx => hno rfl x hx ((hneg x hx).mpr hsx)

/-- A guarded assignment of the first of two leaves, as an event and as its term. -/
def wordStep : System (Int × Int) where
  decls := [.event [fun s => Truth.ofBool (s.1 == 0)] fun s => {(1, s.2)}]
  init := {(0, 0), (2, 0)}
  atom _ s := Truth.ofBool (s.1 == 1)

def wordStepTerm : Term (.pair .leaf .leaf) :=
  Term.node (IntTerm.prim (.set [0]) (.assign 1)) IntTerm.id

noncomputable def wordInverter : Inverter (Int × Int) :=
  (Manager.standard 4 4).inverter (.pair .leaf .leaf) [wordStepTerm]

theorem wordStep_regular : wordStep.Regular {(0, 0), (2, 0), (1, 0)} where
  init := by decide
  closed := by
    rintro x hx y ⟨t, ht, hy⟩
    obtain rfl := List.mem_singleton.mp ht
    dsimp only at hy
    split at hy
    · next hen =>
      simp only [Finset.mem_insert, Finset.mem_singleton] at hx hy ⊢
      rcases hx with rfl | rfl | rfl <;> simp [hy]
    · cases hy
  defined := by
    intro gs e hd g hg x _
    cases List.mem_singleton.mp hd
    rw [List.mem_singleton.mp hg]
    exact ofBool_defined _
  atom _ _ _ := ofBool_defined _

/-- One of the initial states is a deadlock, which `AF` sees. -/
theorem doCtl_right_two_seeds : ∃ least, ∀ depth, least ≤ depth → ∃ v,
    System.ctlForm (fun _ => 0) (fun _ => 0) 4 depth wordInverter
      (some ⟨wordStep, {(0, 0), (2, 0), (1, 0)}, false⟩)
      ⟨wordStep, {(0, 0), (2, 0), (1, 0)}, false⟩ (.unary .af (.atom 0)) = .ok v ∧
    (v = .unknown → (wordStep.model wordInverter {(0, 0), (2, 0), (1, 0)}).pred = []) ∧
    (v ≠ .unknown → (((v = .yes → ∀ x ∈ wordStep.init, wordStep.Sat (.unary .af (.atom 0)) true x) ∧
      (v = .no → ∃ x ∈ wordStep.init, ¬ wordStep.Sat (.unary .af (.atom 0)) true x)) ↔
      (convertible (nnf (fun _ => 0) (.unary .af (.atom 0))) = true →
        (∀ x ∈ wordStep.init, wordStep.Sat (.unary .af (.atom 0)) true x) ∨
        ∀ x ∈ wordStep.init, ¬ wordStep.Sat (.unary .af (.atom 0)) true x))) := by
  refine doCtl_right wordStep _ {(0, 0), (2, 0), (1, 0)} wordStep_regular ⟨(0, 0), by decide⟩
    (fun _ => 0) (fun _ => 0) 4 (by decide) (.unary .af (.atom 0)) _ (fun b hb => ?_)
    (.inl fun x _ => System.not_missed rfl fun gs e hd _ => ?_)
  · cases hb
    rfl
  · cases List.mem_singleton.mp hd
    exact ⟨(1, x.2), Finset.mem_singleton_self _⟩

/-- Of the two initial states one satisfies the formula, and it is printed true. -/
theorem doCtl_one_of_two :
    (oneStep {0, 2}).doCtl (fun _ => 0) (fun _ => 0) 4 4 (potentialInverter Nat) {0, 1, 2} false
      (.unary .ex (.atom 0)) = .ok .yes ∧
    2 ∈ (oneStep {0, 2}).init ∧ ¬ (oneStep {0, 2}).Sat (.unary .ex (.atom 0)) true 2 := by
  refine ⟨by decide +kernel, by decide, fun h => ?_⟩
  exact absurd ((oneStep_ex true).mp h) (by decide)

end Main

end LibHSC.Ctl
