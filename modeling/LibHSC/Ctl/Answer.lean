import LibHSC.Ctl.Exact

/-!
The answers to the questions of the forward conversion, on a model of a finite graph. A
leaf is answered yes exactly when it is inhabited; it is refused only where a backward
operator meets no converse, and no evaluation goes on for ever.
-/

namespace LibHSC.Ctl

open Lia (ConnOp Truth)
open Paths

/-! ## The shape of the questions -/

/-- The sets that stand under another: the set of a globally is none of them. -/
def SetExpr.Seed : SetExpr → Prop
  | .init => True
  | .filter r f => r.Seed ∧ isState f = true
  | .ey r => r.Seed
  | .fwdu r _ => r.Seed
  | .fwdg _ _ => False
  | .restrict r _ => r.Seed

/-- The sets that are asked for. -/
def SetExpr.Leaf : SetExpr → Prop
  | .fwdg r _ => r.Seed
  | s => s.Seed

theorem SetExpr.Seed.leaf {s : SetExpr} (h : s.Seed) : s.Leaf := by
  cases s with
  | fwdg r q => exact h.elim
  | _ => exact h

section Shape

variable {ids : Formula → Nat} {qids : SetExpr → Nat} {fromLeft : Bool}

/-- The questions about a seed are asked of leaves. -/
def Asks (g : SetExpr → Question) : Prop := ∀ r : SetExpr, r.Seed → ∀ s ∈ (g r).leaves, s.Leaf

theorem asks_nonempty {g : SetExpr → SetExpr} (h : ∀ r : SetExpr, r.Seed → (g r).Leaf) :
    Asks fun r => .nonempty (g r) := by
  intro r hr s hs
  rw [List.mem_singleton.mp hs]
  exact h r hr

theorem stateRule_asks {f : Formula} (hf : isState f = true) : Asks (stateRule f) := by
  have hother : Asks fun r => .nonempty (.filter r f) := asks_nonempty fun r hr => ⟨hr, hf⟩
  cases f with
  | fls => exact fun r _ => nofun
  | tru => exact asks_nonempty (g := fun r => r) fun r hr => hr.leaf
  | _ => exact hother

theorem foldl_conjunct_asks : ∀ (ks : List (Formula × (SetExpr → Question))) (cur : SetExpr)
    (fwd : Option (SetExpr → Question)), cur.Seed → (∀ g ∈ fwd, Asks g) →
    (∀ k ∈ ks, Asks k.2) → (ks.foldl conjunct (cur, fwd)).1.Seed ∧
      ∀ g ∈ (ks.foldl conjunct (cur, fwd)).2, Asks g := by
  intro ks
  induction ks with
  | nil => exact fun cur fwd hcur hg _ => ⟨hcur, hg⟩
  | cons k ks ih =>
    intro cur fwd hcur hg hks
    obtain ⟨hk, hks⟩ := List.forall_mem_cons.mp hks
    rw [List.foldl_cons]
    cases fwd with
    | some g => exact ih (.restrict cur k.1) (some g) hcur hg hks
    | none =>
      have hstep : conjunct (cur, none) k =
          if convertible k.1 then (cur, some k.2) else (.restrict cur k.1, none) := rfl
      rw [hstep]
      split
      · refine ih cur (some k.2) hcur (fun g hg => ?_) hks
        cases hg
        exact hk
      · exact ih (.restrict cur k.1) none hcur nofun hks

theorem andRule_asks {state : List Formula} {rest : List (Formula × (SetExpr → Question))}
    (hstate : ∀ f ∈ state, isState f = true) (hrest : ∀ k ∈ rest, Asks k.2) :
    Asks (andRule ids fromLeft state rest) := by
  intro r hr s hs
  have hcur : (if state = [] then r else .filter r (nary ids .conj state)).Seed := by
    split
    · exact hr
    · exact ⟨hr, isState_nary hstate⟩
  have hks : ∀ k ∈ (if fromLeft then rest else rest.reverse), Asks k.2 := by
    intro k hk
    cases fromLeft with
    | true => exact hrest k hk
    | false => exact hrest k (List.mem_reverse.mp hk)
  have hall := foldl_conjunct_asks _ (if state = [] then r else .filter r (nary ids .conj state))
    none hcur nofun hks
  unfold andRule at hs
  dsimp only at hs
  split at hs
  · next cur g heq =>
    rw [heq] at hall
    exact hall.2 g rfl cur hall.1 s hs
  · next cur heq =>
    rw [heq] at hall
    rw [List.mem_singleton.mp hs]
    exact hall.1.leaf

theorem anyOf_asks (qids : SetExpr → Nat) (gs : List (SetExpr → Question)) (h : ∀ g ∈ gs, Asks g) :
    Asks fun r => anyOf qids (gs.map fun g => g r) := by
  intro r hr s hs
  obtain ⟨k, hk, hs⟩ := mem_anyOf.mp hs
  obtain ⟨g, hg, rfl⟩ := List.mem_map.mp hk
  exact h g hg r hr s hs

mutual

theorem ruleFrom_asks : (f : Formula) → Asks (ruleFrom ids qids fromLeft f) := by
  intro f
  unfold ruleFrom
  split
  · next hstate => exact stateRule_asks hstate
  · cases f with
    | nary k kids =>
      have hkids := rules_asks kids
      cases k with
      | conj =>
        exact andRule_asks (fun f hf => (List.mem_filter.mp hf).2)
          fun k hk => hkids k (List.mem_filter.mp hk).1
      | disj =>
        have hkids : ∀ g ∈ (rules ids qids fromLeft kids).map Prod.snd, Asks g := by
          intro g hg
          obtain ⟨k, hk, rfl⟩ := List.mem_map.mp hg
          exact hkids k hk
        have hany := anyOf_asks qids ((rules ids qids fromLeft kids).map Prod.snd) hkids
        simpa only [List.map_map, Function.comp_def] using hany
    | unary o g =>
      have hg := ruleFrom_asks g
      cases o with
      | ex => exact fun r hr => hg (.ey r) hr
      | ef => exact fun r hr => hg (.fwdu r _) hr
      | eg => exact asks_nonempty fun r hr => hr
      | _ => exact asks_nonempty fun r hr => hr
    | binary o q g =>
      have hg := ruleFrom_asks g
      cases o with
      | eu => exact fun r hr => hg (.fwdu r _) hr
      | ew =>
        refine anyOf_asks qids [fun r => ruleFrom ids qids fromLeft g (.fwdu r q),
          fun r => .nonempty (.fwdg r q)] fun k hk => ?_
        rcases List.mem_cons.mp hk with rfl | hk
        · exact fun r hr => hg (.fwdu r q) hr
        · rw [List.mem_singleton.mp hk]
          exact asks_nonempty fun r hr => hr
      | _ => exact asks_nonempty fun r hr => hr
    | _ => exact asks_nonempty fun r hr => hr

theorem rules_asks : (fs : List Formula) → ∀ k ∈ rules ids qids fromLeft fs, Asks k.2
  | [] => nofun
  | f :: fs => List.forall_mem_cons.mpr ⟨ruleFrom_asks f, rules_asks fs⟩

end

end Shape

/-! ## The sets -/

namespace Model

variable {σ : Type} [DecidableEq σ] {M : Model σ} {step : σ → σ → Prop} {ids : Formula → Nat}
  {rounds depth : Nat} {q : Formula} {a c res : Finset σ}

theorem Exact.restrict (hM : M.Exact step) (ha : a ⊆ M.reach)
    (h : M.restrict (M.sat ids rounds depth) a q = .ok res) {x : σ} :
    x ∈ res ↔ x ∈ a ∧ M.Holds step q x := by
  unfold Model.restrict at h
  split at h
  · next hstate =>
    cases h
    exact mem_filter hstate
  · obtain ⟨s, hs, h⟩ := bind_eq_ok.mp h
    cases h
    rw [Finset.mem_inter, hM.sat s hs]
    exact and_congr_right fun hx => and_iff_right (ha hx)

/-- The states reached through `q` are the ends of the chains of `q`-states. -/
theorem Exact.reachThrough (hM : M.Exact step) (ha : a ⊆ M.reach)
    (h : M.reachThrough ids rounds depth a q = .ok res) {y : σ} : y ∈ res ↔
      M.Holds step q y ∧ ∃ x ∈ a, M.Holds step q x ∧ Chain step (M.Holds step q) (· = y) x := by
  obtain ⟨seed, hseed, h⟩ := bind_eq_ok.mp h
  obtain ⟨rq, hrq, h⟩ := bind_eq_ok.mp h
  have hseedR : seed ⊆ M.reach := (restrict_subset hseed).trans ha
  rw [hM.restrict (constrainedLfp_inside hM.inside hrq hseedR).2 h,
    hM.lfp_forward hM.sat hseedR hrq, and_comm]
  refine and_congr_right fun _ => exists_congr fun x => ?_
  rw [hM.restrict ha hseed, and_assoc]

/-- A seed evaluates to what it denotes. -/
theorem Exact.eval (hM : M.Exact step) : ∀ {r : SetExpr} {a : Finset σ}, r.Seed →
    M.eval ids rounds depth r = .ok a → ∀ x, x ∈ a ↔ r.Den M step x := by
  intro r
  induction r with
  | init =>
    intro a _ h x
    cases h
    exact Iff.rfl
  | filter r f ih =>
    intro a hr h x
    obtain ⟨b, hb, h⟩ := bind_eq_ok.mp h
    cases h
    rw [mem_filter hr.2, ih hr.1 hb]
    exact Iff.rfl
  | ey r ih =>
    intro a hr h y
    obtain ⟨b, hb, h⟩ := bind_eq_ok.mp h
    cases h
    rw [hM.mem_next (eval_inside hM.inside hb)]
    exact exists_congr fun x => and_congr_left fun _ => ih hr hb x
  | fwdu r q ih =>
    intro a hr h y
    obtain ⟨b, hb, h⟩ := bind_eq_ok.mp h
    rw [hM.lfp_forward hM.sat (eval_inside hM.inside hb) h]
    exact exists_congr fun x => and_congr_left fun _ => ih hr hb x
  | fwdg r q => exact fun hr => hr.elim
  | restrict r f ih =>
    intro a hr h x
    obtain ⟨b, hb, h⟩ := bind_eq_ok.mp h
    obtain ⟨s, hs, h⟩ := bind_eq_ok.mp h
    cases h
    rw [Finset.mem_inter, hM.sat s hs, ← and_assoc,
      and_iff_left_of_imp fun hx => eval_inside hM.inside hb hx, ih hr hb]
    exact Iff.rfl

/-! ## The leaves -/

/-- The search answers whether the closure holds a state of the goal. -/
theorem Exact.existsThrough (hM : M.Exact step) {r : SetExpr} (hr : r.Seed) {goal : Formula}
    (hgoal : isState goal = true) {b : Bool}
    (h : M.existsThrough ids rounds depth r q goal = .ok b) :
    b = true ↔ ∃ y, (SetExpr.filter (.fwdu r q) goal).Den M step y := by
  classical
  obtain ⟨a, ha, h⟩ := bind_eq_ok.mp h
  have haR : a ⊆ M.reach := eval_inside hM.inside ha
  have hden := hM.eval hr ha
  split at h
  · next hempty =>
    cases h
    refine iff_of_false Bool.false_ne_true ?_
    rintro ⟨y, ⟨x, hx, -⟩, -⟩
    exact Finset.notMem_empty x (hempty ▸ (hden x).mpr hx)
  · obtain ⟨s, hs, h⟩ := bind_eq_ok.mp h
    -- the closure that the search goes through
    let c := M.reach.filter fun y => ∃ x ∈ a, Chain step (M.Holds step q) (· = y) x
    have hmem : ∀ y, y ∈ c ↔ y ∈ M.reach ∧ ∃ x ∈ a, Chain step (M.Holds step q) (· = y) x :=
      fun y => Finset.mem_filter
    have hc : M.ClosureOf s a c := by
      refine ⟨fun x hx => (hmem x).mpr ⟨haR hx, x, hx, .goal rfl⟩, fun y hy => ?_,
        fun X hX hstep y hy => ?_⟩
      · have hcs : c ∩ s ⊆ M.reach := Finset.inter_subset_left.trans (Finset.filter_subset _ _)
        obtain ⟨z, hz, hst⟩ := (hM.mem_next hcs).mp hy
        obtain ⟨hzc, hzs⟩ := Finset.mem_inter.mp hz
        obtain ⟨hzR, x, hx, hchain⟩ := (hmem z).mp hzc
        refine (hmem y).mpr ⟨hM.closed z hzR y hst, x, hx, Chain.trans
          (hchain.mono (fun _ h => h) ?_)⟩
        rintro w rfl
        exact .cons ((hM.sat s hs w).mp hzs).2 hst (.goal rfl)
      · have hgo : ∀ x ∈ X ∩ c, Chain step (M.Holds step q) (· = y) x → y ∈ X := by
          intro x hx hchain
          induction hchain with
          | goal hxy => exact hxy ▸ (Finset.mem_inter.mp hx).1
          | @cons x z hq hst _ ih =>
            obtain ⟨hxX, hxc⟩ := Finset.mem_inter.mp hx
            obtain ⟨hxR, x0, hx0, hchain⟩ := (hmem x).mp hxc
            have hz : z ∈ image M.next (X ∩ c ∩ s) := by
              refine (hM.mem_next (Finset.inter_subset_left.trans
                (Finset.inter_subset_right.trans (Finset.filter_subset _ _)))).mpr ⟨x, ?_, hst⟩
              exact Finset.mem_inter.mpr ⟨hx, (hM.sat s hs x).mpr ⟨hxR, hq⟩⟩
            refine ih (Finset.mem_inter.mpr ⟨hstep hz, (hmem z).mpr
              ⟨hM.closed x hxR z hst, x0, hx0, Chain.trans (hchain.mono (fun _ h => h) ?_)⟩⟩)
            rintro w rfl
            exact .cons hq hst (.goal rfl)
        obtain ⟨-, x, hx, hchain⟩ := (hmem y).mp hy
        exact hgo x (Finset.mem_inter.mpr ⟨hX hx, (hmem x).mpr ⟨haR hx, x, hx, .goal rfl⟩⟩) hchain
    have hstart : M.search s goal (rounds + (c.card + 1)) a a =
        .ok (decide (M.filter c goal ≠ ∅)) := search_start hc (by omega)
    rw [search_mono (Nat.le_add_right rounds (c.card + 1)) h] at hstart
    rw [Except.ok.inj hstart, decide_eq_true_iff, ← Finset.nonempty_iff_ne_empty]
    refine exists_congr fun y => ?_
    rw [mem_filter hgoal, hmem]
    refine and_congr_left fun _ => ⟨?_, ?_⟩
    · rintro ⟨_, x, hx, hchain⟩
      exact ⟨x, (hden x).mp hx, hchain⟩
    rintro ⟨x, hx, hchain⟩
    have hxa := (hden x).mpr hx
    obtain ⟨z, hz, hzR, rfl⟩ := chain_iff.mp
      (chain_within (R := (· ∈ M.reach)) hM.closed hchain (haR hxa))
    exact ⟨hzR, x, hxa, hchain⟩

/-- A state with a path through `q` all along: one reached through `q` is a deadlock, or
those reached hold a cycle. -/
theorem Exact.eg_cases (hM : M.Exact step) (ha : a ⊆ M.reach)
    (h : M.reachThrough ids rounds depth a q = .ok c) {x : σ} (hx : x ∈ a)
    (heg : M.HoldsEg step q x) :
    M.dead ∩ c ≠ ∅ ∨ ∃ Z ⊆ c, Z.Nonempty ∧ Supported step Z := by
  classical
  have hmem : ∀ {y}, y ∈ c ↔ M.Holds step q y ∧ ∃ x ∈ a, M.Holds step q x ∧
      Chain step (M.Holds step q) (· = y) x := hM.reachThrough ha h
  have hq : M.Holds step q x := by
    obtain ⟨π, hπ, hall⟩ := heg
    exact hall 0 x hπ.start
  rcases exists_globally_cases heg with hchain | ⟨Z, hxZ, hZq, hnext⟩
  · obtain ⟨y, hchain, hyR, hqy, hstuck⟩ := chain_iff.mp
      (chain_within (R := (· ∈ M.reach)) hM.closed hchain (ha hx))
    have hy : y ∈ M.dead ∩ c := Finset.mem_inter.mpr
      ⟨(hM.dead y).mpr ⟨hyR, hstuck⟩, (hmem).mpr ⟨hqy, x, hx, hq, hchain⟩⟩
    exact .inl (Finset.ne_empty_of_mem hy)
  · refine .inr ⟨c.filter Z, Finset.filter_subset _ _,
      ⟨x, Finset.mem_filter.mpr ⟨hmem.mpr ⟨hq, x, hx, hq, .goal rfl⟩, hxZ⟩⟩, fun z hz => ?_⟩
    obtain ⟨hzc, hzZ⟩ := Finset.mem_filter.mp hz
    obtain ⟨w, hst, hw⟩ := hnext z hzZ
    obtain ⟨hqz, x0, hx0, hqx0, hchain⟩ := hmem.mp hzc
    refine ⟨w, Finset.mem_filter.mpr ⟨hmem.mpr ⟨hZq w hw, x0, hx0, hqx0,
      Chain.trans (hchain.mono (fun _ h => h) ?_)⟩, hw⟩, hst⟩
    rintro v rfl
    exact .cons hqz hst (.goal rfl)

/-- A state reached through `q` with such a path shows one from the start. -/
theorem Exact.eg_of_reached (hM : M.Exact step) (ha : a ⊆ M.reach)
    (h : M.reachThrough ids rounds depth a q = .ok c) {y : σ} (hy : y ∈ c)
    (heg : M.HoldsEg step q y) : ∃ x ∈ a, M.HoldsEg step q x := by
  obtain ⟨-, x, hx, -, hchain⟩ := (hM.reachThrough ha h).mp hy
  refine ⟨x, hx, exists_globally_of_chain (hchain.mono (fun _ h => h) ?_)⟩
  rintro z rfl
  exact heg

theorem Exact.nonempty_fwdg (hM : M.Exact step) {r : SetExpr} (hr : r.Seed) {b : Bool}
    (h : M.nonempty ids rounds depth (.fwdg r q) = .ok b) :
    b = true ↔ ∃ x, (SetExpr.fwdg r q).Den M step x := by
  have h : (do
      let c ← M.reachThrough ids rounds depth (← M.eval ids rounds depth r) q
      if c = ∅ then return false
      else if M.dead ∩ c ≠ ∅ then return true
      else if M.next.isEmpty then return false
      else if ← M.hasCycles rounds then M.hullNonempty rounds false c
      else return false) = Except.ok b := h
  obtain ⟨a, ha, h⟩ := bind_eq_ok.mp h
  obtain ⟨c, hc, h⟩ := bind_eq_ok.mp h
  have haR : a ⊆ M.reach := eval_inside hM.inside ha
  have hcR : c ⊆ M.reach := reachThrough_inside hM.inside hc haR
  have hq : ∀ x ∈ c, M.Holds step q x := fun x hx => ((hM.reachThrough haR hc).mp hx).1
  have hden : (∃ x, (SetExpr.fwdg r q).Den M step x) ↔ ∃ x ∈ a, M.HoldsEg step q x := by
    have hx : (∃ x, r.Den M step x ∧ M.HoldsEg step q x) ↔ ∃ x ∈ a, M.HoldsEg step q x :=
      exists_congr fun x => and_congr_left fun _ => (hM.eval hr ha x).symm
    rw [← hx]
    exact ⟨fun h => h.choose_spec, fun h => ⟨h.choose, h⟩⟩
  rw [hden]
  have hcases : (∃ x ∈ a, M.HoldsEg step q x) →
      M.dead ∩ c ≠ ∅ ∨ ∃ Z ⊆ c, Z.Nonempty ∧ Supported step Z := by
    rintro ⟨x, hx, heg⟩
    exact hM.eg_cases haR hc hx heg
  -- the answer no, where there is no deadlock and no cycle
  have hno : M.dead ∩ c = ∅ → (∀ Z ⊆ c, Z.Nonempty → ¬ Supported step Z) →
      (false = true ↔ ∃ x ∈ a, M.HoldsEg step q x) := by
    intro hdead hcyc
    refine iff_of_false Bool.false_ne_true fun hx => ?_
    rcases hcases hx with hd | ⟨Z, hZ, hne, hsup⟩
    · exact hd hdead
    · exact hcyc Z hZ hne hsup
  split at h
  · next hempty =>
    cases h
    refine hno (by rw [hempty, Finset.inter_empty]) fun Z hZ hne _ => ?_
    exact hne.ne_empty (Finset.subset_empty.mp (hempty ▸ hZ))
  · split at h
    · next hdead =>
      cases h
      obtain ⟨y, hy⟩ := Finset.nonempty_iff_ne_empty.mpr hdead
      obtain ⟨hyd, hyc⟩ := Finset.mem_inter.mp hy
      refine iff_of_true rfl (hM.eg_of_reached haR hc hyc ?_)
      exact exists_globally_of_stuck (hq y hyc) ((hM.dead y).mp hyd).2
    · next hdead =>
      have hdead : M.dead ∩ c = ∅ := not_not.mp hdead
      split at h
      · next hnext =>
        cases h
        refine hno hdead fun Z hZ hne hsup => ?_
        obtain ⟨z, hz⟩ := hne
        obtain ⟨y, -, hst⟩ := hsup z hz
        exact Bool.false_ne_true ((hM.next_isEmpty (hcR (hZ hz)) hst).symm.trans hnext)
      · next hnext =>
        have hnext : M.next.isEmpty = false := Bool.eq_false_iff.mpr hnext
        obtain ⟨cyc, hcyc, h⟩ := bind_eq_ok.mp h
        split at h
        · unfold hullNonempty at h
          split at h
          · next hempty => exact absurd hempty ‹_›
          · obtain ⟨X, hX, h⟩ := bind_eq_ok.mp h
            rw [← Except.ok.inj h, decide_eq_true_iff]
            constructor
            · intro hne
              obtain ⟨hsub, hsup, -⟩ := hM.hull_forward hnext hcR hX
              obtain ⟨Z, ⟨z, hz⟩, hZX, hgo⟩ :=
                exists_forward_closed (Finset.nonempty_iff_ne_empty.mpr hne) hsup
              refine hM.eg_of_reached haR hc (hsub (hZX z hz))
                (exists_globally_iff.mpr ⟨Z, hz, fun w hw => ?_, fun w hw => .inr (hgo w hw)⟩)
              exact hq w (hsub (hZX w hw))
            · intro hx
              obtain ⟨Z, hZ, hne, hsup⟩ := (hcases hx).resolve_left (not_not.mpr hdead)
              exact hM.hull_ne_empty hnext hcR hX hZ hne hsup
        · next hfalse =>
          cases h
          exact hno hdead fun Z hZ hne hsup =>
            hfalse (hM.hasCycles hcyc (hZ.trans hcR) hne hsup)

/-- A leaf that is answered is answered yes exactly when it is inhabited. -/
theorem Exact.nonempty (hM : M.Exact step) {s : SetExpr} (hs : s.Leaf) {b : Bool}
    (h : M.nonempty ids rounds depth s = .ok b) : b = true ↔ ∃ x, s.Den M step x := by
  have hfls : ∀ {r : SetExpr} {f : Formula}, f = .fls →
      (false = true ↔ ∃ x, (SetExpr.filter r f).Den M step x) := by
    rintro r _ rfl
    refine iff_of_false Bool.false_ne_true ?_
    rintro ⟨x, -, hx⟩
    exact not_holds_fls x hx
  have hdone : ∀ {a : Finset σ} {r : SetExpr}, (∀ x, x ∈ a ↔ r.Den M step x) →
      (decide (a ≠ ∅) = true ↔ ∃ x, r.Den M step x) := by
    intro a r hden
    rw [decide_eq_true_iff, ← Finset.nonempty_iff_ne_empty]
    exact exists_congr hden
  have hfilter : ∀ {r : SetExpr} {f : Formula}, (SetExpr.filter r f).Seed →
      (do return decide (M.filter (← M.eval ids rounds depth r) f ≠ ∅) : Except Halt Bool) =
        .ok b → (b = true ↔ ∃ x, (SetExpr.filter r f).Den M step x) := by
    intro r f hr h
    obtain ⟨a, ha, h⟩ := bind_eq_ok.mp h
    rw [← Except.ok.inj h]
    refine hdone fun x => ?_
    rw [mem_filter hr.2, hM.eval hr.1 ha]
    exact Iff.rfl
  unfold Model.nonempty at h
  split at h
  · cases h
    exact hdone (r := .init) fun x => Iff.rfl
  · next r q f =>
    have hs : r.Seed ∧ isState f = true := hs
    split at h
    · next hf =>
      cases h
      exact hfls hf
    · split at h
      · exact hM.existsThrough hs.1 hs.2 h
      · exact hfilter hs h
  · split at h
    · next hf =>
      cases h
      exact hfls hf
    · exact hfilter hs h
  · next r =>
    have hs : r.Seed := hs
    obtain ⟨a, ha, h⟩ := bind_eq_ok.mp h
    rw [← Except.ok.inj h]
    refine hdone fun y => ?_
    rw [hM.mem_next (eval_inside hM.inside ha)]
    exact exists_congr fun x => and_congr_left fun _ => hM.eval hs ha x
  · next r q =>
    have hs : r.Seed := hs
    obtain ⟨a, ha, h⟩ := bind_eq_ok.mp h
    rw [← Except.ok.inj h]
    refine (hdone (hM.eval hs ha)).trans ⟨?_, ?_⟩
    · rintro ⟨x, hx⟩
      exact ⟨x, x, hx, .goal rfl⟩
    · rintro ⟨y, x, hx, -⟩
      exact ⟨x, hx⟩
  · exact hM.nonempty_fwdg hs h
  · next r f =>
    obtain ⟨a, ha, h⟩ := bind_eq_ok.mp h
    rw [← Except.ok.inj h]
    exact hdone (hM.eval (r := .restrict r f) hs ha)

end Model

end LibHSC.Ctl
