import LibHSC.Xpl.DomainsWalk
import LibHSC.Xpl.Engine

/-!
The domain inference ends, and along every clean run it is sound.
-/

namespace LibHSC.Xpl

open Lia

/-! ## The inference -/

theorem seedDoms_has {root : Roots} {s : Word} {p : Nat} {v : Int} (hv : s[p]? = some v) :
    ∀ {seeds : List Word}, s ∈ seeds → (seedDoms root seeds (root p)).Has v := by
  have hrow : ∀ (s : Word) (ps : List Nat) (doms : Nat → Dom), DomsLe doms (ps.foldl (fun doms p =>
        Function.update doms (root p) ((doms (root p)).addValue (s.getD p 0)).1) doms) := by
    intro s ps
    induction ps with
    | nil => exact fun doms p v h => h
    | cons x ps ih =>
      intro doms p v h
      exact ih _ p v (domsLe_update (fun u hu => Dom.has_addValue (.inl hu)) p v h)
  have hrows : ∀ (ss : List Word) (doms : Nat → Dom),
      DomsLe doms (ss.foldl (fun doms s => (List.range s.length).foldl (fun doms p =>
        Function.update doms (root p) ((doms (root p)).addValue (s.getD p 0)).1) doms) doms) := by
    intro ss
    induction ss with
    | nil => exact fun doms p v h => h
    | cons x ss ih => exact fun doms p v h => ih _ p v (hrow x _ doms p v h)
  have hcell : ∀ (ps : List Nat) (doms : Nat → Dom), p ∈ ps → ((ps.foldl (fun doms p =>
        Function.update doms (root p) ((doms (root p)).addValue (s.getD p 0)).1) doms)
          (root p)).Has v := by
    intro ps
    induction ps with
    | nil => exact fun doms h => absurd h (by simp)
    | cons x ps ih =>
      intro doms h
      rcases List.mem_cons.mp h with rfl | h
      · refine hrow s ps _ _ v ?_
        dsimp only
        rw [Function.update_self, List.getD_eq_getElem?_getD, hv]
        exact Dom.has_addValue (.inr rfl)
      · exact ih _ h
  have hfold : ∀ (ss : List Word) (doms : Nat → Dom), s ∈ ss →
      ((ss.foldl (fun doms s => (List.range s.length).foldl (fun doms p =>
        Function.update doms (root p) ((doms (root p)).addValue (s.getD p 0)).1) doms) doms)
          (root p)).Has v := by
    intro ss
    induction ss with
    | nil => exact fun doms h => absurd h (by simp)
    | cons x ss ih =>
      intro doms h
      rcases List.mem_cons.mp h with rfl | h
      · refine hrows ss _ _ v (hcell _ _ ?_)
        exact List.mem_range.mpr (List.getElem?_eq_some_iff.mp hv).1
      · exact ih _ h
  exact fun {seeds} hs => hfold seeds _ hs

section Infer

variable {root : Roots} {win : Constraints}

/-- Every event has been walked, from a stage the later ones keep. -/
theorem classified_spec (root : Roots) (win : Constraints) (events : List Event) :
    ∀ (i : Inference),
    i.Le (events.foldl (fun i evt => (walk root win evt.root (fun _ => none) i).2.2) i) ∧
    ∀ evt ∈ events, ∃ j, (walk root win evt.root (fun _ => none) j).2.2.Le
      (events.foldl (fun i evt => (walk root win evt.root (fun _ => none) i).2.2) i) := by
  induction events with
  | nil => exact fun i => ⟨Inference.Le.refl i, fun evt h => absurd h (by simp)⟩
  | cons x events ih =>
    intro i
    obtain ⟨h1, h2⟩ := ih (walk root win x.root (fun _ => none) i).2.2
    refine ⟨(walk_le x.root).trans h1, fun evt h => ?_⟩
    rcases List.mem_cons.mp h with rfl | h
    · exact ⟨i, h1⟩
    · exact h2 evt h

/-- Every state of a clean run is inside the domains that cover the walk. -/
theorem cleanReach_held {m : Model} {seeds : List Word} {groups : List (List Nat)}
    {D : Nat → Dom} (hroot : root = m.units groups)
    (hc : Covers win D (m.classified root win seeds)) {s : Word}
    (hs : CleanReach root win m seeds s) : Held root D s ∧ InWindow root win s := by
  obtain ⟨hle, hwalk⟩ := classified_spec root win m.events
    ⟨seedDoms root seeds, fun _ => false, fun _ => false, []⟩
  induction hs with
  | start hmem hwin =>
    exact ⟨fun p v hv => hc.doms _ v (hle.doms _ v (seedDoms_has hv hmem)), hwin⟩
  | @step s evt bs b _ hevt hclean hinterp hb ih =>
    obtain ⟨j, hj⟩ := hwalk evt hevt
    have hu := m.units_spec groups hevt
    rw [← hroot] at hu
    have hkept : ∀ b ∈ [Branch.mk s []], Kept root win D (fun _ => none) b.s := by
      intro b hb
      rw [List.mem_singleton.mp hb]
      exact ⟨ih.1, ih.2, fun p lo hi h => by cases h⟩
    obtain ⟨-, -, hk, -⟩ := walk_sound _ (hc.of_le hj) hu hclean hinterp hkept _ hb
    exact ⟨hk.held, hk.window⟩

theorem finalClip_has {D : Nat → Dom} {r : Nat} {v : Int} (hv : (D r).Has v)
    (hm : kMin ≤ v ∧ v ≤ kMax) (hwin : ∀ lo hi, win r = some (lo, hi) → lo ≤ v ∧ v ≤ hi) :
    (finalClip win D r).Has v := by
  unfold finalClip
  split
  · exact hv
  · next lo hi heq htop => exact hwin lo hi heq
  · next heq =>
    rw [heq] at hv
    exact hv.elim
  · next lo hi heq _ _ =>
    obtain ⟨h1, h2⟩ := hwin lo hi heq
    have h := has_restrictShift (o := 0) hv h1 h2 (by omega) (by omega)
    rwa [Int.add_zero] at h

theorem fixpoint_mono {edges : List Edge} {out : Nat → Dom} : ∀ {fuel : Nat} {doms : Nat → Dom},
    fixpoint win edges fuel doms = some out → ∀ {fuel' : Nat}, fuel ≤ fuel' →
    fixpoint win edges fuel' doms = some out := by
  intro fuel
  induction fuel with
  | zero =>
    intro doms h
    cases h
  | succ fuel ih =>
    intro doms h fuel' hle
    obtain ⟨k, rfl⟩ : ∃ k, fuel' = k + 1 := ⟨fuel' - 1, by omega⟩
    rw [fixpoint] at h ⊢
    cases hsweep : edges.foldl (sweepEdge win) (doms, false) with
    | mk doms' changed =>
      rw [hsweep] at h
      cases changed with
      | false => exact h
      | true => exact ih h (by omega)

end Infer

/-- The inference ends; along every clean run, every value a position takes is in the domain
reported for it. -/
theorem inferDomains_sound (m : Model) (seeds : List Word) (groups : List (List Nat))
    (declared : List (Option (Int × Int))) :
    ∃ reports fuel, (∀ fuel' ≥ fuel, inferDomains fuel' m seeds groups declared = some reports) ∧
      (∀ p < m.arity, ∃ rep ∈ reports, p ∈ rep.positions) ∧
      ∀ s, CleanReach (m.units groups) (declWin declared m.arity (m.units groups)) m seeds s →
        ∀ rep ∈ reports, ∀ p ∈ rep.positions, ∀ v, s[p]? = some v → rep.dom.Has v := by
  let root := m.units groups
  let win := declWin declared m.arity root
  let i := m.classified root win seeds
  let x := eraseLoop win i.edges i.edges [] i.doms
  obtain ⟨D, hD⟩ := exists_fixpoint win x.1 (changesLeft x.1 x.2 + 1) x.2 (Nat.lt_succ_self _)
  obtain ⟨hle, hclosed⟩ := fixpoint_spec hD
  obtain ⟨hle', herase⟩ := eraseLoop_spec win i.edges i.edges [] i.doms
  have hcovers : Covers win D i := by
    refine ⟨fun p v hv => hle p v (hle' p v hv), fun e he => ?_⟩
    rcases herase e (.inr he) with hmem | htop
    · exact hclosed e hmem
    · exact fun v _ _ _ _ _ _ => hle _ _ (htop _)
  let reports := ((List.range m.arity).filter fun r => (List.range m.arity).any fun p =>
    decide (root p = r)).map (reportOf root m.arity i (finalClip win D))
  refine ⟨reports, changesLeft x.1 x.2 + 1, fun fuel' hfuel => ?_, fun p hp => ?_,
    fun s hs rep hrep p hp v hv => ?_⟩
  · show (fixpoint win x.1 fuel' x.2).map _ = _
    rw [fixpoint_mono hD hfuel]
    rfl
  · refine ⟨reportOf root m.arity i (finalClip win D) (root p), List.mem_map.mpr
      ⟨root p, List.mem_filter.mpr ⟨List.mem_range.mpr ?_, ?_⟩, rfl⟩, ?_⟩
    · exact Nat.lt_of_le_of_lt (m.units_le groups p) hp
    · exact List.any_eq_true.mpr ⟨p, List.mem_range.mpr hp, decide_eq_true rfl⟩
    · exact List.mem_filter.mpr ⟨List.mem_range.mpr hp, decide_eq_true rfl⟩
  · obtain ⟨hheld, hwin⟩ := cleanReach_held rfl hcovers hs
    obtain ⟨r, -, rfl⟩ := List.mem_map.mp hrep
    have hr : root p = r := of_decide_eq_true (List.mem_filter.mp hp).2
    obtain ⟨hm, hw⟩ := hwin p v hv
    have hhas : (finalClip win D r).Has v := finalClip_has (hr ▸ hheld p v hv) hm (hr ▸ hw)
    unfold reportOf
    dsimp only
    split
    · trivial
    · exact hhas

/-- A leaf declared `[0, 3)` that a guarded event counts up, and an undeclared one that copies
it. -/
def follower : Model := ⟨2, [⟨"up", 3, .seq [.filter (.cmp .lt (.var 0) (.const 2)),
    .update [.assign ⟨[0], none⟩ (.nary .plus [.var 0, .const 1])]],
    .cmp .lt (.var 0) (.const 2)⟩,
  ⟨"copy", 4, .update [.assign ⟨[1], none⟩ (.var 0)], .btrue⟩]⟩

theorem follower_inWindow {x y : Int} (h0 : 0 ≤ x) (h2 : x ≤ 2) (hy : InInt32 y) :
    InWindow (follower.units []) (declWin [some (0, 3), none] 2 (follower.units [])) [x, y] := by
  have hfirst : declWin [some (0, 3), none] 2 (follower.units []) (follower.units [] 0) =
      some (0, 2) := by
    decide +kernel
  have hsecond : declWin [some (0, 3), none] 2 (follower.units []) (follower.units [] 1) =
      none := by
    decide +kernel
  intro p v hv
  rcases p with _ | _ | p
  · obtain rfl := Option.some.inj hv
    refine ⟨by unfold kMin kMax; omega, fun lo hi h => ?_⟩
    rw [hfirst] at h
    cases h
    exact ⟨h0, h2⟩
  · obtain rfl := Option.some.inj hv
    unfold InInt32 at hy
    refine ⟨by unfold kMin kMax; omega, fun lo hi h => ?_⟩
    rw [hsecond] at h
    cases h
  · cases hv

/-- Two steps up and a copy: the value copied is in the domain of the undeclared leaf. -/
theorem inferDomains_sound_follower : ∃ reports fuel,
    inferDomains fuel follower [[0, 0]] [] [some (0, 3), none] = some reports ∧
      ∃ rep ∈ reports, 1 ∈ rep.positions ∧ rep.dom.Has 2 := by
  obtain ⟨reports, fuel, hfuel, hall, hsound⟩ :=
    inferDomains_sound follower [[0, 0]] [] [some (0, 3), none]
  let reach := CleanReach (follower.units [])
    (declWin [some (0, 3), none] 2 (follower.units [])) follower [[0, 0]]
  have hup : ∀ x : Int, x = 0 ∨ x = 1 → reach [x, 0] → reach [x + 1, 0] := by
    intro x hx h
    have hrun : interp follower.events[0].root [⟨[x, 0], []⟩] = .ok [⟨[x + 1, 0], [0]⟩] := by
      rcases hx with rfl | rfl <;> rfl
    refine .step h List.mem_cons_self ⟨?_, fun out hout => ⟨?_, fun _ _ => trivial⟩⟩ hrun
      (List.mem_singleton.mpr rfl)
    · intro b _ _ c hc _ p v _
      obtain rfl := List.mem_singleton.mp hc
      have hconst : readAsZero (.const 2) = false := by decide
      exact ⟨fun _ hz => absurd (hconst.symm.trans hz) Bool.false_ne_true, fun h => by cases h⟩
    · have hkept : interp (.filter (.cmp .lt (.var 0) (.const 2))) [⟨[x, 0], []⟩] =
          .ok [⟨[x, 0], []⟩] := by
        rcases hx with rfl | rfl <;> rfl
      obtain rfl := Except.ok.inj (hkept.symm.trans hout)
      intro b hb
      obtain rfl := List.mem_singleton.mp hb
      refine ⟨fun a ha => ?_, fun out hout b' hb' => ?_⟩
      · obtain rfl := List.mem_singleton.mp ha
        exact nofun
      · have hout' : applyUpdate [.assign ⟨[0], none⟩ (.nary .plus [.var 0, .const 1])]
            ⟨[x, 0], []⟩ = .ok [⟨[x + 1, 0], [0]⟩] := by
          rcases hx with rfl | rfl <;> rfl
        obtain rfl := Except.ok.inj (hout'.symm.trans hout)
        obtain rfl := List.mem_singleton.mp hb'
        exact follower_inWindow (by omega) (by omega) (by decide)
  have hstart : reach [0, 0] :=
    .start (List.mem_singleton.mpr rfl) (follower_inWindow (by omega) (by omega) (by decide))
  have htop : reach [2, 0] := hup 1 (.inr rfl) (hup 0 (.inl rfl) hstart)
  have hcopy : applyUpdate [.assign ⟨[1], none⟩ (.var 0)] ⟨[2, 0], []⟩ = .ok [⟨[2, 2], [1]⟩] := rfl
  have hrun : interp follower.events[1].root [⟨[2, 0], []⟩] = .ok [⟨[2, 2], [1]⟩] := rfl
  have hreach : reach [2, 2] := by
    refine .step htop (List.mem_cons_of_mem _ List.mem_cons_self) (fun b hb => ?_) hrun
      (List.mem_singleton.mpr rfl)
    obtain rfl := List.mem_singleton.mp hb
    refine ⟨fun a ha => ?_, fun out hout b' hb' => ?_⟩
    · obtain rfl := List.mem_singleton.mp ha
      exact nofun
    · obtain rfl := Except.ok.inj (hcopy.symm.trans hout)
      obtain rfl := List.mem_singleton.mp hb'
      exact follower_inWindow (by omega) (by omega) (by decide)
  obtain ⟨rep, hrep, hp⟩ := hall 1 (by decide)
  exact ⟨reports, fuel, hfuel fuel le_rfl, rep, hrep, hp, hsound [2, 2] hreach rep hrep 1 hp 2 rfl⟩

/-- One leaf declared `[0, 2)` that an unguarded event counts up. -/
def climber : Model :=
  ⟨1, [⟨"step", 2, .update [.assign ⟨[0], none⟩ (.nary .plus [.var 0, .const 1])], .btrue⟩]⟩

instance (d : Dom) (v : Int) : Decidable (d.Has v) :=
  match d with
  | .bot => .isFalse fun h => h
  | .set vals => inferInstanceAs (Decidable (v ∈ vals.list))
  | .interval lo hi => inferInstanceAs (Decidable (lo ≤ v ∧ v ≤ hi))
  | .top => .isTrue trivial

theorem inferDomains_misses_climber :
    ¬ ∀ fuel reports, inferDomains fuel climber [[0]] [] [some (0, 2)] = some reports →
      ∀ s, climber.Reach [[0]] s → ∀ rep ∈ reports, ∀ p ∈ rep.positions, ∀ v,
        s[p]? = some v → rep.dom.Has v := by
  intro h
  have hnext : ∀ k : Int, 0 ≤ k → k ≤ 1 → climber.Next [k] [k + 1] := by
    intro k h1 h2
    obtain rfl | rfl : k = 0 ∨ k = 1 := by omega
    · exact ⟨0, [⟨[1], [0]⟩], ⟨[1], [0]⟩, by rfl, by simp, rfl⟩
    · exact ⟨0, [⟨[2], [0]⟩], ⟨[2], [0]⟩, by rfl, by simp, rfl⟩
  have hreach : climber.Reach [[0]] [2] :=
    ⟨2, .step (.step (.start (by simp)) (hnext 0 (by omega) (by omega)))
      (hnext 1 (by omega) (by omega))⟩
  have hmiss : (inferDomains 5 climber [[0]] [] [some (0, 2)]).map (fun reports =>
      reports.map fun rep => (decide (0 ∈ rep.positions), decide (rep.dom.Has 2))) =
      some [(true, false)] := by
    decide +kernel
  obtain ⟨reports, hrun, hmap⟩ := Option.map_eq_some_iff.mp hmiss
  obtain ⟨rep, rest, rfl, hrep, -⟩ := List.map_eq_cons_iff.mp hmap
  obtain ⟨hp, hv⟩ := Prod.mk.inj hrep
  have hhas := h 5 _ hrun [2] hreach rep List.mem_cons_self 0 (of_decide_eq_true hp) 2 rfl
  exact of_decide_eq_false hv hhas

end LibHSC.Xpl
