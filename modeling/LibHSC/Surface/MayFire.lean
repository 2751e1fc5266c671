import LibHSC.Surface.XplBuild
import LibHSC.Xpl.Engine

/-!
The may-fire sets along a run. A seed pays a full sweep, a firing tests again the events
that read a position it changed; whatever the run, the set is the one a full sweep would
give. A built event tests its whole guard, so that an event outside the set has no
successor.
-/

namespace LibHSC.Xpl

open Lia

/-! ## Written positions -/

/-- The positions a target may write: every cell of an indexed one. -/
def Target.writes (t : Target) : List Nat :=
  match t.index with
  | none => t.cells.head?.toList
  | some _ => t.cells

def Action.writes : Action → List Nat
  | .assign lhs _ => lhs.writes
  | .havoc lhs _ _ => lhs.writes

mutual

/-- The write side of a term's footprint. -/
def Term.writes : Term → List Nat
  | .filter _ => []
  | .update acts => acts.flatMap Action.writes
  | .seq kids => termsWrites kids
  | .alt kids => termsWrites kids
  | .abort => []

def termsWrites : List Term → List Nat
  | [] => []
  | kid :: kids => kid.writes ++ termsWrites kids

end

def Event.writes (evt : Event) : List Nat := sortPositions evt.root.writes

theorem resolve_writes {t : Target} {s : Xpl.Word} {p : Nat} (h : resolve t s = .ok p) :
    p ∈ t.writes := by
  unfold resolve at h
  split at h
  · next hi =>
    rw [Target.writes, hi]
    split at h
    · next q hq =>
      cases h
      rw [hq]
      exact List.mem_singleton_self p
    · cases h
  · next e hi =>
    rw [Target.writes, hi]
    obtain ⟨i, -, h⟩ := bind_eq_ok.mp h
    split at h
    · cases h
    · split at h
      · next q hq =>
        cases h
        exact List.mem_of_getElem? hq
      · cases h

/-- The positions of the writes and of the havocs of a clause. -/
theorem gather_derived {s : Xpl.Word} : ∀ {c : Clause} {writes : List (Nat × Int)}
    {havocs : List Havoc}, gather s c = .ok (writes, havocs) →
    (∀ w ∈ writes, w.1 ∈ c.flatMap Action.writes) ∧
      ∀ h ∈ havocs, h.pos ∈ c.flatMap Action.writes := by
  intro c
  induction c with
  | nil =>
    intro writes havocs h
    cases h
    simp
  | cons a c ih =>
    intro writes havocs h
    rw [List.flatMap_cons]
    cases a with
    | assign lhs rhs =>
      obtain ⟨pos, hpos, h⟩ := bind_eq_ok.mp h
      obtain ⟨v, -, h⟩ := bind_eq_ok.mp h
      obtain ⟨⟨ws, hs⟩, hrest, h⟩ := bind_eq_ok.mp h
      cases h
      obtain ⟨h1, h2⟩ := ih hrest
      refine ⟨List.forall_mem_cons.mpr ⟨?_, fun w hw => ?_⟩, fun w hw => ?_⟩
      · exact List.mem_append_left _ (resolve_writes hpos)
      · exact List.mem_append_right _ (h1 w hw)
      · exact List.mem_append_right _ (h2 w hw)
    | havoc lhs lo hi =>
      obtain ⟨pos, hpos, h⟩ := bind_eq_ok.mp h
      obtain ⟨⟨ws, hs⟩, hrest, h⟩ := bind_eq_ok.mp h
      cases h
      obtain ⟨h1, h2⟩ := ih hrest
      refine ⟨fun w hw => ?_, List.forall_mem_cons.mpr ⟨?_, fun w hw => ?_⟩⟩
      · exact List.mem_append_right _ (h1 w hw)
      · exact List.mem_append_left _ (resolve_writes hpos)
      · exact List.mem_append_right _ (h2 w hw)

section Touched

variable {ps : List Nat}

/-- Only positions of `ps` are touched. -/
def Branch.Inside (ps : List Nat) (b : Branch) : Prop := ∀ p ∈ b.touched, p ∈ ps

theorem Branch.Inside.write {b : Branch} (h : b.Inside ps) {pos : Nat} (hpos : pos ∈ ps)
    (v : Int) : (b.write pos v).Inside ps := by
  intro p hp
  rcases List.mem_append.mp hp with hp | hp
  · exact h p hp
  · rwa [List.mem_singleton.mp hp]

theorem writes_inside {writes : List (Nat × Int)} : ∀ {b : Branch}, b.Inside ps →
    (∀ w ∈ writes, w.1 ∈ ps) → (writes.foldl (fun b w => b.write w.1 w.2) b).Inside ps := by
  induction writes with
  | nil => exact fun h _ => h
  | cons w writes ih =>
    intro b hb hw
    obtain ⟨hw, hws⟩ := List.forall_mem_cons.mp hw
    exact ih (hb.write hw w.2) hws

theorem forks_inside {havocs : List Havoc} : ∀ {forks : List Branch},
    (∀ b ∈ forks, b.Inside ps) → (∀ h ∈ havocs, h.pos ∈ ps) →
    ∀ b ∈ havocs.foldl (fun forks h => fork h forks) forks, b.Inside ps := by
  induction havocs with
  | nil => exact fun h _ => h
  | cons h havocs ih =>
    intro forks hforks hpos
    obtain ⟨hpos, hrest⟩ := List.forall_mem_cons.mp hpos
    refine ih (fun b hb => ?_) hrest
    obtain ⟨f, hf, hb⟩ := List.mem_flatMap.mp hb
    obtain ⟨v, -, rfl⟩ := List.mem_map.mp hb
    exact (hforks f hf).write hpos v

theorem updateAll_inside {c : Clause} (hc : ∀ p ∈ c.flatMap Action.writes, p ∈ ps) :
    ∀ {bs bs' : List Branch}, (∀ b ∈ bs, b.Inside ps) → updateAll c bs = .ok bs' →
    ∀ b ∈ bs', b.Inside ps := by
  intro bs
  induction bs with
  | nil =>
    intro bs' _ h
    cases h
    simp
  | cons b bs ih =>
    intro bs' hbs h
    obtain ⟨hb, hbs⟩ := List.forall_mem_cons.mp hbs
    obtain ⟨next, hnext, h⟩ := bind_eq_ok.mp h
    obtain ⟨rest, hrest, h⟩ := bind_eq_ok.mp h
    cases h
    obtain ⟨⟨writes, havocs⟩, hgather, hnext⟩ := bind_eq_ok.mp hnext
    obtain ⟨h1, h2⟩ := gather_derived hgather
    dsimp only at hnext
    split at hnext
    · cases hnext
      refine List.forall_mem_append.mpr ⟨forks_inside (fun b' hb' => ?_)
        fun h hh => hc _ (h2 h hh), ih hbs hrest⟩
      rw [List.mem_singleton.mp hb']
      exact writes_inside hb fun w hw => hc _ (h1 w hw)
    · cases hnext

theorem keepDecided_subset {g : BExpr} : ∀ {bs bs' : List Branch}, keepDecided g bs = .ok bs' →
    ∀ b ∈ bs', b ∈ bs := by
  intro bs
  induction bs with
  | nil =>
    intro bs' h
    cases h
    simp
  | cons b bs ih =>
    intro bs' h
    obtain ⟨kept, -, h⟩ := bind_eq_ok.mp h
    obtain ⟨rest, hrest, h⟩ := bind_eq_ok.mp h
    have hr := ih hrest
    cases h
    cases kept with
    | true =>
      exact List.forall_mem_cons.mpr ⟨List.mem_cons_self .., fun b hb =>
        List.mem_cons_of_mem _ (hr b hb)⟩
    | false => exact fun b hb => List.mem_cons_of_mem _ (hr b hb)

mutual

theorem interp_inside : (t : Term) → (∀ p ∈ t.writes, p ∈ ps) → ∀ {bs bs' : List Branch},
    (∀ b ∈ bs, b.Inside ps) → interp t bs = .ok bs' → ∀ b ∈ bs', b.Inside ps
  | .filter _, _, _, _, hbs, h => fun b hb => hbs b (keepDecided_subset h b hb)
  | .update _, hw, _, _, hbs, h => updateAll_inside hw hbs h
  | .seq kids, hw, _, _, hbs, h => interpSeq_inside kids hw hbs h
  | .alt kids, hw, _, _, hbs, h => interpAlt_inside kids hw hbs h
  | .abort, _, _, _, _, h => by
    cases h
    simp

theorem interpSeq_inside : (kids : List Term) → (∀ p ∈ termsWrites kids, p ∈ ps) →
    ∀ {bs bs' : List Branch}, (∀ b ∈ bs, b.Inside ps) → interpSeq kids bs = .ok bs' →
    ∀ b ∈ bs', b.Inside ps
  | [], _, _, _, hbs, h => by
    cases h
    exact hbs
  | kid :: kids, hw, _, _, hbs, h => by
    obtain ⟨hkid, hkids⟩ := List.forall_mem_append.mp hw
    obtain ⟨mid, hmid, h⟩ := bind_eq_ok.mp h
    split at h
    · cases h
      simp
    · exact interpSeq_inside kids hkids (interp_inside kid hkid hbs hmid) h

theorem interpAlt_inside : (kids : List Term) → (∀ p ∈ termsWrites kids, p ∈ ps) →
    ∀ {bs bs' : List Branch}, (∀ b ∈ bs, b.Inside ps) → interpAlt kids bs = .ok bs' →
    ∀ b ∈ bs', b.Inside ps
  | [], _, _, _, _, h => by
    cases h
    simp
  | kid :: kids, hw, _, _, hbs, h => by
    obtain ⟨hkid, hkids⟩ := List.forall_mem_append.mp hw
    obtain ⟨copy, hcopy, h⟩ := bind_eq_ok.mp h
    obtain ⟨rest, hrest, h⟩ := bind_eq_ok.mp h
    cases h
    exact List.forall_mem_append.mpr
      ⟨interp_inside kid hkid hbs hcopy, interpAlt_inside kids hkids hbs hrest⟩

end

end Touched

/-- A firing changes written positions only. -/
theorem fire_writes {m : Model} {e : Nat} {evt : Event} {s : Xpl.Word} {succs : List Successor}
    (hevt : m.events[e]? = some evt) (h : fire m e s = .ok succs) {sc : Successor}
    (hsc : sc ∈ succs) : ∀ p ∈ sc.changed, p ∈ evt.writes := by
  unfold fire at h
  rw [hevt] at h
  dsimp only at h
  split at h
  · next bs hbs =>
    cases h
    obtain ⟨b, hb, rfl⟩ := List.mem_map.mp hsc
    have hstart : ∀ b ∈ [Branch.mk s []], b.Inside evt.root.writes := by
      intro b hb
      rw [List.mem_singleton.mp hb]
      exact fun p hp => nomatch hp
    intro p hp
    have htouched := mem_sortPositions.mp (List.mem_filter.mp hp).1
    exact mem_sortPositions.mpr (interp_inside _ (fun _ h => h) hstart hbs b hb p htouched)
  · cases h

/-! ## Runs -/

/-- The state reached by a run of firings and the set carried beside it: swept for the
first state, derived at every firing. No test and no firing on the way fails. -/
inductive Derived (m : Model) : Xpl.Word → List Nat → Prop where
  | seed {s : Xpl.Word} {en : List Nat} (h : fullSweep m s = .ok en) : Derived m s en
  | fired {s : Xpl.Word} {en en' : List Nat} {e : Nat} {succs : List Successor} {sc : Successor}
      (h : Derived m s en) (hfire : fire m e s = .ok succs) (hsc : sc ∈ succs)
      (hderive : derive m en sc.changed sc.s = .ok en') : Derived m sc.s en'

/-- The derived set is the swept one. -/
theorem Derived.mayFire {m : Model} {s : Xpl.Word} {en : List Nat} (h : Derived m s en) :
    MayFire m s en := by
  induction h with
  | seed h => exact fullSweep_mayFire h
  | fired _ hfire hsc hderive ih =>
    obtain ⟨hlen, hsame⟩ := fire_changed hfire hsc
    exact derive_mayFire ih hlen hsame hderive

theorem fired_mem {m : Model} (hq : m.QuickNecessary) {s : Xpl.Word} {en : List Nat}
    (hen : MayFire m s en) {e : Nat} {succs : List Successor} (hfire : fire m e s = .ok succs)
    (hne : succs ≠ []) : e ∈ en := by
  have hlt : e < m.events.length := by
    unfold fire at hfire
    split at hfire
    · cases hfire
    · next evt hevt => exact (List.getElem?_eq_some_iff.mp hevt).1
  obtain ⟨b, hb⟩ := hen.decided e hlt
  cases b with
  | true => exact (hen.mem e).mpr hb
  | false =>
    rw [hq e s hb] at hfire
    cases hfire
    exact absurd rfl hne

end LibHSC.Xpl

namespace LibHSC.Surface

open Lia Xpl

/-! ## Built events -/

theorem rootOf_hoisted (name : String) (line : Int) (guard : BExpr) (kids : List Xpl.Term) :
    Xpl.Event.Hoisted ⟨name, line, rootOf guard kids, guard⟩ := by
  by_cases hg : guard = .btrue
  · exact .inl hg
  · refine .inr ?_
    simp only [rootOf, if_neg hg]
    cases kids with
    | nil => exact .inl rfl
    | cons kid kids => exact .inr ⟨kid :: kids, rfl⟩

theorem buildXplModel_necessary {R : ExprIds} {sc : Scope} {arity : Nat} {sources : List Source}
    {m : Xpl.Model} (h : buildXplModel R sc arity sources = .ok m) : m.QuickNecessary := by
  obtain ⟨events, hevents, h⟩ := bind_eq_ok.mp h
  cases h
  refine hoisted_necessary fun evt hevt => ?_
  obtain ⟨src, -, hsrc⟩ := forall₂_mem_right (mapM_eq_ok hevents) hevt
  obtain ⟨⟨guard, kids⟩, -, hsrc⟩ := bind_eq_ok.mp hsrc
  cases hsrc
  exact rootOf_hoisted src.name src.line guard kids

/-- Along every run the derived set is the set of the events whose test holds, and a firing
changes positions its event writes. In a built model every event with a successor is in the
set, so that the events outside lose none. -/
theorem mayFire_exact :
    (∀ (m : Xpl.Model) (s : Xpl.Word) (en : List Nat), Derived m s en →
      (∀ e, e ∈ en ↔ quickEnabled m e s = .ok true) ∧
      ∀ e evt succs sc, m.events[e]? = some evt → fire m e s = .ok succs → sc ∈ succs →
        ∀ p ∈ sc.changed, p ∈ evt.writes) ∧
    ∀ (R : ExprIds) (scope : Scope) (arity : Nat) (sources : List Source) (m : Xpl.Model),
      buildXplModel R scope arity sources = .ok m → ∀ s en, Derived m s en →
        (∀ e succs, fire m e s = .ok succs → succs ≠ [] → e ∈ en) ∧
        ∀ t, m.Next s t → ∃ e ∈ en, ∃ succs, fire m e s = .ok succs ∧ ∃ sc ∈ succs, sc.s = t := by
  refine ⟨fun m s en h => ⟨h.mayFire.mem, ?_⟩, ?_⟩
  · intro e evt succs sc hevt hfire hsc
    exact fire_writes hevt hfire hsc
  · intro R scope arity sources m hm s en h
    have hq := buildXplModel_necessary hm
    exact ⟨fun e succs => fired_mem hq h.mayFire, fun t => next_of_mayFire hq h.mayFire⟩

/-- An event that tests `x` and moves it by one. -/
def moveSource (name op bound action : String) : Source := ⟨name, 1,
  [.list [.atom "when" 1, .list [.atom op 1, .atom "x" 1, .atom bound 1] 1] 1,
    .list [.atom "do" 1, .list [.atom action 1, .atom "x" 1, .atom "1" 1] 1] 1]⟩

/-- A leaf that goes up to 2 and down to 0. -/
def upDown : Xpl.Model where
  arity := 1
  events := [⟨"up", 1, .seq [.filter (.cmp .lt (.var 0) (.const 2)),
      .update [.assign ⟨[0], none⟩ (.nary .plus [.var 0, .const 1])]],
      .cmp .lt (.var 0) (.const 2)⟩,
    ⟨"down", 1, .seq [.filter (.cmp .gt (.var 0) (.const 0)),
      .update [.assign ⟨[0], none⟩ (.binary .minus (.var 0) (.const 1))]],
      .cmp .gt (.var 0) (.const 0)⟩]

/-- Two firings up: the first adds the event down to the set, the second takes the event up out
of it. -/
theorem mayFire_exact_upDown :
    Derived upDown [2] [1] ∧ (∀ e, e ∈ [1] ↔ quickEnabled upDown e [2] = .ok true) ∧
      (∀ e succs, fire upDown e [2] = .ok succs → succs ≠ [] → e ∈ [1]) ∧
      ∀ t, upDown.Next [2] t → ∃ e ∈ [1], ∃ succs, fire upDown e [2] = .ok succs ∧
        ∃ sc ∈ succs, sc.s = t := by
  have hbuilt : buildXplModel ⟨fun _ => 0, fun _ => 0⟩
      ⟨fun name => if name = "x" then some 0 else none, fun _ => none⟩ 1
      [moveSource "up" "<" "2" "+=", moveSource "down" ">" "0" "-="] = .ok upDown := by
    with_unfolding_all rfl
  have hstart : Derived upDown [0] [0] := .seed rfl
  have hfirst : fire upDown 0 [0] = .ok [⟨[1], [0]⟩] := rfl
  have hadded : derive upDown [0] [0] [1] = .ok [0, 1] := by with_unfolding_all rfl
  have hnext : Derived upDown [1] [0, 1] :=
    hstart.fired hfirst (List.mem_singleton_self _) hadded
  have hsecond : fire upDown 0 [1] = .ok [⟨[2], [0]⟩] := rfl
  have hdropped : derive upDown [0, 1] [0] [2] = .ok [1] := by with_unfolding_all rfl
  have hlast : Derived upDown [2] [1] := hnext.fired hsecond (List.mem_singleton_self _) hdropped
  exact ⟨hlast, (mayFire_exact.1 _ _ _ hlast).1, mayFire_exact.2 _ _ _ _ _ hbuilt _ _ hlast⟩

end LibHSC.Surface
