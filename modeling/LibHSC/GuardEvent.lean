import LibHSC.LocalTerms
import LibHSC.Select
import LibHSC.SplitExact

/-!
Terms that only test: applied to a diagram they return its words that satisfy a
predicate. The identity, the zero term, nodes and products of tests are tests, and
so is the event of a guard over one position or over two, at whatever cut the two
part.
-/

namespace LibHSC

open Lia Grouping

/-- The term returns on every diagram, and keeps the words that satisfy `P`. -/
structure Tests (m : Manager) (s : Shape) (t : Term s) (P : Word s → Prop) : Prop where
  wf : m.WF s t
  keeps : ∀ d, m.Canon s d → Keeps (den s) (m.Canon s) P d (m.apply s t d)

namespace Tests

variable {m : Manager}

theorem congr {s : Shape} {t : Term s} {P Q : Word s → Prop} (h : Tests m s t P)
    (hPQ : ∀ w, P w ↔ Q w) : Tests m s t Q :=
  ⟨h.wf, fun d hd => (h.keeps d hd).congr fun w _ => hPQ w⟩

theorem id (s : Shape) : Tests m s (Term.id s) fun _ => True := by
  refine ⟨(denotes_id s).wf, fun d hd => ?_⟩
  show Keeps _ _ _ d ((m.terms s).apply (Term.id s) d)
  rw [m.apply_id]
  exact Keeps.all hd fun _ _ => trivial

/-- A guard over one coordinate that evaluates on every machine value. -/
theorem leaf {g : BExpr} (hg : ∀ v, InInt32 v → ∃ t, evalBool [v] g = .ok t) :
    Tests m .leaf (IntTerm.keepIf g) (IntTerm.Satisfies g) := by
  refine ⟨IntTerm.keepIf_wf g, fun (d : IntSet) hd => ?_⟩
  have hc : IntSet.Canon d := hd
  obtain ⟨r, hr⟩ : ∃ r, IntTerm.apply m.fuel (IntTerm.keepIf g) d = .ok r := by
    unfold IntTerm.keepIf
    split
    · exact ⟨d, rfl⟩
    · show ∃ r, (if d = [] then _ else _) = Except.ok r
      split
      · exact ⟨[], rfl⟩
      · obtain ⟨kept, hk⟩ := filter_returns fun v hv => hg v (hc.2 v hv)
        by_cases h0 : kept = []
        · exact ⟨[], bind_of_ok hk (if_pos h0)⟩
        · exact ⟨kept, bind_of_ok hk (if_neg h0)⟩
  refine ⟨r, hr, (m.termLaws .leaf).canon_apply (IntTerm.keepIf_wf g) hd hr, fun v => ?_⟩
  have hden := (m.termLaws .leaf).den_apply (IntTerm.keepIf_wf g) trivial hd hr
  rw [hden, mem_post]
  constructor
  · rintro ⟨u, hu, hrel⟩
    obtain ⟨hs, rfl⟩ := IntTerm.keepIf_rel.mp hrel
    exact ⟨hu, hs⟩
  · rintro ⟨hv, hs⟩
    exact ⟨v, hv, IntTerm.keepIf_rel.mpr ⟨hs, rfl⟩⟩

theorem node {h t : Shape} {a : Term h} {b : Term t} {P : Word h → Prop} {Q : Word t → Prop}
    (ha : Tests m h a P) (hb : Tests m t b Q) :
    Tests m (.pair h t) (Term.node a b) fun w => P w.1 ∧ Q w.2 := by
  refine ⟨node_wf ha.wf hb.wf, fun d hd => ?_⟩
  have hret : (m.terms (.pair h t)).Returns (Term.node a b) d := by
    refine (node_returns ha.wf hb.wf hd).mpr fun x hx => ⟨?_, fun _ => ?_⟩
    · obtain ⟨r, hr, -⟩ := ha.keeps x.prime (hd.canon x hx).1
      exact ⟨r, hr⟩
    · obtain ⟨r, hr, -⟩ := hb.keeps x.sub (hd.canon x hx).2
      exact ⟨r, hr⟩
  have hout := node_out ha.wf hb.wf hd hret
  obtain ⟨r, hr⟩ := hret
  rw [TermAlgebra.out_eq _ hr] at hout
  refine ⟨r, hr, (m.termLaws _).canon_apply (node_wf ha.wf hb.wf) hd hr, fun w => ?_⟩
  have hmem : w ∈ den (.pair h t) d ↔
      ∃ x ∈ arcs d, w.1 ∈ den h x.prime ∧ w.2 ∈ den t x.sub := mem_nodeDen (den h) (den t)
  rw [hout, hmem]
  constructor
  · rintro ⟨x, hx, ⟨p, hp, hp1⟩, q, hq, hq2⟩
    obtain ⟨r1, hr1, -, hd1⟩ := ha.keeps x.prime (hd.canon x hx).1
    obtain ⟨r2, hr2, -, hd2⟩ := hb.keeps x.sub (hd.canon x hx).2
    obtain rfl : r1 = p := Except.ok.inj (hr1.symm.trans hp)
    obtain rfl : r2 = q := Except.ok.inj (hr2.symm.trans hq)
    obtain ⟨h1, hP⟩ := (hd1 _).mp hp1
    obtain ⟨h2, hQ⟩ := (hd2 _).mp hq2
    exact ⟨⟨x, hx, h1, h2⟩, hP, hQ⟩
  · rintro ⟨⟨x, hx, h1, h2⟩, hP, hQ⟩
    obtain ⟨r1, hr1, -, hd1⟩ := ha.keeps x.prime (hd.canon x hx).1
    obtain ⟨r2, hr2, -, hd2⟩ := hb.keeps x.sub (hd.canon x hx).2
    exact ⟨x, hx, ⟨r1, hr1, (hd1 _).mpr ⟨h1, hP⟩⟩, r2, hr2, (hd2 _).mpr ⟨h2, hQ⟩⟩

/-- A product of tests. By induction on the sort: the frontier is the head's, then the
tail's. -/
theorem product : (s : Shape) → ∀ (byLeaf : List IntTerm) (Q : Nat → Int → Prop),
    (∀ k, Tests m .leaf (byLeaf.getD k IntTerm.id) (Q k)) →
    Tests m s (product s byLeaf) fun w => ∀ k < s.width, Q k (valueAt s w k)
  | .unit => fun _ _ _ => (Tests.id .unit).congr fun w =>
    ⟨fun _ k hk => absurd hk (Nat.not_lt_zero k), fun _ => trivial⟩
  | .leaf => fun byLeaf Q h => by
    have hone : Tests m .leaf (LibHSC.product .leaf byLeaf) (Q 0) := by
      cases byLeaf <;> exact h 0
    refine hone.congr fun w => ⟨fun hw k hk => ?_, fun hw => hw 0 Nat.one_pos⟩
    obtain rfl : k = 0 := Nat.lt_one_iff.mp hk
    exact hw
  | .pair h t => fun byLeaf Q hall => by
    have hh := product h byLeaf Q hall
    have ht := product t (byLeaf.drop h.width) (fun k => Q (h.width + k)) fun k => by
      simpa [List.getD_eq_getElem?_getD] using hall (h.width + k)
    rw [product_pair]
    refine (Tests.node hh ht).congr fun w => ?_
    have hwidth : (Shape.pair h t).width = h.width + t.width := rfl
    constructor
    · rintro ⟨h1, h2⟩ k hk
      by_cases hlt : k < h.width
      · rw [valueAt_head hlt]
        exact h1 k hlt
      · rw [valueAt_tail hlt]
        have := h2 (k - h.width) (by omega)
        rwa [Nat.add_sub_cancel' (by omega)] at this
    · refine fun hk => ⟨fun k hlt => ?_, fun k hlt => ?_⟩
      · have := hk k (by omega)
        rwa [valueAt_head hlt] at this
      · have := hk (h.width + k) (by omega)
        rwa [valueAt_tail (by omega), Nat.add_sub_cancel_left] at this

theorem zero : (s : Shape) → ∀ z : Term s, zeroTerm s = .ok z → Tests m s z fun _ => False
  | .unit => fun _ h => nomatch h
  | .leaf => fun z h => by
    cases h
    refine (Tests.leaf fun v _ => ⟨.no, rfl⟩).congr fun v => ?_
    simp [IntTerm.Satisfies, exactBool]
  | .pair h t => fun z hz => by
    obtain ⟨z', hz', hz⟩ := bind_eq_ok.mp hz
    cases hz
    exact (Tests.node (zero h z' hz') (Tests.id t)).congr fun w => by simp

end Tests

/-- The leftmost sort: heads all the way down. -/
def Shape.leftmost : Shape → Shape
  | .pair h _ => h.leftmost
  | s => s

theorem zeroTerm_returns : (s : Shape) → s.leftmost = .leaf → ∃ z, zeroTerm s = .ok z
  | .unit => fun h => nomatch h
  | .leaf => fun _ => ⟨_, rfl⟩
  | .pair h _ => fun hl => by
    obtain ⟨z, hz⟩ := zeroTerm_returns h hl
    exact ⟨_, bind_of_ok hz rfl⟩

/-! ## Where an event is built -/

section Build

variable {R : ExprIds} {guard : BExpr} {as as' : List Assign}
  (hg : ¬(guard = .bfalse ∨ guard = .bundef)) (hp : pruneAssigns as = some as')
  (hi : ¬(guard = .btrue ∧ as' = []))

include hg hp hi

theorem makeEvent_leaf : makeEvent R .leaf guard as = leafEvent guard as' := by
  rw [makeEvent.eq_def]
  dsimp only
  rw [if_neg hg, hp]
  exact if_neg hi

theorem makeEvent_head {h t : Shape} {ps : List Nat} (ht : touched guard as' = .ok ps)
    (hlt : ∀ p ∈ ps, p < h.width) : makeEvent R (.pair h t) guard as = (do
      return Term.node (← makeEvent R h guard as') (Term.id t)) := by
  rw [makeEvent.eq_def]
  dsimp only
  rw [if_neg hg, hp]
  refine (if_neg hi).trans ?_
  rw [ht]
  exact if_pos (by simpa using hlt)

theorem makeEvent_tail {h t : Shape} {ps : List Nat} (ht : touched guard as' = .ok ps)
    (hlt : ¬ ∀ p ∈ ps, p < h.width) (hle : ∀ p ∈ ps, h.width ≤ p) :
    makeEvent R (.pair h t) guard as = (do
      let g ← shiftPositionsBool R guard (-h.width)
      let shifted ← shiftAssigns R (-h.width) as'
      return Term.node (Term.id h) (← makeEvent R t g shifted)) := by
  rw [makeEvent.eq_def]
  dsimp only
  rw [if_neg hg, hp]
  refine (if_neg hi).trans ?_
  rw [ht]
  refine (if_neg (by simpa using hlt)).trans (if_pos (by simpa using hle))

theorem makeEvent_crossing {h t : Shape} {ps : List Nat} (ht : touched guard as' = .ok ps)
    (hlt : ¬ ∀ p ∈ ps, p < h.width) (hle : ¬ ∀ p ∈ ps, h.width ≤ p) :
    makeEvent R (.pair h t) guard as = .ok (Term.expr guard (sortAssigns R as')) := by
  rw [makeEvent.eq_def]
  dsimp only
  rw [if_neg hg, hp]
  refine (if_neg hi).trans ?_
  rw [ht]
  refine (if_neg (by simpa using hlt)).trans (if_neg (by simpa using hle))

end Build

/-! ## A guard over one position -/

section One

variable {R : ExprIds}

theorem cmpEval_symm {k : CmpOp} (hk : k = .eq ∨ k = .neq) (x y : Int) :
    cmpEval k x y = cmpEval k y x := by
  rcases hk with rfl | rfl
  · simp [cmpEval, eq_comm]
  · simp [cmpEval, bne, eq_comm]

/-- A comparison of the value at `p` with a machine constant, on either side. -/
def Compares (p : Nat) (g : BExpr) (P : Int → Prop) : Prop :=
  ∃ k c, InInt32 c ∧ ((g = .cmp k (.var p) (.const c) ∧ ∀ v, P v ↔ cmpEval k v c = true) ∨
    (g = .cmp k (.const c) (.var p) ∧ ∀ v, P v ↔ cmpEval k c v = true))

theorem compares_left (R : ExprIds) (k : CmpOp) (p : Nat) {c : Int} (hc : InInt32 c) :
    Compares p (compare R k (.var p) (.const c)) fun v => cmpEval k v c = true := by
  simp only [Lia.compare, reduceCtorEq, if_false]
  split
  · next hk => exact ⟨k, c, hc, .inr ⟨rfl, fun v => by rw [cmpEval_symm hk.1]⟩⟩
  · exact ⟨k, c, hc, .inl ⟨rfl, fun v => .rfl⟩⟩

theorem compares_right (R : ExprIds) (k : CmpOp) (p : Nat) {c : Int} (hc : InInt32 c) :
    Compares p (compare R k (.const c) (.var p)) fun v => cmpEval k c v = true := by
  simp only [Lia.compare, reduceCtorEq, if_false]
  split
  · next hk => exact ⟨k, c, hc, .inl ⟨rfl, fun v => by rw [cmpEval_symm hk.1]⟩⟩
  · exact ⟨k, c, hc, .inr ⟨rfl, fun v => .rfl⟩⟩

namespace Compares

variable {p : Nat} {g : BExpr} {P : Int → Prop}

theorem ne_immediate (h : Compares p g P) : g ≠ .bfalse ∧ g ≠ .btrue ∧ g ≠ .bundef := by
  obtain ⟨k, c, hc, ⟨rfl, -⟩ | ⟨rfl, -⟩⟩ := h <;> simp

theorem support (h : Compares p g P) : supportBool g = [p] ∧ arrayPositionsBool g = [] := by
  obtain ⟨k, c, hc, ⟨rfl, -⟩ | ⟨rfl, -⟩⟩ := h <;>
    simp [supportBool, arrayPositionsBool, sortPositions, collectBool, collect,
      collectArraysBool, collectArrays]

theorem eval (h : Compares 0 g P) (v : Int) :
    ∃ b : Bool, evalBool [v] g = .ok (Truth.ofBool b) ∧ (P v ↔ b = true) := by
  obtain ⟨k, c, hc, ⟨rfl, hP⟩ | ⟨rfl, hP⟩⟩ := h
  · exact ⟨cmpEval k v c, rfl, hP v⟩
  · exact ⟨cmpEval k c v, rfl, hP v⟩

theorem satisfies (h : Compares 0 g P) (v : Int) : IntTerm.Satisfies g v ↔ P v := by
  obtain ⟨b, hb, hP⟩ := h.eval v
  rw [IntTerm.Satisfies, evalBool_exact g _ hb, hP]
  cases b <;> simp [Truth.ofBool]

theorem shift (h : Compares p g P) {n : Nat} (hn : n ≤ p) :
    ∃ g', shiftPositionsBool R g (-n) = .ok g' ∧ Compares (p - n) g' P := by
  have hp : shiftPos (-n) p = p - n := by
    have := shiftPos_add hn
    omega
  unfold shiftPositionsBool
  split
  · next h0 =>
    obtain rfl : n = 0 := by omega
    exact ⟨g, rfl, h⟩
  · obtain ⟨k, c, hc, ⟨rfl, hP⟩ | ⟨rfl, hP⟩⟩ := h
    · refine ⟨compare R k (.var (p - n)) (.const c), ?_, ?_⟩
      · simp [rebuildBool, rebuild, shifting, hp]
        rfl
      · obtain ⟨k', c', hc', hh⟩ := compares_left R k (p - n) hc
        simp only [← hP] at hh
        exact ⟨k', c', hc', hh⟩
    · refine ⟨compare R k (.const c) (.var (p - n)), ?_, ?_⟩
      · simp [rebuildBool, rebuild, shifting, hp]
        rfl
      · obtain ⟨k', c', hc', hh⟩ := compares_right R k (p - n) hc
        simp only [← hP] at hh
        exact ⟨k', c', hc', hh⟩

theorem touched (h : Compares p g P) : touched g [] = .ok [p] := by
  simp only [LibHSC.touched, h.support.1, h.support.2, touchedByAll]
  rfl

/-- The event of the guard is pushed to the leaf it reads. By induction on the sort. -/
theorem event : (s : Shape) → ∀ (p : Nat) (g : BExpr), Compares p g P → p < s.width →
    ∃ t, makeEvent R s g [] = .ok t ∧ ∀ m, Tests m s t fun w => P (valueAt s w p)
  | .unit => fun _ _ _ hp => absurd hp (Nat.not_lt_zero _)
  | .leaf => fun p g h hp => by
    obtain rfl : p = 0 := Nat.lt_one_iff.mp hp
    obtain ⟨h1, h2, h3⟩ := h.ne_immediate
    refine ⟨IntTerm.keepIf g, (makeEvent_leaf (not_or.mpr ⟨h1, h3⟩) rfl fun h => h2 h.1).trans rfl,
      fun m => (Tests.leaf fun v _ => ?_).congr h.satisfies⟩
    obtain ⟨b, hb, -⟩ := h.eval v
    exact ⟨_, hb⟩
  | .pair h t => fun p g hg hp => by
    obtain ⟨h1, h2, h3⟩ := hg.ne_immediate
    have hfold : ¬(g = .bfalse ∨ g = .bundef) := not_or.mpr ⟨h1, h3⟩
    have hp' : p < h.width + t.width := hp
    by_cases hlt : p < h.width
    · obtain ⟨e, he, htest⟩ := event h p g hg hlt
      refine ⟨Term.node e (Term.id t), ?_, fun m => ?_⟩
      · rw [makeEvent_head hfold rfl (fun h => h2 h.1) hg.touched (by simpa using hlt), he]
        rfl
      · refine ((htest m).node (Tests.id t)).congr fun w => ?_
        simp [valueAt_head hlt]
    · obtain ⟨g', hg', hc⟩ := hg.shift (R := R) (not_lt.mp hlt)
      obtain ⟨e, he, htest⟩ := event t (p - h.width) g' hc (by omega)
      refine ⟨Term.node (Term.id h) e, ?_, fun m => ?_⟩
      · rw [makeEvent_tail hfold rfl (fun h => h2 h.1) hg.touched (by simpa using hlt)
          (by simpa using hlt), hg']
        exact bind_of_ok rfl (bind_of_ok rfl (bind_of_ok he rfl))
      · refine ((Tests.id h).node (htest m)).congr fun w => ?_
        simp [valueAt_tail hlt]

end Compares

end One

/-! ## The marker of a position -/

theorem canon_arc {N : Numbering} {h t : Shape} {d : Code (.pair h t)}
    (hd : Canon N (.pair h t) d) {w : Word (.pair h t)} (hw : w ∈ den (.pair h t) d) :
    ∃ a ∈ arcs d, Canon N h a.prime ∧ Canon N t a.sub ∧ w.1 ∈ den h a.prime ∧
      w.2 ∈ den t a.sub := by
  obtain ⟨a, ha, h1, h2⟩ := (mem_nodeDen (den h) (den t)).mp hw
  exact ⟨a, ha, (hd.canon a ha).1, (hd.canon a ha).2, h1, h2⟩

/-- The marker of a position is the value there. By induction on the sort. -/
theorem marks_var {N : Numbering} (R : ExprIds) : (s : Shape) → ∀ (r : Nat) (d : Code s)
    (w : Word s), r < s.width → Canon N s d → w ∈ den s d →
    Marks R s (.var r) w (.const (valueAt s w r))
  | .unit => fun _ _ _ hr => absurd hr (Nat.not_lt_zero _)
  | .leaf => fun r d (v : Int) hr hd hv => by
    obtain rfl : r = 0 := Nat.lt_one_iff.mp hr
    refine .inr ⟨not_ground_var, bind_of_ok rfl (bind_eq_ok.mpr ⟨v, ?_, rfl⟩)⟩
    exact if_pos ((show IntSet.Canon d from hd).2 v hv)
  | .pair h t => fun r d w hr hd hw => by
    obtain ⟨a, -, hp, hs, h1, h2⟩ := canon_arc hd hw
    have hr' : r < h.width + t.width := hr
    by_cases hlt : r < h.width
    · rw [valueAt_head hlt]
      refine .head not_ground_var (by simp [support_var]) (by simpa [support_var] using hlt) ?_
      exact marks_var R h r a.prime w.1 hlt hp h1
    · rw [valueAt_tail hlt]
      have hshift : shiftPositions R (.var r) (-h.width) = .ok (.var (r - h.width)) := by
        unfold shiftPositions
        split
        · next h0 =>
          have : h.width = 0 := by omega
          simp [this]
        · have hq := shiftPos_add (not_lt.mp hlt)
          have : shiftPos (-h.width) r = r - h.width := by omega
          simp [rebuild, shifting, this]
      exact .tail not_ground_var (by simp [support_var]) (by simpa [support_var] using hlt)
        hshift (marks_var R t (r - h.width) a.sub w.2 (by omega) hs h2)

/-! ## A guard over two positions -/

section Two

variable {R : ExprIds} {k : CmpOp} {i j : Nat}

theorem comparison_ground : ¬((BExpr.cmp k (.var i) (.var j)) = .bfalse ∨
    (BExpr.cmp k (.var i) (.var j)) = .bundef) := by
  simp

theorem comparison_reads (hij : i ≠ j) :
    (reads (.cmp k (.var i) (.var j)) []).min? = some (min i j) := by
  have hmem : ∀ p, p ∈ reads (.cmp k (.var i) (.var j)) [] ↔ p = i ∨ p = j := by
    simp [reads, readAssigns, supportBool, sortPositions, collectBool, collect]
  refine List.min?_eq_some_iff.mpr ⟨(hmem _).mpr ?_, fun b hb => ?_⟩
  · omega
  · rcases (hmem b).mp hb with rfl | rfl <;> omega

theorem comparison_touched :
    ∃ ps, touched (.cmp k (.var i) (.var j)) [] = .ok ps ∧ ∀ p, p ∈ ps ↔ p = i ∨ p = j := by
  refine ⟨_, rfl, fun p => ?_⟩
  simp [supportBool, arrayPositionsBool, sortPositions, collectBool, collect, collectArraysBool,
    collectArrays]

/-- The split is by the position that is in the head. -/
theorem comparison_chooses {wh r : Nat} (hr : r < wh) (hri : r = i ∨ r = j) (hij : i ≠ j) :
    chooseAssert 0 wh r (.cmp k (.var i) (.var j)) [] = .var r := by
  have hself : findAssert 0 wh r (.var r) = some (.var r) := by
    simp [findAssert, assertable, support_var, arrayPositions, sortPositions, collectArrays, hr]
  have hother : ∀ q, q ≠ r → findAssert 0 wh r (.var q) = none := by
    intro q hq
    simp [findAssert, assertable, support_var, hq.symm]
  rcases hri with rfl | rfl
  · simp [chooseAssert, findAssertBool, hself]
  · simp [chooseAssert, findAssertBool, hself, hother i hij]

/-- The residual of a value at `r` compares the other position with it. -/
theorem comparison_residual {r q : Nat} (hrq : (r = i ∧ q = j) ∨ (r = j ∧ q = i)) (hij : i ≠ j)
    {v : Int} (hv : InInt32 v) : ∃ g P,
      substSubexprBool R (.cmp k (.var i) (.var j)) (.var r) (.const v) = .ok g ∧
      Compares q g P ∧ ∀ x y, (r = i → x = v) → (r = j → y = v) →
        (P (if r = i then y else x) ↔ cmpEval k x y = true) := by
  rcases hrq with ⟨rfl, rfl⟩ | ⟨rfl, rfl⟩
  · refine ⟨_, _, ?_, compares_right R k q hv, fun x y hx _ => ?_⟩
    · simp [substSubexprBool, rebuildBool, rebuild, replacing, hij.symm]
      rfl
    · rw [if_pos rfl, hx rfl]
  · refine ⟨_, _, ?_, compares_left R k q hv, fun x y _ hy => ?_⟩
    · simp [substSubexprBool, rebuildBool, rebuild, replacing, hij]
      rfl
    · rw [if_neg hij.symm, hy rfl]

/-- Below the cut the comparison is of the moved positions, its sides ordered anew. -/
theorem comparison_shift {h t : Shape} (hij : i ≠ j) (hi : i < h.width + t.width)
    (hj : j < h.width + t.width) (hle : h.width ≤ i ∧ h.width ≤ j) :
    ∃ g, shiftPositionsBool R (.cmp k (.var i) (.var j)) (-h.width) = .ok g ∧
      ∃ i' j', i' ≠ j' ∧ i' < t.width ∧ j' < t.width ∧
        (∀ val : Nat → Int, cmpEval k (val i') (val j') = true ↔
          cmpEval k (val (i - h.width)) (val (j - h.width)) = true) ∧
        g = .cmp k (.var i') (.var j') := by
  have hi2 := shiftPos_add hle.1
  have hj2 := shiftPos_add hle.2
  have hi3 : shiftPos (-h.width) i = i - h.width := by omega
  have hj3 : shiftPos (-h.width) j = j - h.width := by omega
  unfold shiftPositionsBool
  split
  · next h0 =>
    obtain h0 : h.width = 0 := by omega
    exact ⟨_, rfl, i, j, hij, by omega, by omega, by simp [h0], rfl⟩
  · have hne : i - h.width ≠ j - h.width := by omega
    refine ⟨compare R k (.var (i - h.width)) (.var (j - h.width)), ?_, ?_⟩
    · simp [rebuildBool, rebuild, shifting, hi3, hj3]
      rfl
    · simp only [Lia.compare, IExpr.var.injEq, hne, if_false]
      split
      · next hk => exact ⟨_, _, hne.symm, by omega, by omega,
          fun val => by rw [cmpEval_symm hk.1], rfl⟩
      · exact ⟨_, _, hne, by omega, by omega, fun _ => .rfl, rfl⟩

end Two

/-! ## Evaluating the crossing test -/

section Crossing

/-- A residual of one class: it is an event that keeps the words of the class that satisfy
`P`. -/
def ClassKeeps (N : Numbering) (R : ExprIds) (M : (s : Shape) → TermAlgebra (Code s) (Term s))
    (s : Shape) (guard : BExpr) (as : List Assign) (e mk : IExpr) (P : Word s → Prop)
    (d : Code s) : Prop :=
  ∃ g curried t, substSubexprBool R guard e mk = .ok g ∧ ¬(g = .bfalse ∨ g = .bundef) ∧
    curryAssigns R e mk as = .ok (some curried) ∧ makeEvent R s g curried = .ok t ∧
    Keeps (den s) (Canon N s) P d ((M s).apply t d)

theorem applyClasses_keeps {N : Numbering} {R : ExprIds}
    {M : (s : Shape) → TermAlgebra (Code s) (Term s)} {h t : Shape} {guard : BExpr}
    {as : List Assign} {e : IExpr} {P : Word h × Word t → Prop} :
    ∀ {cs : List (IExpr × Arc (Code h) (Code t))} {out : Code (.pair h t)},
    (∀ c ∈ cs, ClassKeeps N R M (.pair h t) guard as e c.1 P
      (rectangle (algebra N h) (algebra N t) c.2.prime c.2.sub)) →
    (∀ c ∈ cs, Canon N h c.2.prime ∧ Canon N t c.2.sub) → Canon N (.pair h t) out →
    ∃ r, applyClasses N R M h t guard as e cs out = .ok r ∧ Canon N (.pair h t) r ∧
      ∀ u : Word h × Word t, u ∈ den (.pair h t) r ↔ u ∈ den (.pair h t) out ∨
        ∃ c ∈ cs, (u.1 ∈ den h c.2.prime ∧ u.2 ∈ den t c.2.sub) ∧ P u := by
  intro cs
  induction cs with
  | nil => exact fun {out} _ _ ho => ⟨out, rfl, ho, by simp⟩
  | cons c cs ih =>
    intro out hall hc ho
    obtain ⟨⟨g, curried, T, hg, hfold, hcur, hT, x, hx, hxc, hxd⟩, hcs⟩ :=
      List.forall_mem_cons.mp hall
    obtain ⟨⟨hp, hs⟩, hcc⟩ := List.forall_mem_cons.mp hc
    have hone : applyClass N R M (.pair h t) guard as e c.1
        (rectangle (algebra N h) (algebra N t) c.2.prime c.2.sub) out =
        .ok ((algebra N (.pair h t)).join out x) := by
      unfold applyClass
      refine bind_of_ok hg ((if_neg hfold).trans ?_)
      exact bind_of_ok hcur (bind_of_ok hT (bind_eq_ok.mpr ⟨x, hx, rfl⟩))
    have hjoin : ∀ u : Word h × Word t, u ∈ den (.pair h t) ((algebra N (.pair h t)).join out x) ↔
        u ∈ den (.pair h t) out ∨ u ∈ den (.pair h t) x :=
      Set.ext_iff.mp ((laws N (.pair h t)).den_join ho hxc)
    have hrect := (rectangle_correct (laws N h) (laws N t) hp hs).2
    obtain ⟨r, hr, hrc, hrd⟩ := ih hcs hcc ((laws N (.pair h t)).canon_join ho hxc)
    refine ⟨r, bind_of_ok hone hr, hrc, fun u => ?_⟩
    have hmem : u ∈ den (.pair h t) x ↔ (u.1 ∈ den h c.2.prime ∧ u.2 ∈ den t c.2.sub) ∧ P u :=
      (hxd u).trans (and_congr_left fun _ => Set.ext_iff.mp hrect u)
    rw [hrd, hjoin, hmem, List.exists_mem_cons_iff, or_assoc]

/-- A comparison of a position of the head with one of the tail, evaluated with one level
of residuals to spare. -/
theorem crossing_keeps {m : Manager} {n : Nat} (hdepth : m.depth = n + 1) {h t : Shape}
    {k : CmpOp} {i j : Nat} (hij : i ≠ j) (hi : i < h.width + t.width)
    (hj : j < h.width + t.width) (hcross : ¬ (i < h.width ∧ j < h.width))
    (hcross' : ¬ (h.width ≤ i ∧ h.width ≤ j)) {d : Code (.pair h t)}
    (hd : m.Canon (.pair h t) d) :
    Keeps (den (.pair h t)) (m.Canon (.pair h t))
      (fun w => cmpEval k (valueAt (.pair h t) w i) (valueAt (.pair h t) w j) = true) d
      (m.apply (.pair h t) (Term.expr (.cmp k (.var i) (.var j)) []) d) := by
  -- the position of the head is the least one read
  obtain ⟨r, q, hrq, hr, hmin⟩ : ∃ r q, ((r = i ∧ q = j) ∨ (r = j ∧ q = i)) ∧ r < h.width ∧
      min i j = r := by
    by_cases hlt : i < h.width
    · exact ⟨i, j, .inl ⟨rfl, rfl⟩, hlt, by omega⟩
    · exact ⟨j, i, .inr ⟨rfl, rfl⟩, by omega, by omega⟩
  have hq : q < h.width + t.width := by omega
  have hchoose := comparison_chooses (k := k) hr (show r = i ∨ r = j by omega) hij
  have hhead : ∀ {a : Arc (Code h) (Code t)}, a ∈ arcs d → Canon m.numbering h a.prime :=
    fun ha => (hd.canon _ ha).1
  obtain ⟨cs, hcs⟩ : ∃ cs, headRects (splitEquiv m.numbering m.exprs h) (.var r) (arcs d) =
      .ok cs :=
    headRects_returns.mpr fun a ha => (splitEquiv_returns (e := .var r) trivial rfl
      (hhead ha)).mpr fun w hw => ⟨_, marks_var m.exprs h r a.prime w hr (hhead ha) hw⟩
  have hcl : RectClasses (den h) (den t) (Canon m.numbering h) (Canon m.numbering t)
      (fun w => Marks m.exprs h (.var r) w.1) (arcs d) cs :=
    headRects_classes (fun _ _ hm => hm)
      (fun p cs hp => splitEquiv_classes h p (.var r) cs trivial hp) hd.canon hcs
  -- every word of a class has the marker's value at the position
  have hvalue : ∀ c ∈ cs, ∃ v, c.1 = .const v ∧ InInt32 v ∧ ∀ w : Word (.pair h t),
      w.1 ∈ den h c.2.prime → w.2 ∈ den t c.2.sub → valueAt (.pair h t) w r = v := by
    intro c hc
    obtain ⟨hp, hs⟩ := hcl.canon c hc
    have hat : ∀ w : Word h × Word t, w.1 ∈ den h c.2.prime → w.2 ∈ den t c.2.sub →
        c.1 = .const (valueAt h w.1 r) := fun w h1 h2 =>
      Marks.unique h _ w.1 _ _ (hcl.has c hc w h1 h2) (marks_var m.exprs h r c.2.prime w.1 hr hp h1)
    obtain ⟨hpn, hsn⟩ := headRects_ne (fun a ha cs hs => splitEquiv_distinct h a.prime (.var r) cs
      trivial (hhead ha) hs) hd.sub_ne hcs c hc
    obtain ⟨w1, hw1⟩ := (laws m.numbering h).nonempty_of_ne_none hp hpn
    obtain ⟨w2, hw2⟩ := (laws m.numbering t).nonempty_of_ne_none hs hsn
    have hv := hat (w1, w2) hw1 hw2
    refine ⟨_, hv, ?_, fun w h1 h2 => ?_⟩
    · have := (hcl.marker c hc).1
      rwa [hv] at this
    · exact (valueAt_head hr).trans (IExpr.const.inj ((hat w h1 h2).symm.trans hv))
  have hclass : ∀ c ∈ cs, ClassKeeps m.numbering m.exprs ({ m with depth := n } : Manager).terms
      (.pair h t) (.cmp k (.var i) (.var j)) [] (.var r) c.1
      (fun w => cmpEval k (valueAt (.pair h t) w i) (valueAt (.pair h t) w j) = true)
      (rectangle (algebra m.numbering h) (algebra m.numbering t) c.2.prime c.2.sub) := by
    intro c hc
    obtain ⟨v, hv, hint, hval⟩ := hvalue c hc
    obtain ⟨g, P, hg, hcomp, hP⟩ := comparison_residual (R := m.exprs) (k := k) hrq hij hint
    obtain ⟨T, hT, htest⟩ := Compares.event (R := m.exprs) (.pair h t) q g hcomp hq
    obtain ⟨hp, hs⟩ := hcl.canon c hc
    obtain ⟨hrc, hrd⟩ := rectangle_correct (laws m.numbering h) (laws m.numbering t) hp hs
    obtain ⟨h1, -, h3⟩ := hcomp.ne_immediate
    refine ⟨g, [], T, hv ▸ hg, not_or.mpr ⟨h1, h3⟩, rfl, hT, ?_⟩
    refine ((htest { m with depth := n }).keeps _ hrc).congr fun w hw => ?_
    obtain ⟨h1, h2⟩ : w.1 ∈ den h c.2.prime ∧ w.2 ∈ den t c.2.sub := Set.ext_iff.mp hrd w |>.mp hw
    have hw := hval w h1 h2
    have := hP (valueAt (.pair h t) w i) (valueAt (.pair h t) w j) (fun h => h ▸ hw)
      (fun h => h ▸ hw)
    rw [← this]
    rcases hrq with ⟨rfl, rfl⟩ | ⟨rfl, rfl⟩
    · rw [if_pos rfl]
    · rw [if_neg hij.symm]
  obtain ⟨x, hx, hxc, hxd⟩ := applyClasses_keeps hclass hcl.canon
    (laws m.numbering (.pair h t)).canon_none
  have hnone : den (.pair h t) (m.algebra (.pair h t)).none = ∅ := (m.laws (.pair h t)).den_none
  by_cases hn : d = (m.algebra (.pair h t)).none
  · refine ⟨_, if_pos hn, (m.laws (.pair h t)).canon_none, fun w => ?_⟩
    constructor
    · intro hw
      exact (Set.ext_iff.mp hnone w).mp hw |>.elim
    · rintro ⟨hw, -⟩
      exact hn ▸ hw
  have hcase : m.cases (.pair h t) (.cmp k (.var i) (.var j)) [] d = .ok x := by
    simp only [Manager.cases, hdepth, caseEngine, caseApply, comparison_reads hij, hmin, if_pos hr,
      curryHead, hchoose]
    exact bind_of_ok hcs hx
  refine ⟨x, (if_neg hn).trans hcase, hxc, fun w => ?_⟩
  have hempty : ¬ w ∈ den (.pair h t) (algebra m.numbering (.pair h t)).none :=
    fun hw => (Set.ext_iff.mp hnone w).mp hw
  have hcover : w ∈ den (.pair h t) d ↔
      ∃ c ∈ cs, w.1 ∈ den h c.2.prime ∧ w.2 ∈ den t c.2.sub := hcl.cover w
  refine (hxd w).trans ⟨?_, ?_⟩
  · rintro (hw | ⟨c, hc, hw, hP⟩)
    · exact absurd hw hempty
    · exact ⟨hcover.mpr ⟨c, hc, hw⟩, hP⟩
  · rintro ⟨hw, hP⟩
    obtain ⟨c, hc, hw⟩ := hcover.mp hw
    exact .inr ⟨c, hc, hw, hP⟩

/-- A comparison between distinct positions, in either order of the sides. By induction on
the sort: the event is pushed to the cut that the two part at. -/
theorem comparison_event (R : ExprIds) : (s : Shape) → ∀ (k : CmpOp) (i j : Nat), i ≠ j →
    i < s.width → j < s.width → ∃ t, makeEvent R s (.cmp k (.var i) (.var j)) [] = .ok t ∧
      ∀ m n, m.exprs = R → m.depth = n + 1 → Tests m s t fun w =>
        cmpEval k (valueAt s w i) (valueAt s w j) = true
  | .unit => fun _ _ _ _ hi => absurd hi (Nat.not_lt_zero _)
  | .leaf => fun _ i j hij hi hj => by
    have hi' : i < 1 := hi
    have hj' : j < 1 := hj
    omega
  | .pair h t => fun k i j hij hi hj => by
    have hi' : i < h.width + t.width := hi
    have hj' : j < h.width + t.width := hj
    obtain ⟨ps, hps, hmem⟩ := comparison_touched (k := k) (i := i) (j := j)
    have hall : ∀ Q : Nat → Prop, (∀ p ∈ ps, Q p) ↔ Q i ∧ Q j := by
      intro Q
      simp [hmem]
    have hnot : ¬(BExpr.cmp k (.var i) (.var j) = .btrue ∧ ([] : List Assign) = []) := by simp
    by_cases hhead : i < h.width ∧ j < h.width
    · obtain ⟨e, he, htest⟩ := comparison_event R h k i j hij hhead.1 hhead.2
      refine ⟨Term.node e (Term.id t), ?_, fun m n hR hn => ?_⟩
      · rw [makeEvent_head comparison_ground rfl hnot hps ((hall _).mpr hhead), he]
        rfl
      · refine ((htest m n hR hn).node (Tests.id t)).congr fun w => ?_
        simp [valueAt_head hhead.1, valueAt_head hhead.2]
    have hhead' : ¬ ∀ p ∈ ps, p < h.width := mt (hall _).mp hhead
    by_cases htail : h.width ≤ i ∧ h.width ≤ j
    · obtain ⟨g, hg, i', j', hij', hi2, hj2, hP, rfl⟩ := comparison_shift (R := R) (k := k)
        (t := t) hij hi' hj' htail
      obtain ⟨e, he, htest⟩ := comparison_event R t k i' j' hij' hi2 hj2
      refine ⟨Term.node (Term.id h) e, ?_, fun m n hR hn => ?_⟩
      · rw [makeEvent_tail comparison_ground rfl hnot hps hhead' ((hall _).mpr htail), hg]
        exact bind_of_ok rfl (bind_of_ok rfl (bind_of_ok he rfl))
      · refine ((Tests.id h).node (htest m n hR hn)).congr fun w => ?_
        rw [true_and, valueAt_tail (not_lt.mpr htail.1), valueAt_tail (not_lt.mpr htail.2)]
        exact hP _
    · refine ⟨Term.expr (.cmp k (.var i) (.var j)) [],
        makeEvent_crossing comparison_ground rfl hnot hps hhead' (mt (hall _).mp htail),
        fun m n hR hn => ⟨?_, fun d hd => crossing_keeps hn hij hi' hj' hhead htail hd⟩⟩
      exact ⟨by simp [BExpr.Normal, IExpr.Normal, isValue], by simp⟩

end Crossing

end LibHSC
