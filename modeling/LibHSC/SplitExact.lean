import LibHSC.Splits
import LibHSC.SumAt
import LibHSC.Manager

/-!
What the pieces of a split hold: the words on which the expression comes to the
marker. Currying puts values in one position at a time and folds after each, so
a word whose expression evaluates to a value is in the piece of that value,
whichever way the shape cuts it; where evaluation is undefined, folding may have
dropped what made it so.
-/

namespace LibHSC

open Lia Grouping

namespace Lia

/-- The two readings give the same values where `P` and `Q` allow to look. -/
structure SameReads (ρ ρ' : Reading) (P Q : Nat → Prop) : Prop where
  pos : ∀ p, P p → ρ.pos p = ρ'.pos p
  cell : ∀ q, Q q → ρ.pos q = ρ'.pos q
  access : ∀ cells i, (∀ q ∈ cells, Q q) → ρ.access cells i = ρ'.access cells i

section Congruence

variable {ρ ρ' : Reading} {P Q : Nat → Prop} (h : SameReads ρ ρ' P Q)

include h

mutual

/-- An expression means what the positions that it reads and addresses make of it. -/
theorem exactInt_congr : (e : IExpr) → e.Within P Q →
    exactInt ρ e = exactInt ρ' e ∧ (e.Strict ρ → e.Strict ρ')
  | .undef, _ => ⟨rfl, fun _ => trivial⟩
  | .const _, _ => ⟨rfl, fun _ => trivial⟩
  | .var p, hw => ⟨h.pos p (IExpr.within_var.mp hw), fun _ => trivial⟩
  | .nary k ops, hw => by
    obtain ⟨hval, hs⟩ := exactNary_congr ops (IExpr.within_nary.mp hw)
    refine ⟨hval k, fun he => ⟨strictList_iff.mpr fun x hx =>
      (hs x hx).2 (strictList_iff.mp he.1 x hx), fun hk hd x hx => ?_⟩⟩
    rw [← (hs x hx).1]
    exact he.2 hk ((hval .mult).trans hd) x hx
  | .binary _ a b, hw => by
    obtain ⟨ha, hsa⟩ := exactInt_congr a hw.of_binary.1
    obtain ⟨hb, hsb⟩ := exactInt_congr b hw.of_binary.2
    exact ⟨by rw [exactInt, exactInt, ha, hb], fun he => ⟨hsa he.1, hsb he.2⟩⟩
  | .bitComp a, hw => by
    obtain ⟨ha, hsa⟩ := exactInt_congr a ⟨hw.scalars, hw.cells⟩
    exact ⟨by rw [exactInt, exactInt, ha], hsa⟩
  | .array cells index, hw => by
    have hc : ∀ q ∈ cells, Q q := fun q hq => hw.cells q (List.mem_append_left _ hq)
    obtain ⟨hi, hsi⟩ := exactInt_congr index
      ⟨hw.scalars, fun q hq => hw.cells q (List.mem_append_right _ hq)⟩
    have hacc : ρ.access cells = ρ'.access cells := funext fun i => h.access cells i hc
    refine ⟨by rw [exactInt, exactInt, hi, hacc], fun he => ⟨hsi he.1, fun i hiv => ?_⟩⟩
    rw [← hacc, he.2 i (hi.trans hiv)]
    cases hq : cellAt cells i with
    | none => rfl
    | some q => exact h.cell q (hc q (mem_of_cellAt hq))
  | .wrapBool b, hw => by
    obtain ⟨hb, hsb⟩ := exactBool_congr b ⟨hw.scalars, hw.cells⟩
    exact ⟨by rw [exactInt, exactInt, hb], hsb⟩

theorem exactNary_congr : (xs : List IExpr) → (∀ x ∈ xs, x.Within P Q) →
    (∀ k, exactNary ρ k xs = exactNary ρ' k xs) ∧
      ∀ x ∈ xs, exactInt ρ x = exactInt ρ' x ∧ (x.Strict ρ → x.Strict ρ')
  | [], _ => ⟨fun _ => rfl, by simp⟩
  | x :: xs, hw => by
    obtain ⟨hx, hxs⟩ := List.forall_mem_cons.mp hw
    have h1 := exactInt_congr x hx
    obtain ⟨h2, h3⟩ := exactNary_congr xs hxs
    exact ⟨fun k => by rw [exactNary, exactNary, h1.1, h2], List.forall_mem_cons.mpr ⟨h1, h3⟩⟩

theorem exactBool_congr : (b : BExpr) → b.Within P Q →
    exactBool ρ b = exactBool ρ' b ∧ (b.Strict ρ → b.Strict ρ')
  | .bfalse, _ => ⟨rfl, fun _ => trivial⟩
  | .btrue, _ => ⟨rfl, fun _ => trivial⟩
  | .bundef, _ => ⟨rfl, fun _ => trivial⟩
  | .cmp k l r, hw => by
    obtain ⟨hl, hsl⟩ := exactInt_congr l (BExpr.within_cmp.mp hw).1
    obtain ⟨hr, hsr⟩ := exactInt_congr r (BExpr.within_cmp.mp hw).2
    refine ⟨by rw [exactBool, exactBool, hl, hr], fun he => ⟨hsl he.1, hsr he.2.1, ?_⟩⟩
    rw [← hl, ← hr]
    exact he.2.2
  | .conn k ops, hw => by
    obtain ⟨hval, hs⟩ := exactConn_congr ops (BExpr.within_conn.mp hw)
    refine ⟨hval k, fun he => strictBoolList_iff.mpr fun x hx => ?_⟩
    exact (hs x hx).2 (strictBoolList_iff.mp he x hx)
  | .neg a, hw => by
    obtain ⟨ha, hsa⟩ := exactBool_congr a (BExpr.within_neg.mp hw)
    exact ⟨by rw [exactBool, exactBool, ha], hsa⟩

theorem exactConn_congr : (xs : List BExpr) → (∀ x ∈ xs, x.Within P Q) →
    (∀ k, exactConn ρ k xs = exactConn ρ' k xs) ∧
      ∀ x ∈ xs, exactBool ρ x = exactBool ρ' x ∧ (x.Strict ρ → x.Strict ρ')
  | [], _ => ⟨fun _ => rfl, by simp⟩
  | x :: xs, hw => by
    obtain ⟨hx, hxs⟩ := List.forall_mem_cons.mp hw
    have h1 := exactBool_congr x hx
    obtain ⟨h2, h3⟩ := exactConn_congr xs hxs
    exact ⟨fun k => by rw [exactConn, exactConn, h1.1, h2], List.forall_mem_cons.mpr ⟨h1, h3⟩⟩

end

end Congruence

end Lia

/-! ## The marker of a word is what the expression comes to -/

section Marked

variable {R : ExprIds}

/-- A reading that leaves accesses undefined and gives, where the expression reads, the
values of the word. -/
structure ReadsWord (ρ : Reading) (e : IExpr) (env : List Int) : Prop where
  access : ∀ cells i, ρ.access cells i = none
  pos : ∀ p ∈ collect e, ρ.pos p = env[p]?

theorem ReadsWord.same {ρ : Reading} {e : IExpr} {env : List Int} (h : ReadsWord ρ e env)
    (hfree : ArrayFree e) : exactInt ρ e = exactInt (.ofEnv env) e := by
  have hsame : SameReads ρ (.ofEnv env) (· ∈ collect e) (fun _ => False) :=
    ⟨h.pos, fun _ hq => hq.elim, fun cells i _ => h.access cells i⟩
  exact (exactInt_congr hsame e ⟨fun _ hp => hp, arrayFree_iff.mp hfree⟩).1

theorem ReadsWord.ofEnv (e : IExpr) (env : List Int) : ReadsWord (.ofEnv env) e env :=
  ⟨fun _ _ => rfl, fun _ _ => rfl⟩

theorem markerOf_exact {e m : IExpr} {v : Int} {ρ : Reading} (hρ : ReadsWord ρ e [v])
    (hfree : ArrayFree e) (h : markerOf e v = .ok m) : m = ofOutcome (exactInt ρ e) := by
  obtain ⟨x, hx, h⟩ := bind_eq_ok.mp h
  have hval : exactInt ρ e = x :=
    (hρ.same hfree).trans (evalInt_exact e x hx)
  rw [hval]
  cases x with
  | none =>
    cases h
    rfl
  | some x =>
    obtain ⟨c, hc, h⟩ := bind_eq_ok.mp h
    cases h
    exact congrArg _ (narrow_eq_ok hc).1

/-- An immediate expression reads nothing. -/
theorem Lia.Agrees.immediate {ρ ρ' : Reading} {m : IExpr} (hm : immediate m = true) :
    Agrees ρ ρ' m m := by
  refine .of_immediate hm ?_
  cases m <;> first | rfl | cases hm

theorem exactInt_ofOutcome (ρ : Reading) (x : Option Int) : exactInt ρ (ofOutcome x) = x := by
  cases x <;> rfl

theorem immediate_ofOutcome (x : Option Int) : immediate (ofOutcome x) = true := by
  cases x <;> rfl

theorem ReadsWord.mono {ρ : Reading} {e e' : IExpr} {env : List Int} (h : ReadsWord ρ e env)
    (hsub : ∀ p ∈ collect e', p ∈ collect e) : ReadsWord ρ e' env :=
  ⟨h.access, fun p hp => h.pos p (hsub p hp)⟩

/-- What a re-rooted expression reads was read before. -/
theorem shiftPositions_reads {n : Nat} {e e' : IExpr} (hfree : ArrayFree e)
    (hle : ∀ p ∈ collect e, n ≤ p) (h : shiftPositions R e (-n) = .ok e') :
    ∀ p ∈ collect e', p + n ∈ collect e := by
  have hw : e.Within (fun q => shiftPos (-n) q + n ∈ collect e) (fun _ => False) := by
    refine ⟨fun q hq => ?_, arrayFree_iff.mp hfree⟩
    have hback : shiftPos (-n) q + n = q := by
      have := hle q hq
      unfold shiftPos
      omega
    exact hback.symm ▸ hq
  exact (shiftPositions_within (P := fun p => p + n ∈ collect e) hw (fun _ hq => hq) h).scalars

/-- Along the branches of a cut: through the head as it is, through the tail re-rooted,
across it with the least position put in. -/
theorem CutMarks.agrees {V W : Type} {wh : Nat} {marksH : IExpr → V → IExpr → Prop}
    {marksT : IExpr → W → IExpr → Prop} {frontH : V → List Int} {frontT : W → List Int}
    (hlen : ∀ v, (frontH v).length = wh)
    (vH : ∀ r w m, marksH (.var r) w m → ∃ v, m = .const v)
    (vT : ∀ r w m, marksT (.var r) w m → ∃ v, m = .const v)
    (hH : ∀ e v m ρ ρ', ArrayFree e → ReadsWord ρ e (frontH v) → marksH e v m → Agrees ρ ρ' e m)
    (hT : ∀ e w m ρ ρ', ArrayFree e → ReadsWord ρ e (frontT w) → marksT e w m → Agrees ρ ρ' e m)
    {e m : IExpr} {w : V × W} (h : CutMarks R wh marksH marksT e w m) :
    ∀ {ρ : Reading} (ρ' : Reading), ArrayFree e → ReadsWord ρ e (frontH w.1 ++ frontT w.2) →
      Agrees ρ ρ' e m := by
  induction h with
  | @ground e w hg =>
    intro ρ ρ' _ _
    exact .immediate (isConst_immediate hg)
  | @head e w m _ _ hlt hm =>
    intro ρ ρ' hfree hρ
    refine hH e w.1 m ρ ρ' hfree ⟨hρ.access, fun p hp => ?_⟩ hm
    have hp' : p < (frontH w.1).length := (hlen w.1).symm ▸ hlt p (mem_support.mpr hp)
    rw [hρ.pos p hp, List.getElem?_append_left hp']
  | @tail e e' w m _ _ hle hs hm =>
    intro ρ ρ' hfree hρ
    have hle' : ∀ p ∈ collect e, wh ≤ p := fun p hp => hle p (mem_support.mpr hp)
    have hreads := shiftPositions_reads hfree hle' hs
    have hword : ReadsWord (ρ.drop wh) e' (frontT w.2) := by
      refine ⟨hρ.access, fun p hp => (hρ.pos _ (hreads p hp)).trans ?_⟩
      rw [List.getElem?_append_right (by rw [hlen]; omega), hlen, Nat.add_sub_cancel]
    exact (shiftPositions_agrees (sameCells_drop hρ.access wh)
      ⟨hle', fun p hp => (arrayFree_iff.mp hfree p hp).elim⟩ hs).trans
      (hT e' w.2 m _ ρ' (shiftPositions_arrayFree hfree hs) hword hm)
  | @span e e' w r m m' _ hr _ _ _ hvar hsub _ ihvar ih =>
    intro ρ ρ' hfree hρ
    obtain ⟨v, rfl⟩ := hvar.var vH vT
    have hpos : ρ.pos r = some v := by
      have hread : ReadsWord ρ (.var r) _ := hρ.mono fun p hp =>
        List.mem_singleton.mp hp ▸ mem_support.mp hr
      exact ((ihvar ρ rfl hread).strict trivial).2.symm
    obtain ⟨hfree', hsup⟩ := subst_reads hfree hsub
    have hread' := hρ.mono fun p hp =>
      mem_support.mp (hsup p (mem_support.mpr hp)).1
    exact (subst_agrees hpos (.of_none hρ.access) e e' hsub).trans (ih ρ' hfree' hread')

/-- The marker of a word agrees with the expression read in the word. By induction on the
sort. -/
theorem Marks.agrees : (s : Shape) → ∀ (e : IExpr) (w : Word s) (m : IExpr) (ρ ρ' : Reading),
    ArrayFree e → ReadsWord ρ e (frontier s w) → Marks R s e w m → Agrees ρ ρ' e m
  | .unit => by
    rintro e w m ρ ρ' - - ⟨hg, rfl⟩
    exact .immediate (isConst_immediate hg)
  | .leaf => by
    rintro e w m ρ ρ' hfree hρ (⟨hg, rfl⟩ | ⟨-, hm⟩)
    · exact .immediate (isConst_immediate hg)
    · rw [markerOf_exact hρ hfree hm]
      exact .of_immediate (immediate_ofOutcome _) (exactInt_ofOutcome _ _)
  | .pair h t => fun _ _ _ _ ρ' hfree hρ hm =>
    CutMarks.agrees (length_frontier h) (Marks.var h) (Marks.var t) (Marks.agrees h)
      (Marks.agrees t) hm ρ' hfree hρ

end Marked

/-! ## The pieces -/

/-- The value of a marker: a machine value, or undefined. -/
theorem marker_outcome {m : IExpr} (hn : m.Normal) (hm : immediate m = true) :
    ∃ y : Option Int, m = ofOutcome y ∧ ∀ v ∈ y, InInt32 v := by
  cases m with
  | undef => exact ⟨none, rfl, by simp⟩
  | const v =>
    refine ⟨some v, rfl, fun w hw => ?_⟩
    cases hw
    exact hn
  | _ => cases hm

/-- What the pieces of a split of `d` by `e` are. -/
structure ExactSplit (R : ExprIds) (s : Shape) (d : Code s) (e : IExpr)
    (cs : List (IExpr × Code s)) : Prop where
  keys : (cs.map Prod.fst).Nodup
  nonempty : ∀ c ∈ cs, (den s c.2).Nonempty
  disjoint : cs.Pairwise fun c c' => Disjoint (den s c.2) (den s c'.2)
  cover : ∀ w, w ∈ den s d ↔ ∃ c ∈ cs, w ∈ den s c.2
  outcome : ∀ c ∈ cs, ∃ y : Option Int, c.1 = ofOutcome y ∧ ∀ v ∈ y, InInt32 v
  /-- a piece is the words whose currying comes to its marker -/
  marks : ∀ c ∈ cs, ∀ w, w ∈ den s c.2 ↔ w ∈ den s d ∧ Marks R s e w c.1
  /-- a word on which the expression has a value is in the piece of that value -/
  value : ∀ w ∈ den s d, ∀ v, evalInt (frontier s w) e = .ok (some v) →
    ∀ c ∈ cs, (w ∈ den s c.2 ↔ c.1 = .const v)
  /-- where nothing undefined can be dropped, undefined words are in the undefined piece -/
  strict : ∀ w ∈ den s d, ∀ x, evalInt (frontier s w) e = .ok x →
    e.Strict (.ofEnv (frontier s w)) → ∀ c ∈ cs, (w ∈ den s c.2 ↔ c.1 = ofOutcome x)

/-- Where the marker of a word is an outcome, its piece is the one of that outcome. -/
theorem mem_piece {R : ExprIds} {s : Shape} {e : IExpr} {cs : List (IExpr × Code s)}
    {w : Word s} {m : IExpr} (hkeys : (cs.map Prod.fst).Nodup)
    (hhas : ∀ c ∈ cs, ∀ w ∈ den s c.2, Marks R s e w c.1) (hw : ∃ c ∈ cs, w ∈ den s c.2)
    (hm : ∀ m', Marks R s e w m' → m' = m) :
    ∀ c ∈ cs, (w ∈ den s c.2 ↔ c.1 = m) := by
  intro c hc
  refine ⟨fun hwc => hm _ (hhas c hc w hwc), fun hcm => ?_⟩
  obtain ⟨c', hc', hwc'⟩ := hw
  have hkey : c'.1 = c.1 := (hm _ (hhas c' hc' w hwc')).trans hcm.symm
  rwa [← List.inj_on_of_nodup_map hkeys hc' hc hkey]

/-- What is asked of a split: pieces that are not empty, disjoint, cover the diagram and
carry different markers, the piece of a marker being the words on which `e` evaluates to it,
undefined included. -/
structure RightSplit (s : Shape) (d : Code s) (e : IExpr) (cs : List (IExpr × Code s)) : Prop where
  keys : (cs.map Prod.fst).Nodup
  nonempty : ∀ c ∈ cs, (den s c.2).Nonempty
  disjoint : cs.Pairwise fun c c' => Disjoint (den s c.2) (den s c'.2)
  cover : ∀ w, w ∈ den s d ↔ ∃ c ∈ cs, w ∈ den s c.2
  value : ∀ w ∈ den s d, ∀ x, evalInt (frontier s w) e = .ok x →
    ∀ c ∈ cs, (w ∈ den s c.2 ↔ c.1 = ofOutcome x)

theorem exactSplit_of_ok {N : Numbering} {R : ExprIds} {s : Shape} {d : Code s} {e : IExpr}
    (he : e.Normal) (hfree : ArrayFree e) (hd : Canon N s d) {cs : List (IExpr × Code s)}
    (hcs : splitEquiv N R s d e = .ok cs) : ExactSplit R s d e cs := by
  have hcl := splitEquiv_classes s d e cs he hd hcs
  have hdi := splitEquiv_distinct s d e cs he hd hcs
  have hagrees : ∀ w m, Marks R s e w m → Agrees (.ofEnv (frontier s w)) (.ofEnv []) e m :=
    fun w m => Marks.agrees s e w m _ _ hfree (.ofEnv e _)
  have hmarker : ∀ w ∈ den s d, ∀ m, Marks R s e w m → m = ofOutcome (exactInt (.ofEnv []) m) := by
    intro w hw m hm
    obtain ⟨c, hc, hwc⟩ := (hcl.cover w).mp hw
    rw [Marks.unique s e w m c.1 hm (hcl.has c hc w hwc)]
    exact immediate_exact _ (hcl.marker c hc).2
  refine ⟨hdi.keys, ?_, ?_, hcl.cover, ?_, ?_, ?_, ?_⟩
  · exact fun c hc => (laws N s).nonempty_of_ne_none (hcl.canon c hc) (hdi.ne_none c hc)
  · refine (List.pairwise_map.mp hdi.keys).imp_of_mem fun {c c'} hc hc' hne => ?_
    refine Set.disjoint_left.mpr fun w hw hw' => hne ?_
    exact Marks.unique s e w _ _ (hcl.has c hc w hw) (hcl.has c' hc' w hw')
  · exact fun c hc => marker_outcome (hcl.marker c hc).1 (hcl.marker c hc).2
  · intro c hc w
    refine ⟨fun hw => ⟨(hcl.cover w).mpr ⟨c, hc, hw⟩, hcl.has c hc w hw⟩, ?_⟩
    rintro ⟨hw, hm⟩
    exact (mem_piece hdi.keys hcl.has ((hcl.cover w).mp hw)
      (fun m' hm' => Marks.unique s e w m' c.1 hm' hm) c hc).mpr rfl
  · intro w hw v hv
    refine mem_piece hdi.keys hcl.has ((hcl.cover w).mp hw) fun m hm => ?_
    rw [hmarker w hw m hm, (hagrees w m hm).below v (evalInt_exact e _ hv)]
    rfl
  · intro w hw x hx hstrict
    refine mem_piece hdi.keys hcl.has ((hcl.cover w).mp hw) fun m hm => ?_
    rw [hmarker w hw m hm, ((hagrees w m hm).strict hstrict).2, evalInt_exact e x hx]

/-- The split of a diagram returns exactly when the currying of each of its words does,
and then its pieces are the words of each outcome; they are the right ones exactly when each
word curries to its own value. -/
theorem splitEquiv_exact (N : Numbering) (R : ExprIds) (s : Shape) (d : Code s) (e : IExpr)
    (he : e.Normal) (hfree : ArrayFree e) (hd : Canon N s d) :
    ((∃ cs, splitEquiv N R s d e = .ok cs) ↔ ∀ w ∈ den s d, ∃ m, Marks R s e w m) ∧
      (∀ cs, splitEquiv N R s d e = .ok cs → ExactSplit R s d e cs) ∧
      ((∀ w ∈ den s d, ∃ x, evalInt (frontier s w) e = .ok x) →
        ((∃ cs, splitEquiv N R s d e = .ok cs ∧ RightSplit s d e cs) ↔
          ∀ w ∈ den s d, ∃ x, evalInt (frontier s w) e = .ok x ∧ Marks R s e w (ofOutcome x))) := by
  have hexact : ∀ cs, splitEquiv N R s d e = .ok cs → ExactSplit R s d e cs :=
    fun cs => exactSplit_of_ok he hfree hd
  have hreturns := splitEquiv_returns (R := R) he hfree hd
  refine ⟨hreturns, hexact, fun hvalues => ⟨?_, fun hcurries => ?_⟩⟩
  · rintro ⟨cs, hcs, hright⟩ w hw
    obtain ⟨x, hx⟩ := hvalues w hw
    obtain ⟨c, hc, hwc⟩ := (hright.cover w).mp hw
    refine ⟨x, hx, ?_⟩
    rw [← (hright.value w hw x hx c hc).mp hwc]
    exact (((hexact cs hcs).marks c hc w).mp hwc).2
  · obtain ⟨cs, hcs⟩ := hreturns.mpr fun w hw =>
      let ⟨x, _, hm⟩ := hcurries w hw
      ⟨ofOutcome x, hm⟩
    have hsplit := hexact cs hcs
    refine ⟨cs, hcs, hsplit.keys, hsplit.nonempty, hsplit.disjoint, hsplit.cover,
      fun w hw x hx c hc => ?_⟩
    obtain ⟨x', hx', hm⟩ := hcurries w hw
    obtain rfl := Except.ok.inj (hx.symm.trans hx')
    refine ⟨fun hwc => ?_, fun hcx => (hsplit.marks c hc w).mpr ⟨hw, hcx ▸ hm⟩⟩
    exact Marks.unique s e w _ _ ((hsplit.marks c hc w).mp hwc).2 hm

/-- A rectangle of values. -/
def valueBox (xs ys : List Int) : Code (.pair .leaf .leaf) := [(⟨xs, ys⟩ : Arc IntSet IntSet)]

theorem valueBox_canon {xs ys : List Int} (hx : IntSet.Canon xs) (hy : IntSet.Canon ys)
    (hxn : xs ≠ []) (hyn : ys ≠ []) : Canon .standard (.pair .leaf .leaf) (valueBox xs ys) :=
  (Manager.standard 0 0).canon_single (h := .leaf) (t := .leaf) hx hy hxn hyn

/-- `x / y` on a square that holds the divisor zero: two pieces, and each word curries to its
own value. -/
theorem splitEquiv_exact_quotient :
    let R : ExprIds := ⟨fun _ => 0, fun _ => 0⟩
    let e : IExpr := .binary .div (.var 0) (.var 1)
    let d := valueBox [0, 3] [0, 1]
    ((∃ cs, splitEquiv .standard R (.pair .leaf .leaf) d e = .ok cs) ↔
      ∀ w ∈ den (.pair .leaf .leaf) d, ∃ m, Marks R (.pair .leaf .leaf) e w m) ∧
    ExactSplit R (.pair .leaf .leaf) d e
      [(.undef, valueBox [0, 3] [0]), (.const 0, valueBox [0] [1]), (.const 3, valueBox [3] [1])] ∧
    ((∃ cs, splitEquiv .standard R (.pair .leaf .leaf) d e = .ok cs ∧
        RightSplit (.pair .leaf .leaf) d e cs) ↔
      ∀ w ∈ den (.pair .leaf .leaf) d, ∃ x, evalInt (frontier (.pair .leaf .leaf) w) e = .ok x ∧
        Marks R (.pair .leaf .leaf) e w (ofOutcome x)) := by
  intro R e d
  have hd : Canon .standard (.pair .leaf .leaf) d :=
    valueBox_canon (by decide) (by decide) (by decide) (by decide)
  have he : e.Normal := by simp [e, IExpr.Normal, isValue]
  obtain ⟨hret, hexact, hright⟩ := splitEquiv_exact .standard R (.pair .leaf .leaf) d e he rfl hd
  refine ⟨hret, hexact _ (by decide +kernel), hright fun w hw => ?_⟩
  obtain ⟨a, ha, hx, hy⟩ := (mem_nodeDen (den .leaf) (den .leaf)).mp hw
  obtain rfl := List.mem_singleton.mp ha
  obtain ⟨x, y⟩ := w
  have hsquare : ∀ u ∈ ([0, 3] : List Int), ∀ v ∈ ([0, 1] : List Int),
      evalInt [u, v] e = .ok none ∨ evalInt [u, v] e = .ok (some (u.tdiv v)) := by decide
  exact (hsquare x hx y hy).elim (fun h => ⟨_, h⟩) fun h => ⟨_, h⟩

/-- `x * (1 / y)` at zero is undefined, and the split has the word in the piece of zero,
since the least position goes in first. `x + 1 + y` at the greatest machine value and -1
evaluates without overflow, and currying does not. `x * y + 2^30` at zero folds, as soon as
`x` is put in, to a constant too wide to be inline, at a pair. -/
theorem splitEquiv_curries : ∃ (N : Numbering) (R : ExprIds) (e wide sum : IExpr),
    (e.Normal ∧ ArrayFree e ∧ Canon N (.pair .leaf .leaf) (valueBox [0] [0]) ∧
      evalInt [0, 0] e = .ok none ∧
      splitEquiv N R (.pair .leaf .leaf) (valueBox [0] [0]) e =
        .ok [(.const 0, valueBox [0] [0])]) ∧
    (sum.Normal ∧ ArrayFree sum ∧ Canon N (.pair .leaf .leaf) (valueBox [2147483647] [-1]) ∧
      evalInt [2147483647, -1] sum = .ok (some 2147483647) ∧
      splitEquiv N R (.pair .leaf .leaf) (valueBox [2147483647] [-1]) sum = .error .overflow) ∧
    wide.Normal ∧ ArrayFree wide ∧ evalInt [0, 0] wide = .ok (some 1073741824) ∧
      splitEquiv N R (.pair .leaf .leaf) (valueBox [0] [0]) wide = .error .undefinedBehaviour := by
  refine ⟨.standard, ⟨fun _ => 0, fun _ => 0⟩,
    .nary .mult [.var 0, .binary .div (.const 1) (.var 1)],
    .nary .plus [.nary .mult [.var 0, .var 1], .const 1073741824],
    .nary .plus [.var 0, .const 1, .var 1], ⟨?_, rfl, ?_, rfl, ?_⟩, ⟨?_, rfl, ?_, rfl, ?_⟩,
    ?_, rfl, rfl, ?_⟩
  · simp [IExpr.Normal, IExpr.NormalList, InInt32, isValue]
  · exact valueBox_canon (by decide) (by decide) (by decide) (by decide)
  · decide +kernel
  · simp [IExpr.Normal, IExpr.NormalList, InInt32, isValue]
    decide
  · exact valueBox_canon (by decide) (by decide) (by decide) (by decide)
  · decide +kernel
  · simp [IExpr.Normal, IExpr.NormalList, InInt32, isValue]
  · decide +kernel

end LibHSC
