import LibHSC.Outcome

/-!
The sum of the events of a sort in head-folded normal form, and the product of local terms
that the shape assembles.

`Sums` says of a term what the sum is for: it returns where every summand does, with the
words of all of them. Each step of the fold keeps it (flattening, the regrouping of
one-sided wrappers, the descent into a side), so `sumAt_sums` is an induction on the sort.
-/

namespace LibHSC

open Lia

/-! ## The definitions -/

/-- The summands that are not one-sided: `id`, and every term that is no wrapper. -/
def restOf {H T D : Type} (idH : H → Bool) (idT : T → Bool) :
    List (OpTerm H T D) → List (OpTerm H T D)
  | [] => []
  | .node h t :: es => if idH h ∨ idT t then restOf idH idT es else .node h t :: restOf idH idT es
  | e :: es => e :: restOf idH idT es

section Sides

variable {h t : Shape}

def flattenAt (events : List (Term (.pair h t))) : List (Term (.pair h t)) := flattenAll events

def restAt (flat : List (Term (.pair h t))) : List (Term (.pair h t)) :=
  restOf (Term.isId h) (Term.isId t) flat

def belowAt (flat : List (Term (.pair h t))) : List (Term t) := belowOf (Term.isId h) flat

def edgeAt (flat : List (Term (.pair h t))) : List (Term h) :=
  edgeOf (Term.isId h) (Term.isId t) flat

end Sides

/-- The one wrapper of the tail-only summands, when there are some. -/
def belowSum {h t : Shape} (fold : List (Term t) → Term t) (below : List (Term t)) :
    List (Term (.pair h t)) :=
  if below = [] then [] else [Term.node (Term.id h) (fold below)]

/-- The one wrapper of the head-only summands, when there are some. -/
def edgeSum {h t : Shape} (fold : List (Term h) → Term h) (edge : List (Term h)) :
    List (Term (.pair h t)) :=
  if edge = [] then [] else [Term.node (fold edge) (Term.id t)]

/-- The sum at a pair: what is kept whole, then the two folded wrappers. -/
def sumSides (m : Manager) (h t : Shape) (rest below edge : List (Term (.pair h t))) :
    Term (.pair h t) :=
  Term.sumAll m (rest ++ below ++ edge)

/-- `sum_at`: nested sums are flattened, one-sided wrappers folded per side, recursively. -/
def sumAt (m : Manager) : (s : Shape) → List (Term s) → Term s
  | .unit, [] => Term.id .unit
  | .unit, e :: es => es.foldl (Term.sum m .unit) e
  | .leaf, [] => Term.id .leaf
  | .leaf, e :: es => es.foldl (Term.sum m .leaf) e
  | .pair h t, events =>
    let flat := flattenAt events
    sumSides m h t (restAt flat) (belowSum (sumAt m t) (belowAt flat))
      (edgeSum (sumAt m h) (edgeAt flat))

/-- The term of the leaf terms at the front of a list, and the leaf terms not yet read.
Head before tail: the frontier is read left to right. -/
def productAt : (s : Shape) → List IntTerm → Term s × List IntTerm
  | .unit, byLeaf => (Term.id .unit, byLeaf)
  | .leaf, [] => (IntTerm.id, [])
  | .leaf, l :: rest => (l, rest)
  | .pair h t, byLeaf =>
    let head := productAt h byLeaf
    let tail := productAt t head.2
    (Term.node head.1 tail.1, tail.2)

/-- The term applying `byLeaf[k]` at the `k`-th leaf. -/
def product (s : Shape) (byLeaf : List IntTerm) : Term s := (productAt s byLeaf).1

/-! ## Sums as the operation table holds them -/

namespace OpTerm

variable {H T D : Type}

mutual

/-- What the table interns: no empty sum, which is `id`, and no other term that its
constructors collapse. -/
def Interned (nodeI : H → T → Prop) : OpTerm H T D → Prop
  | .id => True
  | .node h t => nodeI h t
  | .sum terms => terms ≠ [] ∧ AllInterned nodeI terms
  | .compose after before => Interned nodeI after ∧ Interned nodeI before
  | .lfp h => Interned nodeI h
  | .gfp h => Interned nodeI h
  | .within _ => True
  | .saturate f l g => Interned nodeI f ∧ Interned nodeI l ∧ AllInterned nodeI g
  | .expr _ _ => True

def AllInterned (nodeI : H → T → Prop) : List (OpTerm H T D) → Prop
  | [] => True
  | t :: ts => Interned nodeI t ∧ AllInterned nodeI ts

end

theorem allInterned_iff {nodeI : H → T → Prop} {terms : List (OpTerm H T D)} :
    AllInterned nodeI terms ↔ ∀ t ∈ terms, Interned nodeI t := by
  induction terms with
  | nil => simp [AllInterned]
  | cons t ts ih => simp [AllInterned, ih]

end OpTerm

def Term.Interned : (s : Shape) → Term s → Prop
  | .unit => OpTerm.Interned fun _ _ => True
  | .leaf => fun _ => True
  | .pair h t => OpTerm.Interned fun a b => ¬(Term.isId h a = true ∧ Term.isId t b = true) ∧
      Term.Interned h a ∧ Term.Interned t b

/-! ## The outcome of a sum -/

namespace OpTerm

section Outcome

variable {H T D W : Type} [DecidableEq D] {A : SupportAlgebra D}
  {nodeApply : H → T → D → Except Err D} {cases : BExpr → List Assign → D → Except Err D}
  {den : D → Set W} {Canon : D → Prop} {nodeWF nodeAdd : H → T → Prop}
  {nodeRel : H → T → W → W → Prop} {exprWF : BExpr → List Assign → Prop}
  {exprRel : BExpr → List Assign → W → W → Prop} {fuel : Nat}

/-- Absence is never dispatched on. -/
theorem apply_none (t : OpTerm H T D) : apply A nodeApply cases fuel t A.none = .ok A.none := by
  cases t with
  | id => rfl
  | _ =>
    rw [apply, if_pos rfl]

theorem applySum_returns {d : D} : ∀ {ts : List (OpTerm H T D)} {acc : D},
    (∃ r, applySum A nodeApply cases fuel ts d acc = .ok r) ↔
      ∀ t ∈ ts, ∃ r, apply A nodeApply cases fuel t d = .ok r := by
  intro ts
  induction ts with
  | nil => exact fun {acc} => ⟨fun _ t ht => (nomatch ht), fun _ => ⟨acc, rfl⟩⟩
  | cons t ts ih =>
    intro acc
    rw [List.forall_mem_cons, applySum]
    constructor
    · rintro ⟨r, hr⟩
      obtain ⟨x, hx, hr⟩ := bind_eq_ok.mp hr
      exact ⟨⟨x, hx⟩, ih.mp ⟨r, hr⟩⟩
    · rintro ⟨⟨x, hx⟩, hts⟩
      obtain ⟨r, hr⟩ := ih.mpr hts
      exact ⟨r, bind_of_ok hx hr⟩

theorem sum_returns {d : D} {ts : List (OpTerm H T D)} :
    (∃ r, apply A nodeApply cases fuel (.sum ts) d = .ok r) ↔
      ∀ t ∈ ts, ∃ r, apply A nodeApply cases fuel t d = .ok r := by
  rw [apply]
  by_cases hd : d = A.none
  · subst hd
    rw [if_pos rfl]
    exact ⟨fun _ t _ => ⟨_, apply_none t⟩, fun _ => ⟨_, rfl⟩⟩
  · rw [if_neg hd]
    exact applySum_returns

variable (L : SortLaws A nodeApply cases den Canon nodeWF nodeAdd nodeRel exprWF exprRel)

include L

theorem applySum_out {d : D} (hd : Canon d) : ∀ {ts : List (OpTerm H T D)} {acc r : D},
    (∀ t ∈ ts, WF nodeWF exprWF Canon t) → Canon acc →
    applySum A nodeApply cases fuel ts d acc = .ok r →
    ∀ w, w ∈ den r ↔ w ∈ den acc ∨
      ∃ t ∈ ts, ∃ x, apply A nodeApply cases fuel t d = .ok x ∧ w ∈ den x := by
  intro ts
  induction ts with
  | nil =>
    intro acc r _ _ hr w
    cases hr
    simp
  | cons t ts ih =>
    intro acc r hw ha hr w
    obtain ⟨hwt, hws⟩ := List.forall_mem_cons.mp hw
    obtain ⟨x, hx, hr⟩ := bind_eq_ok.mp hr
    have hxc := apply_canon L t d x hwt hd hx
    rw [ih hws (L.support.canon_join ha hxc) hr w, L.support.den_join ha hxc, Set.mem_union,
      or_assoc, List.exists_mem_cons_iff]
    simp only [hx, Except.ok.injEq, exists_eq_left']

theorem sum_out {d r : D} (hd : Canon d) {ts : List (OpTerm H T D)}
    (hw : ∀ t ∈ ts, WF nodeWF exprWF Canon t)
    (hr : apply A nodeApply cases fuel (.sum ts) d = .ok r) (w : W) :
    w ∈ den r ↔ ∃ t ∈ ts, ∃ x, apply A nodeApply cases fuel t d = .ok x ∧ w ∈ den x := by
  rw [apply] at hr
  by_cases hn : d = A.none
  · subst hn
    rw [if_pos rfl] at hr
    cases hr
    simp only [apply_none, Except.ok.injEq, exists_eq_left', L.support.den_none]
    simp
  · rw [if_neg hn] at hr
    rw [applySum_out L hd hw L.support.canon_none hr w, L.support.den_none]
    simp

end Outcome

end OpTerm

/-! ## The split of the summands -/

section Split

variable {H T D : Type}

theorem flattenAll_eq_flatMap (ts : List (OpTerm H T D)) :
    flattenAll ts = ts.flatMap flattenInto := by
  induction ts with
  | nil => rfl
  | cons t ts ih => rw [flattenAll, ih, List.flatMap_cons]

mutual

theorem flattenInto_ne_nil {nodeI : H → T → Prop} : (e : OpTerm H T D) → e.Interned nodeI →
    flattenInto e ≠ []
  | .sum ts, hi => by
    rw [flattenInto]
    exact flattenAll_ne_nil ts hi.1 hi.2
  | .id, _ => List.cons_ne_nil _ _
  | .node _ _, _ => List.cons_ne_nil _ _
  | .compose _ _, _ => List.cons_ne_nil _ _
  | .lfp _, _ => List.cons_ne_nil _ _
  | .gfp _, _ => List.cons_ne_nil _ _
  | .within _, _ => List.cons_ne_nil _ _
  | .saturate _ _ _, _ => List.cons_ne_nil _ _
  | .expr _ _, _ => List.cons_ne_nil _ _

theorem flattenAll_ne_nil {nodeI : H → T → Prop} : (ts : List (OpTerm H T D)) → ts ≠ [] →
    OpTerm.AllInterned nodeI ts → flattenAll ts ≠ []
  | [], hne, _ => (hne rfl).elim
  | t :: _, _, hi => by
    rw [flattenAll]
    exact List.append_ne_nil_of_left_ne_nil (flattenInto_ne_nil t hi.1) _

end

variable {idH : H → Bool} {idT : T → Bool}

theorem mem_restOf {e : OpTerm H T D} {es : List (OpTerm H T D)} :
    e ∈ restOf idH idT es ↔ e ∈ es ∧ ∀ h t, e = .node h t → ¬(idH h = true ∨ idT t = true) := by
  induction es with
  | nil => simp [restOf]
  | cons x xs ih =>
    cases x with
    | node h t =>
      unfold restOf
      split
      · next hid =>
        rw [ih, List.mem_cons]
        constructor
        · rintro ⟨he, hn⟩
          exact ⟨Or.inr he, hn⟩
        · rintro ⟨rfl | he, hn⟩
          · exact absurd hid (hn h t rfl)
          · exact ⟨he, hn⟩
      · next hid =>
        rw [List.mem_cons, ih, List.mem_cons]
        constructor
        · rintro (rfl | ⟨he, hn⟩)
          · refine ⟨Or.inl rfl, fun h' t' heq => ?_⟩
            cases heq
            exact hid
          · exact ⟨Or.inr he, hn⟩
        · rintro ⟨rfl | he, hn⟩
          · exact Or.inl rfl
          · exact Or.inr ⟨he, hn⟩
    | _ =>
      unfold restOf
      rw [List.mem_cons, ih, List.mem_cons]
      constructor
      · rintro (rfl | ⟨he, hn⟩)
        · exact ⟨Or.inl rfl, fun h' t' heq => nomatch heq⟩
        · exact ⟨Or.inr he, hn⟩
      · rintro ⟨rfl | he, hn⟩
        · exact Or.inl rfl
        · exact Or.inr ⟨he, hn⟩

end Split

/-! ## Terms that come to a union -/

namespace Manager

variable (m : Manager)

theorem pairLaws (h t : Shape) : OpTerm.SortLaws (m.algebra (.pair h t))
    (applyNode (m.algebra h) (m.algebra t) (m.terms h) (m.terms t)) (m.cases (.pair h t))
    (den (.pair h t)) (m.Canon (.pair h t)) (fun a b => m.WF h a ∧ m.WF t b)
    (fun a b => Term.Additive m.brackets h a ∧ Term.Additive m.brackets t b)
    (nodeRel (m.rel h) (m.rel t)) CaseNormal (m.brackets (.pair h t)) :=
  sortLaws_pair (caseEngine_laws m.numbering m.exprs m.fuel m.depth) (m.termLaws h) (m.termLaws t)

theorem unitLaws : OpTerm.SortLaws (m.algebra .unit) (fun h : Empty => h.elim) (m.cases .unit)
    (den .unit) (m.Canon .unit) (fun (_ _ : Empty) => True) (fun _ _ => True)
    (fun h _ _ _ => h.elim) CaseNormal (m.brackets .unit) :=
  sortLaws_unit (caseEngine_laws m.numbering m.exprs m.fuel m.depth)

theorem apply_of_isId (s : Shape) (t : Term s) (c : Code s)
    (h : (m.terms s).isId t = true) : (m.terms s).apply t c = .ok c :=
  termAlgebra_isId m.numbering m.cases m.fuel s t c h

theorem apply_id (s : Shape) (c : Code s) : (m.terms s).apply (Term.id s) c = .ok c := by
  cases s with
  | unit => rfl
  | leaf => rfl
  | pair h t => rfl

end Manager

/-- A term that comes to the union of a list of terms: it returns where all of them do,
with the words of all of them. -/
structure Sums (m : Manager) (s : Shape) (t : Term s) (ts : List (Term s)) : Prop where
  wf : m.WF s t
  returns : ∀ c, m.Canon s c → ((m.terms s).Returns t c ↔ ∀ e ∈ ts, (m.terms s).Returns e c)
  out : ∀ c, m.Canon s c → (m.terms s).Returns t c →
    (m.terms s).out (den s) t c = {w | ∃ e ∈ ts, w ∈ (m.terms s).out (den s) e c}

namespace Sums

variable {m : Manager} {s : Shape}

theorem single {t : Term s} (hw : m.WF s t) : Sums m s t [t] :=
  ⟨hw, by simp, by simp⟩

theorem congr {t : Term s} {ts ts' : List (Term s)} (h : Sums m s t ts)
    (hmem : ∀ e, e ∈ ts ↔ e ∈ ts') : Sums m s t ts' := by
  refine ⟨h.wf, fun c hc => (h.returns c hc).trans ?_, fun c hc hr => (h.out c hc hr).trans ?_⟩
  · exact forall_congr' fun e => by rw [hmem e]
  · ext w
    exact exists_congr fun e => by rw [hmem e]

/-- The one term of a list. -/
theorem only {t : Term s} {ts : List (Term s)} (hw : m.WF s t) (hmem : t ∈ ts)
    (hall : ∀ e ∈ ts, e = t) : Sums m s t ts :=
  (single hw).congr fun e => List.mem_singleton.trans ⟨fun he => he ▸ hmem, hall e⟩

theorem twice {t : Term s} (hw : m.WF s t) : Sums m s t [t, t] :=
  only hw List.mem_cons_self (by simp)

/-- A summand stands for the terms it comes to. -/
theorem flatMap_iff {t : Term s} {ts : List (Term s)} {f : Term s → List (Term s)}
    (hf : ∀ e ∈ ts, Sums m s e (f e)) : Sums m s t (ts.flatMap f) ↔ Sums m s t ts := by
  have hret : ∀ c, m.Canon s c → ((∀ e ∈ ts.flatMap f, (m.terms s).Returns e c) ↔
      ∀ e ∈ ts, (m.terms s).Returns e c) := by
    intro c hc
    simp only [List.mem_flatMap, forall_exists_index, and_imp]
    constructor
    · intro hall x hx
      exact ((hf x hx).returns c hc).mpr fun e he => hall e x hx he
    · intro hall e x hx he
      exact ((hf x hx).returns c hc).mp (hall x hx) e he
  have hout : ∀ c, m.Canon s c → (∀ e ∈ ts, (m.terms s).Returns e c) → ∀ w,
      ((∃ e ∈ ts.flatMap f, w ∈ (m.terms s).out (den s) e c) ↔
        ∃ e ∈ ts, w ∈ (m.terms s).out (den s) e c) := by
    intro c hc hall w
    simp only [List.mem_flatMap]
    constructor
    · rintro ⟨e, ⟨x, hx, he⟩, hw⟩
      refine ⟨x, hx, ?_⟩
      rw [(hf x hx).out c hc (hall x hx)]
      exact ⟨e, he, hw⟩
    · rintro ⟨x, hx, hw⟩
      rw [(hf x hx).out c hc (hall x hx)] at hw
      obtain ⟨e, he, hw⟩ := hw
      exact ⟨e, ⟨x, hx, he⟩, hw⟩
  constructor
  · intro h
    refine ⟨h.wf, fun c hc => (h.returns c hc).trans (hret c hc), fun c hc hr => ?_⟩
    rw [h.out c hc hr]
    exact Set.ext (hout c hc ((hret c hc).mp ((h.returns c hc).mp hr)))
  · intro h
    refine ⟨h.wf, fun c hc => (h.returns c hc).trans (hret c hc).symm, fun c hc hr => ?_⟩
    rw [h.out c hc hr]
    exact Set.ext fun w => (hout c hc ((h.returns c hc).mp hr) w).symm

/-- One summand among others stands for the terms it comes to. -/
theorem replace {t b : Term s} {as bs cs : List (Term s)} (h : Sums m s t (as ++ b :: cs))
    (hb : Sums m s b bs) : Sums m s t (as ++ bs ++ cs) := by
  refine ⟨h.wf, fun c hc => (h.returns c hc).trans ?_, fun c hc hr => (h.out c hc hr).trans ?_⟩
  · simp only [List.forall_mem_append, List.forall_mem_cons, hb.returns c hc, and_assoc]
  · have hrb := (h.returns c hc).mp hr b (List.mem_append_right _ List.mem_cons_self)
    ext w
    have hout := Set.ext_iff.mp (hb.out c hc hrb) w
    simp only [Set.mem_ofPred_eq] at hout
    simp only [Set.mem_ofPred_eq, List.mem_append, List.mem_cons, or_and_right, exists_or,
      exists_eq_left, hout, or_assoc]

theorem pair {t a b : Term s} (hw : m.WF s t) (hret : ∀ c, m.Canon s c →
      ((m.terms s).Returns t c ↔ (m.terms s).Returns a c ∧ (m.terms s).Returns b c))
    (hout : ∀ c x y r, m.Canon s c → m.apply s a c = .ok x → m.apply s b c = .ok y →
      m.apply s t c = .ok r → den s r = den s x ∪ den s y) : Sums m s t [a, b] := by
  refine ⟨hw, fun c hc => (hret c hc).trans ?_, fun c hc hr => ?_⟩
  · rw [List.forall_mem_cons, List.forall_mem_singleton]
  · obtain ⟨⟨x, hx⟩, y, hy⟩ := (hret c hc).mp hr
    obtain ⟨r, hr⟩ := hr
    rw [TermAlgebra.out_eq (den s) hr, hout c x y r hc hx hy hr]
    ext w
    simp only [Set.mem_ofPred_eq, List.exists_mem_cons_iff, TermAlgebra.out_eq (den s) hx,
      TermAlgebra.out_eq (den s) hy]
    simp

end Sums

section Build

variable {m : Manager}

theorem sums_sum {h t : Shape} {ts : List (Term (.pair h t))}
    (hw : ∀ e ∈ ts, m.WF (.pair h t) e) : Sums m (.pair h t) (OpTerm.sum ts) ts where
  wf := (OpTerm.wfAll_iff _ _ _).mpr hw
  returns := fun _ _ => OpTerm.sum_returns
  out := fun c hc ⟨r, hr⟩ => by
    rw [TermAlgebra.out_eq _ hr]
    ext w
    exact OpTerm.sum_out (m.pairLaws h t) hc hw hr w

theorem sums_sumAll {h t : Shape} {ts : List (Term (.pair h t))} (hne : ts ≠ [])
    (hw : ∀ e ∈ ts, m.WF (.pair h t) e) : Sums m (.pair h t) (Term.sumAll m ts) ts := by
  rcases OpTerm.mkSum_cases (m.termIds (.pair h t)) hne with ⟨hmem, hall⟩ | ⟨us, heq, hmem⟩
  · exact Sums.only (hw _ hmem) hmem hall
  · have hus : Sums m (.pair h t) (OpTerm.sum us) us :=
      sums_sum fun e he => hw e ((hmem e).mp he)
    have hsum : Term.sumAll m ts = OpTerm.sum us := heq
    rw [hsum]
    exact hus.congr hmem

theorem sums_unit {a b : Term .unit} (ha : m.WF .unit a) (hb : m.WF .unit b) :
    Sums m .unit (Term.sum m .unit a b) [a, b] := by
  have hw : ∀ e ∈ [a, b], m.WF .unit e :=
    List.forall_mem_cons.mpr ⟨ha, List.forall_mem_singleton.mpr hb⟩
  rcases OpTerm.mkSum_cases (m.termIds .unit) (List.cons_ne_nil a [b]) with
    ⟨hmem, hall⟩ | ⟨us, heq, hmem⟩
  · exact Sums.only (hw _ hmem) hmem hall
  · have hwu : ∀ e ∈ us, m.WF .unit e := fun e he => hw e ((hmem e).mp he)
    have hus : Sums m .unit (OpTerm.sum us) us :=
      { wf := (OpTerm.wfAll_iff _ _ _).mpr hwu
        returns := fun _ _ => OpTerm.sum_returns
        out := fun c hc ⟨r, hr⟩ => by
          rw [TermAlgebra.out_eq _ hr]
          ext w
          exact OpTerm.sum_out m.unitLaws hc hwu hr w }
    have hsum : Term.sum m .unit a b = OpTerm.sum us := heq
    rw [hsum]
    exact hus.congr hmem

theorem sums_leaf_sum {a b : IntTerm} (ha : a.WF) (hb : b.WF) :
    Sums m .leaf (IntTerm.sum a b) [a, b] := by
  have hret : ∀ c : IntSet, (∃ r, IntTerm.apply m.fuel (.sum a b) c = .ok r) ↔
      (∃ r, IntTerm.apply m.fuel a c = .ok r) ∧ ∃ r, IntTerm.apply m.fuel b c = .ok r := by
    intro c
    rw [IntTerm.apply]
    by_cases hc : c = []
    · subst hc
      rw [if_pos rfl]
      exact ⟨fun _ => ⟨⟨_, IntTerm.apply_nil a⟩, _, IntTerm.apply_nil b⟩, fun _ => ⟨_, rfl⟩⟩
    · rw [if_neg hc]
      constructor
      · rintro ⟨r, hr⟩
        obtain ⟨x, hx, hr⟩ := bind_eq_ok.mp hr
        obtain ⟨y, hy, -⟩ := bind_eq_ok.mp hr
        exact ⟨⟨x, hx⟩, y, hy⟩
      · rintro ⟨⟨x, hx⟩, y, hy⟩
        rw [hx, hy]
        exact ⟨_, rfl⟩
  have L := IntTerm.laws m.fuel
  refine Sums.pair ⟨ha, hb⟩ (fun c _ => hret c) fun c x y r hc hx hy hr => ?_
  have h1 := L.den_apply (t := .sum a b) ⟨ha, hb⟩ trivial hc hr
  have h2 := L.den_apply ha trivial hc hx
  have h3 := L.den_apply hb trivial hc hy
  refine (h1.trans ?_).trans (congrArg₂ (· ∪ ·) h2 h3).symm
  ext w
  simp only [mem_post, IntTerm.rel, and_or_left, exists_or, Set.mem_union]

theorem sums_leaf {a b : IntTerm} (ha : a.WF) (hb : b.WF) :
    Sums m .leaf (Term.sum m .leaf a b) [a, b] := by
  show Sums m .leaf (IntTerm.termSum (m.termIds .leaf) a b) [a, b]
  unfold IntTerm.termSum
  split
  · next h =>
    subst h
    exact Sums.twice ha
  · split
    · exact (sums_leaf_sum hb ha).congr fun e => (List.Perm.swap a b []).mem_iff
    · exact sums_leaf_sum ha hb

/-- The theory's sum of a list, one term after the other. -/
theorem sums_foldl {s : Shape}
    (hsum : ∀ a b : Term s, m.WF s a → m.WF s b → Sums m s (Term.sum m s a b) [a, b]) :
    ∀ {es : List (Term s)} {a : Term s} {as : List (Term s)}, Sums m s a as →
      (∀ e ∈ es, m.WF s e) → Sums m s (es.foldl (Term.sum m s) a) (as ++ es) := by
  intro es
  induction es with
  | nil =>
    intro a as ha _
    rw [List.append_nil]
    exact ha
  | cons e es ih =>
    intro a as ha hes
    obtain ⟨he, hes⟩ := List.forall_mem_cons.mp hes
    have hnext : Sums m s (Term.sum m s a e) ([] ++ as ++ [e]) :=
      Sums.replace (hsum a e ha.wf he) ha
    have hrec := ih hnext hes
    rw [List.nil_append, List.append_assoc] at hrec
    exact hrec

/-! ### Wrappers -/

/-- The arcs of a diagram of a composite sort. -/
def arcs {h t : Shape} (c : Code (.pair h t)) : List (Arc (Code h) (Code t)) := c

theorem node_cases {h t : Shape} (a : Term h) (b : Term t) :
    (a = Term.id h ∧ b = Term.id t ∧ Term.node a b = Term.id (.pair h t)) ∨
      Term.node a b = OpTerm.node a b := by
  unfold Term.node OpTerm.mkNode
  split
  · next hid =>
    obtain ⟨h1, h2⟩ := Bool.and_eq_true_iff.mp hid
    exact Or.inl ⟨(Term.isId_eq h).mp h1, (Term.isId_eq t).mp h2, rfl⟩
  · exact Or.inr rfl

theorem node_wf {h t : Shape} {a : Term h} {b : Term t} (ha : m.WF h a) (hb : m.WF t b) :
    m.WF (.pair h t) (Term.node a b) := by
  rcases node_cases a b with ⟨-, -, heq⟩ | heq
  · rw [heq]
    exact (denotes_id (.pair h t)).wf
  · rw [heq]
    exact ⟨ha, hb⟩

theorem out_id (s : Shape) (c : Code s) : (m.terms s).out (den s) (Term.id s) c = den s c :=
  TermAlgebra.out_eq _ (m.apply_id s c)

theorem apply_node {h t : Shape} (a : Term h) (b : Term t) (c : Code (.pair h t)) :
    m.apply (.pair h t) (OpTerm.node a b) c =
      applyNode (m.algebra h) (m.algebra t) (m.terms h) (m.terms t) a b (arcs c) := by
  by_cases hn : c = (m.algebra (.pair h t)).none
  · subst hn
    exact (OpTerm.apply_none _).trans (applyNode_nil (m.algebra h) (m.algebra t)
      (m.terms h) (m.terms t) a b).symm
  · exact if_neg hn

/-- A node term returns, and comes to, what its two sides do arc by arc; the collapse of
`node(id, id)` is no exception. -/
theorem node_returns {h t : Shape} {a : Term h} {b : Term t} (ha : m.WF h a) (hb : m.WF t b)
    {c : Code (.pair h t)} (hc : m.Canon (.pair h t) c) :
    (m.terms (.pair h t)).Returns (Term.node a b) c ↔
      NodeReturns (m.terms h) (m.terms t) (den h) a b (arcs c) := by
  rcases node_cases a b with ⟨rfl, rfl, heq⟩ | heq
  · refine ⟨fun _ x _ => ⟨⟨_, m.apply_id h _⟩, fun _ => ⟨_, m.apply_id t _⟩⟩, fun _ => ?_⟩
    rw [heq]
    exact ⟨c, m.apply_id (.pair h t) c⟩
  · have hret := applyNode_returns (m.laws h) (m.laws t) (m.termLaws h) (m.termLaws t)
      (m.apply_of_isId h) ha hb hc
    rw [heq]
    refine Iff.trans (exists_congr fun r => ?_) hret
    exact ⟨(apply_node a b c).symm.trans, (apply_node a b c).trans⟩

theorem node_out {h t : Shape} {a : Term h} {b : Term t} (ha : m.WF h a) (hb : m.WF t b)
    {c : Code (.pair h t)} (hc : m.Canon (.pair h t) c)
    (hr : (m.terms (.pair h t)).Returns (Term.node a b) c) :
    (m.terms (.pair h t)).out (den (.pair h t)) (Term.node a b) c =
      nodeOut (m.terms h) (m.terms t) (den h) (den t) a b (arcs c) := by
  rcases node_cases a b with ⟨rfl, rfl, heq⟩ | heq
  · rw [heq, out_id]
    ext w
    refine (mem_nodeDen (den h) (den t)).trans (exists_congr fun x => ?_)
    rw [out_id, out_id]
    rfl
  · rw [heq] at hr ⊢
    obtain ⟨r, hr⟩ := hr
    refine (TermAlgebra.out_eq _ hr).trans ?_
    exact applyNode_out (m.laws h) (m.laws t) (m.termLaws h) (m.termLaws t)
      (m.apply_of_isId h) ha hb hc ((apply_node a b c).symm.trans hr)

/-- An identity head returns on every prime, and no prime is empty. -/
theorem below_returns {h t : Shape} {b : Term t} (hb : m.WF t b) {c : Code (.pair h t)}
    (hc : m.Canon (.pair h t) c) :
    (m.terms (.pair h t)).Returns (Term.node (Term.id h) b) c ↔
      ∀ a ∈ arcs c, (m.terms t).Returns b a.sub := by
  rw [node_returns (denotes_id h).wf hb hc]
  refine forall_congr' fun a => forall_congr' fun ha => ?_
  have hne := (m.laws h).nonempty_of_ne_none (hc.canon a ha).1 (hc.prime_ne a ha)
  rw [out_id]
  exact ⟨fun hr => hr.2 hne, fun hr => ⟨⟨_, m.apply_id h _⟩, fun _ => hr⟩⟩

theorem edge_returns {h t : Shape} {a : Term h} (ha : m.WF h a) {c : Code (.pair h t)}
    (hc : m.Canon (.pair h t) c) :
    (m.terms (.pair h t)).Returns (Term.node a (Term.id t)) c ↔
      ∀ x ∈ arcs c, (m.terms h).Returns a x.prime := by
  rw [node_returns ha (denotes_id t).wf hc]
  refine forall_congr' fun x => forall_congr' fun _ => ?_
  exact ⟨fun hr => hr.1, fun hr => ⟨hr, fun _ => ⟨_, m.apply_id t _⟩⟩⟩

/-- The tail-only wrapper of a sum is the sum of the wrappers. -/
theorem sums_below {h t : Shape} {b : Term t} {bs : List (Term t)} (hb : Sums m t b bs)
    (hw : ∀ x ∈ bs, m.WF t x) :
    Sums m (.pair h t) (Term.node (Term.id h) b) (bs.map (Term.node (Term.id h))) := by
  have hi := (denotes_id (m := m) h).wf
  have hret : ∀ c, m.Canon (.pair h t) c →
      ((m.terms (.pair h t)).Returns (Term.node (Term.id h) b) c ↔
        ∀ x ∈ bs, (m.terms (.pair h t)).Returns (Term.node (Term.id h) x) c) := by
    intro c hc
    rw [below_returns hb.wf hc]
    constructor
    · intro hall x hx
      rw [below_returns (hw x hx) hc]
      exact fun a ha => (hb.returns _ (hc.canon a ha).2).mp (hall a ha) x hx
    · intro hall a ha
      refine (hb.returns _ (hc.canon a ha).2).mpr fun x hx => ?_
      exact (below_returns (hw x hx) hc).mp (hall x hx) a ha
  refine ⟨node_wf hi hb.wf, fun c hc => ?_, fun c hc hr => ?_⟩
  · rw [hret c hc, List.forall_mem_map]
  · have hsub := (below_returns hb.wf hc).mp hr
    have hrs := (hret c hc).mp hr
    rw [node_out hi hb.wf hc hr]
    ext w
    simp only [List.mem_map, exists_exists_and_eq_and]
    constructor
    · rintro ⟨a, ha, hw1, hw2⟩
      rw [hb.out _ (hc.canon a ha).2 (hsub a ha)] at hw2
      obtain ⟨x, hx, hw2⟩ := hw2
      refine ⟨x, hx, ?_⟩
      rw [node_out hi (hw x hx) hc (hrs x hx)]
      exact ⟨a, ha, hw1, hw2⟩
    · rintro ⟨x, hx, hw'⟩
      rw [node_out hi (hw x hx) hc (hrs x hx)] at hw'
      obtain ⟨a, ha, hw1, hw2⟩ := hw'
      refine ⟨a, ha, hw1, ?_⟩
      rw [hb.out _ (hc.canon a ha).2 (hsub a ha)]
      exact ⟨x, hx, hw2⟩

/-- The head-only wrapper of a sum is the sum of the wrappers. -/
theorem sums_edge {h t : Shape} {a : Term h} {as : List (Term h)} (ha : Sums m h a as)
    (hw : ∀ x ∈ as, m.WF h x) :
    Sums m (.pair h t) (Term.node a (Term.id t)) (as.map fun x => Term.node x (Term.id t)) := by
  have hi := (denotes_id (m := m) t).wf
  have hret : ∀ c, m.Canon (.pair h t) c →
      ((m.terms (.pair h t)).Returns (Term.node a (Term.id t)) c ↔
        ∀ x ∈ as, (m.terms (.pair h t)).Returns (Term.node x (Term.id t)) c) := by
    intro c hc
    rw [edge_returns ha.wf hc]
    constructor
    · intro hall x hx
      rw [edge_returns (hw x hx) hc]
      exact fun y hy => (ha.returns _ (hc.canon y hy).1).mp (hall y hy) x hx
    · intro hall y hy
      refine (ha.returns _ (hc.canon y hy).1).mpr fun x hx => ?_
      exact (edge_returns (hw x hx) hc).mp (hall x hx) y hy
  refine ⟨node_wf ha.wf hi, fun c hc => ?_, fun c hc hr => ?_⟩
  · rw [hret c hc, List.forall_mem_map]
  · have hprime := (edge_returns ha.wf hc).mp hr
    have hrs := (hret c hc).mp hr
    rw [node_out ha.wf hi hc hr]
    ext w
    simp only [List.mem_map, exists_exists_and_eq_and]
    constructor
    · rintro ⟨y, hy, hw1, hw2⟩
      rw [ha.out _ (hc.canon y hy).1 (hprime y hy)] at hw1
      obtain ⟨x, hx, hw1⟩ := hw1
      refine ⟨x, hx, ?_⟩
      rw [node_out (hw x hx) hi hc (hrs x hx)]
      exact ⟨y, hy, hw1, hw2⟩
    · rintro ⟨x, hx, hw'⟩
      rw [node_out (hw x hx) hi hc (hrs x hx)] at hw'
      obtain ⟨y, hy, hw1, hw2⟩ := hw'
      refine ⟨y, hy, ?_, hw2⟩
      rw [ha.out _ (hc.canon y hy).1 (hprime y hy)]
      exact ⟨x, hx, hw1⟩

/-! ### The fold -/

mutual

theorem sums_flattenInto {h t : Shape} : (e : OpTerm (Term h) (Term t) (Code (.pair h t))) →
    m.WF (.pair h t) e → Sums m (.pair h t) e (flattenInto e)
  | .sum ts, hw => by
    have hws := (OpTerm.wfAll_iff _ _ _).mp hw
    rw [flattenInto, flattenAll_eq_flatMap]
    refine (Sums.flatMap_iff ?_).mpr (sums_sum hws)
    exact sums_flattenAll ts hws
  | .id, hw => Sums.single hw
  | .node _ _, hw => Sums.single hw
  | .compose _ _, hw => Sums.single hw
  | .lfp _, hw => Sums.single hw
  | .gfp _, hw => Sums.single hw
  | .within _, hw => Sums.single hw
  | .saturate _ _ _, hw => Sums.single hw
  | .expr _ _, hw => Sums.single hw

theorem sums_flattenAll {h t : Shape} :
    (ts : List (OpTerm (Term h) (Term t) (Code (.pair h t)))) →
    (∀ e ∈ ts, m.WF (.pair h t) e) → ∀ e ∈ ts, Sums m (.pair h t) e (flattenInto e)
  | [], _, _, he => nomatch he
  | t :: ts, hw, e, he => by
    obtain ⟨ht, hts⟩ := List.forall_mem_cons.mp hw
    rcases List.mem_cons.mp he with heq | he
    · rw [heq]
      exact sums_flattenInto t ht
    · exact sums_flattenAll ts hts e he

end

theorem wf_flattenAt {h t : Shape} {events : List (Term (.pair h t))}
    (hw : ∀ e ∈ events, m.WF (.pair h t) e) : ∀ e ∈ flattenAt events, m.WF (.pair h t) e := by
  refine forall_flattenAll (fun ts hts => ?_) events hw
  exact (OpTerm.wfAll_iff _ _ _).mp hts

theorem interned_flattenAt {h t : Shape} {events : List (Term (.pair h t))}
    (hi : ∀ e ∈ events, Term.Interned (.pair h t) e) :
    ∀ e ∈ flattenAt events, Term.Interned (.pair h t) e := by
  refine forall_flattenAll (fun ts hts => ?_) events hi
  exact OpTerm.allInterned_iff.mp hts.2

theorem node_of_interned {h t : Shape} {a : Term h} {b : Term t}
    (hi : Term.Interned (.pair h t) (OpTerm.node a b)) : Term.node a b = OpTerm.node a b := by
  rcases node_cases a b with ⟨rfl, rfl, -⟩ | heq
  · exact absurd ⟨(Term.isId_eq h).mpr rfl, (Term.isId_eq t).mpr rfl⟩ hi.1
  · exact heq

/-- A tail-only event of the table is the wrapper of its tail term. -/
theorem mem_belowAt {h t : Shape} {flat : List (Term (.pair h t))}
    (hi : ∀ e ∈ flat, Term.Interned (.pair h t) e) {b : Term t} (hb : b ∈ belowAt flat) :
    Term.node (Term.id h) b ∈ flat ∧ Term.Interned t b := by
  obtain ⟨a, ha, hmem⟩ := mem_belowOf.mp hb
  have haid := (Term.isId_eq h).mp ha
  subst haid
  refine ⟨?_, (hi _ hmem).2.2⟩
  rw [node_of_interned (hi _ hmem)]
  exact hmem

theorem mem_edgeAt {h t : Shape} {flat : List (Term (.pair h t))}
    (hi : ∀ e ∈ flat, Term.Interned (.pair h t) e) {a : Term h} (ha : a ∈ edgeAt flat) :
    Term.node a (Term.id t) ∈ flat ∧ Term.Interned h a := by
  obtain ⟨-, b, hb, hmem⟩ := mem_edgeOf.mp ha
  have hbid := (Term.isId_eq t).mp hb
  subst hbid
  refine ⟨?_, (hi _ hmem).2.1⟩
  rw [node_of_interned (hi _ hmem)]
  exact hmem

theorem wf_belowAt {h t : Shape} {flat : List (Term (.pair h t))}
    (hw : ∀ e ∈ flat, m.WF (.pair h t) e) : ∀ b ∈ belowAt flat, m.WF t b := by
  intro b hb
  obtain ⟨a, -, hmem⟩ := mem_belowOf.mp hb
  exact (hw _ hmem).2

theorem wf_edgeAt {h t : Shape} {flat : List (Term (.pair h t))}
    (hw : ∀ e ∈ flat, m.WF (.pair h t) e) : ∀ a ∈ edgeAt flat, m.WF h a := by
  intro a ha
  obtain ⟨-, b, -, hmem⟩ := mem_edgeOf.mp ha
  exact (hw _ hmem).1

/-- The events of a flat list: what is kept whole, and the wrappers of the two sides. -/
theorem mem_sides {h t : Shape} {flat : List (Term (.pair h t))}
    (hi : ∀ e ∈ flat, Term.Interned (.pair h t) e) (e : Term (.pair h t)) :
    e ∈ restAt flat ++ (belowAt flat).map (Term.node (Term.id h)) ++
        (edgeAt flat).map (fun x => Term.node x (Term.id t)) ↔ e ∈ flat := by
  rw [List.mem_append, List.mem_append, List.mem_map, List.mem_map]
  constructor
  · rintro ((he | ⟨b, hb, rfl⟩) | ⟨a, ha, rfl⟩)
    · exact (mem_restOf.mp he).1
    · exact (mem_belowAt hi hb).1
    · exact (mem_edgeAt hi ha).1
  · intro he
    by_cases hr : e ∈ restAt flat
    · exact Or.inl (Or.inl hr)
    · have hside : ∃ a b, e = OpTerm.node a b ∧ (Term.isId h a = true ∨ Term.isId t b = true) := by
        by_contra hno
        refine hr (mem_restOf.mpr ⟨he, fun a b heq hab => hno ⟨a, b, heq, hab⟩⟩)
      obtain ⟨a, b, rfl, hab⟩ := hside
      have hnode := node_of_interned (hi _ he)
      cases ha : Term.isId h a with
      | true =>
        have haid := (Term.isId_eq h).mp ha
        subst haid
        exact Or.inl (Or.inr ⟨b, mem_belowOf.mpr ⟨_, ha, he⟩, hnode⟩)
      | false =>
        have hb : Term.isId t b = true := by simpa [ha] using hab
        have hbid := (Term.isId_eq t).mp hb
        subst hbid
        exact Or.inr ⟨a, mem_edgeOf.mpr ⟨ha, _, hb, he⟩, hnode⟩

theorem belowSum_eq_nil {h t : Shape} {fold : List (Term t) → Term t} {below : List (Term t)} :
    belowSum (h := h) fold below = [] ↔ below = [] := by
  unfold belowSum
  split
  · next hn => exact ⟨fun _ => hn, fun _ => rfl⟩
  · next hn => exact ⟨fun he => (nomatch he), fun he => absurd he hn⟩

theorem edgeSum_eq_nil {h t : Shape} {fold : List (Term h) → Term h} {edge : List (Term h)} :
    edgeSum (t := t) fold edge = [] ↔ edge = [] := by
  unfold edgeSum
  split
  · next hn => exact ⟨fun _ => hn, fun _ => rfl⟩
  · next hn => exact ⟨fun he => (nomatch he), fun he => absurd he hn⟩

theorem mem_belowSum {h t : Shape} {fold : List (Term t) → Term t} {below : List (Term t)}
    {e : Term (.pair h t)} (he : e ∈ belowSum fold below) :
    below ≠ [] ∧ e = Term.node (Term.id h) (fold below) := by
  unfold belowSum at he
  split at he
  · exact absurd he List.not_mem_nil
  · next hn => exact ⟨hn, List.mem_singleton.mp he⟩

theorem mem_edgeSum {h t : Shape} {fold : List (Term h) → Term h} {edge : List (Term h)}
    {e : Term (.pair h t)} (he : e ∈ edgeSum fold edge) :
    edge ≠ [] ∧ e = Term.node (fold edge) (Term.id t) := by
  unfold edgeSum at he
  split at he
  · exact absurd he List.not_mem_nil
  · next hn => exact ⟨hn, List.mem_singleton.mp he⟩

/-- The two folded wrappers stand for the wrappers they fold. -/
theorem sums_sides {h t : Shape} {S : Term (.pair h t)} {flat : List (Term (.pair h t))}
    {foldT : List (Term t) → Term t} {foldH : List (Term h) → Term h}
    (hi : ∀ e ∈ flat, Term.Interned (.pair h t) e) (hw : ∀ e ∈ flat, m.WF (.pair h t) e)
    (hT : belowAt flat ≠ [] → Sums m t (foldT (belowAt flat)) (belowAt flat))
    (hH : edgeAt flat ≠ [] → Sums m h (foldH (edgeAt flat)) (edgeAt flat))
    (hS : Sums m (.pair h t) S
      (restAt flat ++ belowSum foldT (belowAt flat) ++ edgeSum foldH (edgeAt flat))) :
    Sums m (.pair h t) S flat := by
  have h1 : Sums m (.pair h t) S (restAt flat ++ (belowAt flat).map (Term.node (Term.id h)) ++
      edgeSum foldH (edgeAt flat)) := by
    by_cases hb : belowAt flat = []
    · rw [hb, belowSum, if_pos rfl] at hS
      rw [hb, List.map_nil]
      exact hS
    · rw [belowSum, if_neg hb, List.append_assoc, List.singleton_append] at hS
      exact hS.replace (sums_below (hT hb) (wf_belowAt hw))
  refine Sums.congr ?_ (mem_sides hi)
  by_cases he : edgeAt flat = []
  · rw [he, edgeSum, if_pos rfl] at h1
    rw [he, List.map_nil]
    exact h1
  · rw [edgeSum, if_neg he] at h1
    have h2 := h1.replace (sums_edge (hH he) (wf_edgeAt hw))
    rw [List.append_nil] at h2
    exact h2

/-- The folded sum comes to the union of its events, whatever nested sums, identities and
one-sided wrappers they are. By induction on the sort. -/
theorem sumAt_sums : (s : Shape) → (events : List (Term s)) → events ≠ [] →
    (∀ e ∈ events, m.WF s e) → (∀ e ∈ events, Term.Interned s e) →
    Sums m s (sumAt m s events) events
  | .unit, [], hne, _, _ => (hne rfl).elim
  | .leaf, [], hne, _, _ => (hne rfl).elim
  | .unit, e :: es, _, hw, _ => by
    obtain ⟨he, hes⟩ := List.forall_mem_cons.mp hw
    exact sums_foldl (fun a b => sums_unit) (Sums.single he) hes
  | .leaf, e :: es, _, hw, _ => by
    obtain ⟨he, hes⟩ := List.forall_mem_cons.mp hw
    have hsum : ∀ a b : Term .leaf, m.WF .leaf a → m.WF .leaf b →
        Sums m .leaf (Term.sum m .leaf a b) [a, b] := fun a b ha hb => sums_leaf ha hb
    exact sums_foldl hsum (Sums.single he) hes
  | .pair h t, events, hne, hw, hi => by
    have hwf := wf_flattenAt hw
    have hif := interned_flattenAt hi
    have hne' : flattenAt events ≠ [] :=
      flattenAll_ne_nil events hne (OpTerm.allInterned_iff.mpr hi)
    have hT : belowAt (flattenAt events) ≠ [] →
        Sums m t (sumAt m t (belowAt (flattenAt events))) (belowAt (flattenAt events)) := by
      intro hb
      exact sumAt_sums t _ hb (wf_belowAt hwf) fun b hb => (mem_belowAt hif hb).2
    have hH : edgeAt (flattenAt events) ≠ [] →
        Sums m h (sumAt m h (edgeAt (flattenAt events))) (edgeAt (flattenAt events)) := by
      intro he
      exact sumAt_sums h _ he (wf_edgeAt hwf) fun a ha => (mem_edgeAt hif ha).2
    have hflat : Sums m (.pair h t) (sumAt m (.pair h t) events) (flattenAt events) := by
      refine sums_sides hif hwf hT hH (sums_sumAll ?_ ?_)
      · intro hnil
        rw [List.append_eq_nil_iff, List.append_eq_nil_iff] at hnil
        obtain ⟨⟨hrest, hbelow⟩, hedge⟩ := hnil
        rw [belowSum_eq_nil] at hbelow
        rw [edgeSum_eq_nil] at hedge
        obtain ⟨e, he⟩ := List.exists_mem_of_ne_nil _ hne'
        have hmem := (mem_sides hif e).mpr he
        rw [hrest, hbelow, hedge] at hmem
        exact absurd hmem List.not_mem_nil
      · intro e he
        rcases List.mem_append.mp he with he | he
        · rcases List.mem_append.mp he with he | he
          · exact hwf e (mem_restOf.mp he).1
          · obtain ⟨hne, rfl⟩ := mem_belowSum he
            exact node_wf (denotes_id h).wf (hT hne).wf
        · obtain ⟨hne, rfl⟩ := mem_edgeSum he
          exact node_wf (hH hne).wf (denotes_id t).wf
    have hev : flattenAt events = events.flatMap flattenInto := flattenAll_eq_flatMap events
    rw [hev] at hflat
    refine (Sums.flatMap_iff ?_).mp hflat
    exact sums_flattenAll events hw

end Build

/-! ## The product of local terms -/

section Product

variable {m : Manager}

theorem length_frontier : (s : Shape) → (w : Word s) → (frontier s w).length = s.width
  | .unit, _ => rfl
  | .leaf, _ => rfl
  | .pair h t, w => by
    rw [frontier, List.length_append, length_frontier h, length_frontier t]
    rfl

theorem productAt_rest : (s : Shape) → (byLeaf : List IntTerm) →
    (productAt s byLeaf).2 = byLeaf.drop s.width
  | .unit, _ => rfl
  | .leaf, [] => rfl
  | .leaf, _ :: _ => rfl
  | .pair h t, byLeaf => by
    show (productAt t (productAt h byLeaf).2).2 = _
    rw [productAt_rest t, productAt_rest h, List.drop_drop]
    rfl

theorem product_pair (h t : Shape) (byLeaf : List IntTerm) :
    product (.pair h t) byLeaf =
      Term.node (product h byLeaf) (product t (byLeaf.drop h.width)) := by
  show Term.node (productAt h byLeaf).1 (productAt t (productAt h byLeaf).2).1 = _
  rw [productAt_rest]
  rfl

/-- The values at a position of two words move by a leaf term. -/
def leafStep (byLeaf : List IntTerm) (v u : List Int) (k : Nat) : Prop :=
  (byLeaf.getD k IntTerm.id).rel (v.getD k 0) (u.getD k 0)

theorem leafStep_append (byLeaf : List IntTerm) {v u : List Int} (v' u' : List Int) {n : Nat}
    (hv : v.length = n) (hu : u.length = n) (k : Nat) :
    (k < n → (leafStep byLeaf (v ++ v') (u ++ u') k ↔ leafStep byLeaf v u k)) ∧
      (leafStep byLeaf (v ++ v') (u ++ u') (n + k) ↔ leafStep (byLeaf.drop n) v' u' k) := by
  unfold leafStep
  constructor
  · intro hk
    rw [List.getD_append _ _ _ _ (hv.symm ▸ hk), List.getD_append _ _ _ _ (hu.symm ▸ hk)]
  · rw [List.getD_append_right _ _ _ _ (by omega), List.getD_append_right _ _ _ _ (by omega),
      hv, hu, Nat.add_sub_cancel_left]
    simp only [List.getD_eq_getElem?_getD, List.getElem?_drop]

/-- The product moves every coordinate by its own leaf term. By induction on the sort: the
frontier is the head's, then the tail's. -/
theorem product_denotes : (s : Shape) → (byLeaf : List IntTerm) → (∀ l ∈ byLeaf, l.WF) →
    Denotes m s (product s byLeaf) fun v u =>
      ∀ k < s.width, leafStep byLeaf (frontier s v) (frontier s u) k
  | .unit, byLeaf, _ => by
    refine (denotes_id .unit).congr (funext fun v => funext fun u => propext ?_)
    exact ⟨fun _ k hk => absurd hk (Nat.not_lt_zero k), fun _ => rfl⟩
  | .leaf, [], _ => by
    refine (denotes_id .leaf).congr (funext fun v => funext fun u => propext ?_)
    constructor
    · intro hvu k hk
      obtain rfl : k = 0 := Nat.lt_one_iff.mp hk
      exact hvu
    · exact fun h => h 0 Nat.one_pos
  | .leaf, l :: rest, hw => by
    have hl : Denotes m .leaf l (m.rel .leaf l) :=
      .refl (hw l List.mem_cons_self) trivial
    refine hl.congr (funext fun v => funext fun u => propext ?_)
    constructor
    · intro hvu k hk
      obtain rfl : k = 0 := Nat.lt_one_iff.mp hk
      exact hvu
    · exact fun h => h 0 Nat.one_pos
  | .pair h t, byLeaf, hw => by
    have hh := product_denotes h byLeaf hw
    have ht := product_denotes t (byLeaf.drop h.width) fun l hl =>
      hw l (List.mem_of_mem_drop hl)
    rw [product_pair]
    refine (denotes_node hh ht).congr (funext fun v => funext fun u => propext ?_)
    have hstep := leafStep_append byLeaf (frontier t v.2) (frontier t u.2)
      (length_frontier h v.1) (length_frontier h u.1)
    constructor
    · rintro ⟨h1, h2⟩ k hk
      by_cases hlt : k < h.width
      · exact ((hstep k).1 hlt).mpr (h1 k hlt)
      · have hk' : k = h.width + (k - h.width) := by omega
        rw [hk']
        refine (hstep _).2.mpr (h2 _ ?_)
        have : k < h.width + t.width := hk
        omega
    · intro hall
      have hwidth : (Shape.pair h t).width = h.width + t.width := rfl
      refine ⟨fun k hk => ((hstep k).1 hk).mp (hall k ?_),
        fun k hk => (hstep k).2.mp (hall (h.width + k) ?_)⟩
      · rw [hwidth]
        omega
      · rw [hwidth]
        omega

/-- Leaf terms that return on every set make a product that returns on every diagram. -/
theorem product_returns : (s : Shape) → (byLeaf : List IntTerm) → (∀ l ∈ byLeaf, l.WF) →
    (∀ l ∈ byLeaf, ∀ c, IntSet.Canon c → ∃ r, IntTerm.apply m.fuel l c = .ok r) →
    ∀ c, m.Canon s c → (m.terms s).Returns (product s byLeaf) c
  | .unit, _, _, _, c, _ => ⟨c, rfl⟩
  | .leaf, [], _, _, c, _ => ⟨c, rfl⟩
  | .leaf, l :: _, _, hr, c, hc => hr l List.mem_cons_self c hc
  | .pair h t, byLeaf, hw, hr, c, hc => by
    have hdrop : ∀ l ∈ byLeaf.drop h.width, l ∈ byLeaf := fun l => List.mem_of_mem_drop
    have hh := product_denotes (m := m) h byLeaf hw
    have ht := product_denotes (m := m) t _ fun l hl => hw l (hdrop l hl)
    rw [product_pair, node_returns hh.wf ht.wf hc]
    intro a ha
    obtain ⟨hp, hs⟩ := hc.canon a ha
    exact ⟨product_returns h byLeaf hw hr a.prime hp, fun _ =>
      product_returns t _ (fun l hl => hw l (hdrop l hl)) (fun l hl => hr l (hdrop l hl)) a.sub hs⟩

/-- The folded sum of a non-empty list of terms is applied where all of them are, to the
union of what they are applied to; and a product moves every word coordinate by
coordinate, the `k`-th leaf term at the `k`-th position of the frontier. -/
theorem sumAt_union_product (m : Manager) (s : Shape) {d : Code s} (hd : m.Canon s d) :
    (∀ ts : List (Term s), ts ≠ [] → (∀ t ∈ ts, m.WF s t) → (∀ t ∈ ts, Term.Interned s t) →
      ((∃ r, m.apply s (sumAt m s ts) d = .ok r) ↔ ∀ t ∈ ts, ∃ r, m.apply s t d = .ok r) ∧
      ∀ r, m.apply s (sumAt m s ts) d = .ok r → m.Canon s r ∧
        ∀ w, w ∈ den s r ↔ ∃ t ∈ ts, ∃ x, m.apply s t d = .ok x ∧ w ∈ den s x) ∧
    ∀ byLeaf : List IntTerm, (∀ l ∈ byLeaf, l.WF) →
      ((∀ l ∈ byLeaf, ∀ c, IntSet.Canon c → ∃ r, IntTerm.apply m.fuel l c = .ok r) →
        ∃ r, m.apply s (product s byLeaf) d = .ok r) ∧
      ∀ r, m.apply s (product s byLeaf) d = .ok r → m.Canon s r ∧ ∀ u, u ∈ den s r ↔
          ∃ w ∈ den s d, ∀ k < s.width, leafStep byLeaf (frontier s w) (frontier s u) k := by
  constructor
  · intro ts hne hw hi
    have hsum := sumAt_sums s ts hne hw hi
    refine ⟨hsum.returns d hd, fun r hr => ⟨(m.termLaws s).canon_apply hsum.wf hd hr, fun w => ?_⟩⟩
    have hout := hsum.out d hd ⟨r, hr⟩
    rw [TermAlgebra.out_eq (den s) hr] at hout
    exact Set.ext_iff.mp hout w
  · intro byLeaf hw
    refine ⟨fun hr => product_returns s byLeaf hw hr d hd, fun r hr => ?_⟩
    obtain ⟨hc, hden⟩ := (product_denotes s byLeaf hw).apply hd hr
    exact ⟨hc, Set.ext_iff.mp hden⟩

/-- A list with a nested sum, an identity and wrappers of both sides. -/
def mixedEvents : List (Term (.pair .leaf .leaf)) :=
  [OpTerm.sum [OpTerm.id, OpTerm.node (IntTerm.assign [0] 7) IntTerm.id],
    OpTerm.node IntTerm.id (IntTerm.assign [5] 6), OpTerm.node (IntTerm.assign [1] 8) IntTerm.id]

theorem sumAt_union_product_two_leaves :
    (∀ w, w ∈ den (.pair .leaf .leaf) [⟨[0, 1], [5, 6]⟩, ⟨[7, 8], [5]⟩] ↔
      ∃ t ∈ mixedEvents, ∃ x, (Manager.standard 3 1).apply (.pair .leaf .leaf) t
        [⟨[0, 1], [5]⟩] = .ok x ∧ w ∈ den (.pair .leaf .leaf) x) ∧
    ∀ u, u ∈ den (.pair .leaf .leaf) [⟨[1, 2], [9]⟩] ↔
      ∃ w ∈ den (.pair .leaf .leaf) [⟨[0, 1], [5]⟩], ∀ k < 2,
        leafStep [IntTerm.shift [] 1, IntTerm.assign [] 9] (frontier (.pair .leaf .leaf) w)
          (frontier (.pair .leaf .leaf) u) k := by
  have hd : (Manager.standard 3 1).Canon (.pair .leaf .leaf) [⟨[0, 1], [5]⟩] :=
    Manager.canon_single _ (show IntSet.Canon [0, 1] by decide)
      (show IntSet.Canon [5] by decide) (show ([0, 1] : List Int) ≠ [] by decide)
      (show ([5] : List Int) ≠ [] by decide)
  obtain ⟨hsum, hprod⟩ := sumAt_union_product (Manager.standard 3 1) (.pair .leaf .leaf) hd
  constructor
  · refine ((hsum mixedEvents (by decide) ?_ ?_).2 _ (by decide +kernel)).2
    · have h0 : (IntTerm.assign [0] 7).WF := ⟨show IntSet.Canon [0] by decide,
        show InInt32 7 by decide⟩
      have h5 : (IntTerm.assign [5] 6).WF := ⟨show IntSet.Canon [5] by decide,
        show InInt32 6 by decide⟩
      have h1 : (IntTerm.assign [1] 8).WF := ⟨show IntSet.Canon [1] by decide,
        show InInt32 8 by decide⟩
      exact List.forall_mem_cons.mpr ⟨⟨trivial, ⟨h0, trivial⟩, trivial⟩,
        List.forall_mem_cons.mpr ⟨⟨trivial, h5⟩, List.forall_mem_singleton.mpr ⟨h1, trivial⟩⟩⟩
    · have hnode : ∀ a b : IntTerm, ¬(Term.isId .leaf a = true ∧ Term.isId .leaf b = true) →
          Term.Interned (.pair .leaf .leaf) (OpTerm.node a b) := fun a b hab =>
        ⟨hab, trivial, trivial⟩
      exact List.forall_mem_cons.mpr ⟨⟨List.cons_ne_nil _ _, trivial, hnode _ _ (by decide),
        trivial⟩, List.forall_mem_cons.mpr ⟨hnode _ _ (by decide),
          List.forall_mem_singleton.mpr (hnode _ _ (by decide))⟩⟩
  · refine ((hprod [IntTerm.shift [] 1, IntTerm.assign [] 9] ?_).2 _ (by decide +kernel)).2
    exact List.forall_mem_cons.mpr ⟨⟨trivial, show InInt32 1 by decide⟩,
      List.forall_mem_singleton.mpr ⟨trivial, show InInt32 9 by decide⟩⟩

end Product

end LibHSC
