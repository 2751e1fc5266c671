import LibHSC.Event

/-!
One run of the library: the ids its tables hand out, and the algebras of every
sort with the engine of case brackets registered. The two contracts of diagrams
are here: the set operations are exact, and equality of codes is equality of
word sets, for everything a run can build.
-/

namespace LibHSC

open Lia

/-- The tables of a run. `fuel` bounds the rounds of each closure and `depth`
the nesting of residual brackets; a run that needs more of either is an error
of the model and not of the code. -/
structure Manager where
  numbering : Numbering
  exprs : ExprIds
  termIds : (s : Shape) → Term s → Nat
  fuel : Nat
  depth : Nat

namespace Manager

/-- A run with the encodings as ids. -/
def standard (fuel depth : Nat) : Manager where
  numbering := .standard
  exprs := ⟨fun _ => 0, fun _ => 0⟩
  termIds _ _ := 0
  fuel := fuel
  depth := depth

variable (m : Manager)

def algebra (s : Shape) : SupportAlgebra (Code s) := LibHSC.algebra m.numbering s

def cases : CaseEvaluator := caseEngine m.numbering m.exprs m.fuel m.depth

/-- The relations of this run's case brackets. -/
def brackets : CaseRel := engineRel m.exprs m.depth

def terms (s : Shape) : TermAlgebra (Code s) (Term s) :=
  termAlgebra m.numbering m.cases m.fuel s

def apply (s : Shape) (t : Term s) (d : Code s) : Except Err (Code s) := (m.terms s).apply t d

/-- The representation invariant at every level. -/
def Canon (s : Shape) (d : Code s) : Prop := LibHSC.Canon m.numbering s d

def WF (s : Shape) (t : Term s) : Prop := Term.WF m.numbering s t

/-- The relation of a term. -/
def rel (s : Shape) (t : Term s) : Word s → Word s → Prop := Term.rel m.brackets s t

theorem laws (s : Shape) : SupportLaws (m.algebra s) (den s) (m.Canon s) :=
  LibHSC.laws m.numbering s

theorem termLaws (s : Shape) : TermLaws (m.terms s) (den s) (m.Canon s) (m.WF s)
    (Term.Additive m.brackets s) (m.rel s) :=
  LibHSC.termLaws (caseEngine_laws m.numbering m.exprs m.fuel m.depth) m.fuel s

theorem canon_single {h t : Shape} {p : Code h} {q : Code t} (hp : m.Canon h p)
    (hq : m.Canon t q) (hpn : p ≠ (m.algebra h).none) (hqn : q ≠ (m.algebra t).none) :
    m.Canon (.pair h t) [⟨p, q⟩] := by
  have hc := (rectangle_correct (m.laws h) (m.laws t) hp hq).1
  rw [rectangle, if_neg (not_or.mpr ⟨hpn, hqn⟩)] at hc
  exact hc

/-- The diagrams a run can build. -/
inductive Built : (s : Shape) → Code s → Prop
  | none (s : Shape) : Built s (m.algebra s).none
  | one : Built .unit true
  | set (values : List Int) (h : ∀ v ∈ values, InInt32 v) : Built .leaf (IntSet.of values)
  | rectangle {h t : Shape} {p : Code h} {q : Code t} : Built h p → Built t q →
      Built (.pair h t) (rectangle (m.algebra h) (m.algebra t) p q)
  | canonize {h t : Shape} (rects : List (Arc (Code h) (Code t))) :
      (∀ a ∈ rects, Built h a.prime) → (∀ a ∈ rects, Built t a.sub) →
      Built (.pair h t) (canonize (m.algebra h) (m.algebra t) rects)
  | join {s : Shape} {a b : Code s} : Built s a → Built s b → Built s ((m.algebra s).join a b)
  | meet {s : Shape} {a b : Code s} : Built s a → Built s b → Built s ((m.algebra s).meet a b)
  | minus {s : Shape} {a b : Code s} : Built s a → Built s b →
      Built s ((m.algebra s).minus a b)
  | apply {s : Shape} {t : Term s} {d r : Code s} : m.WF s t → Built s d →
      m.apply s t d = .ok r → Built s r

theorem Built.canon {s : Shape} {d : Code s} (h : m.Built s d) : m.Canon s d := by
  induction h with
  | none s => exact (m.laws s).canon_none
  | one => trivial
  | set values h => exact IntSet.canon_of h
  | rectangle _ _ hp hq => exact (rectangle_correct (m.laws _) (m.laws _) hp hq).1
  | canonize rects _ _ hp hq =>
    exact (canonize_correct (m.laws _) (m.laws _) fun a ha => ⟨hp a ha, hq a ha⟩).1
  | join _ _ ha hb => exact (m.laws _).canon_join ha hb
  | meet _ _ ha hb => exact (m.laws _).canon_meet ha hb
  | minus _ _ ha hb => exact (m.laws _).canon_minus ha hb
  | apply ht _ hr hd => exact (m.termLaws _).canon_apply ht hd hr

/-- Any bag of rectangles is brought to the one normal form of its union, so two
diagrams that a run builds are the same code exactly when they hold the same
words. -/
theorem canonize_normal_form :
    (∀ (h t : Shape) (rects : List (Arc (Code h) (Code t))),
      (∀ a ∈ rects, m.Canon h a.prime ∧ m.Canon t a.sub) →
      NodeCanon (m.algebra h) (m.algebra t) (den h) (m.Canon h) (m.Canon t)
          (canonize (m.algebra h) (m.algebra t) rects) ∧
        den (.pair h t) (canonize (m.algebra h) (m.algebra t) rects) =
          {w | ∃ a ∈ rects, w.1 ∈ den h a.prime ∧ w.2 ∈ den t a.sub}) ∧
    ∀ (s : Shape) (a b : Code s), m.Built s a → m.Built s b →
      ((m.algebra s).num a = (m.algebra s).num b ↔ den s a = den s b) := by
  constructor
  · intro h t rects hr
    obtain ⟨hn, hden⟩ := canonize_correct (m.laws h) (m.laws t) hr
    refine ⟨hn, hden.trans ?_⟩
    ext w
    exact mem_nodeDen (den h) (den t)
  · intro s a b ha hb
    exact (m.laws s).num_eq_iff (ha.canon m) (hb.canon m)

theorem canonize_normal_form_overlap :
    den (.pair .leaf .leaf) (canonize ((standard 1 1).algebra .leaf)
        ((standard 1 1).algebra .leaf) [⟨[1, 2], [5]⟩, ⟨[2], [6]⟩]) =
      {w | ∃ a ∈ [(⟨[1, 2], [5]⟩ : Arc IntSet IntSet), ⟨[2], [6]⟩],
        w.1 ∈ den .leaf a.prime ∧ w.2 ∈ den .leaf a.sub} ∧
    ((standard 1 1).algebra .leaf).num (IntSet.of [2, 1]) =
      ((standard 1 1).algebra .leaf).num (IntSet.of [1, 2]) :=
  ⟨((canonize_normal_form (standard 1 1)).1 .leaf .leaf [⟨[1, 2], [5]⟩, ⟨[2], [6]⟩]
      (show ∀ a ∈ [(⟨[1, 2], [5]⟩ : Arc IntSet IntSet), ⟨[2], [6]⟩],
        IntSet.Canon a.prime ∧ IntSet.Canon a.sub by decide)).2,
    ((canonize_normal_form (standard 1 1)).2 .leaf _ _ (.set [2, 1] (by decide))
      (.set [1, 2] (by decide))).mpr
      (congrArg (den .leaf) (show IntSet.of [2, 1] = IntSet.of [1, 2] by decide))⟩

/-- The three set operations of every sort, exact and canonical. -/
theorem set_operations_exact (s : Shape) {a b : Code s} (ha : m.Canon s a) (hb : m.Canon s b) :
    (m.Canon s ((m.algebra s).join a b) ∧ den s ((m.algebra s).join a b) = den s a ∪ den s b) ∧
    (m.Canon s ((m.algebra s).meet a b) ∧ den s ((m.algebra s).meet a b) = den s a ∩ den s b) ∧
    (m.Canon s ((m.algebra s).minus a b) ∧ den s ((m.algebra s).minus a b) = den s a \ den s b) :=
  ⟨⟨(m.laws s).canon_join ha hb, (m.laws s).den_join ha hb⟩,
    ⟨(m.laws s).canon_meet ha hb, (m.laws s).den_meet ha hb⟩,
    ⟨(m.laws s).canon_minus ha hb, (m.laws s).den_minus ha hb⟩⟩

/-- Arcs whose primes overlap: 2 leads to both subs, and so does 4. -/
def overlapping : List (Arc IntSet IntSet) := [⟨[1, 2], [5]⟩, ⟨[2, 3], [6]⟩, ⟨[4], [5, 6]⟩]

/-- Arcs that cross those: 2 and 4 share one sub with them, 3 is covered. -/
def crossing : List (Arc IntSet IntSet) := [⟨[2, 4], [5]⟩, ⟨[3, 5], [6, 7]⟩]

def pairNode (rects : List (Arc IntSet IntSet)) : Code (.pair .leaf .leaf) :=
  canonize ((standard 1 1).algebra .leaf) ((standard 1 1).algebra .leaf) rects

theorem pairNode_canon (rects : List (Arc IntSet IntSet))
    (h : ∀ a ∈ rects, IntSet.Canon a.prime ∧ IntSet.Canon a.sub) :
    (standard 1 1).Canon (.pair .leaf .leaf) (pairNode rects) :=
  (canonize_correct ((standard 1 1).laws .leaf) ((standard 1 1).laws .leaf) h).1

/-- Both nodes have several arcs; the meet and the difference cross them, and a prime
is used up on the way. -/
theorem set_operations_exact_crossing :
    let alg := (standard 1 1).algebra (.pair .leaf .leaf)
    let a := pairNode overlapping
    let b := pairNode crossing
    a = [⟨[1], [5]⟩, ⟨[3], [6]⟩, ⟨[2, 4], [5, 6]⟩] ∧
    b = [⟨[2, 4], [5]⟩, ⟨[3, 5], [6, 7]⟩] ∧
    (alg.join a b = [⟨[1], [5]⟩, ⟨[2, 4], [5, 6]⟩, ⟨[3, 5], [6, 7]⟩] ∧
      den (.pair .leaf .leaf) (alg.join a b) =
        den (.pair .leaf .leaf) a ∪ den (.pair .leaf .leaf) b) ∧
    (alg.meet a b = [⟨[3], [6]⟩, ⟨[2, 4], [5]⟩] ∧ den (.pair .leaf .leaf) (alg.meet a b) =
        den (.pair .leaf .leaf) a ∩ den (.pair .leaf .leaf) b) ∧
    (alg.minus a b = [⟨[1], [5]⟩, ⟨[2, 4], [6]⟩] ∧ den (.pair .leaf .leaf) (alg.minus a b) =
        den (.pair .leaf .leaf) a \ den (.pair .leaf .leaf) b) := by
  intro alg a b
  obtain ⟨⟨-, hjoin⟩, ⟨-, hmeet⟩, -, hminus⟩ :=
    set_operations_exact (standard 1 1) (.pair .leaf .leaf)
      (pairNode_canon overlapping (by decide)) (pairNode_canon crossing (by decide))
  exact ⟨rfl, rfl, ⟨rfl, hjoin⟩, ⟨rfl, hmeet⟩, ⟨rfl, hminus⟩⟩

end Manager

end LibHSC
