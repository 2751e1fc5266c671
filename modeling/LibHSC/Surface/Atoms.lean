import LibHSC.AtomGuard
import LibHSC.Surface.Numerals

/-!
Query atoms: a boolean form over the leaves as a filter of a stored diagram. A leaf
against a constant, an enumeration and a leaf against a leaf have dedicated filters; any
other form is compiled to the event term `(when ATOM)`, and so could these be.
-/

namespace LibHSC.Surface

open Lia hiding Reading

/-! ## Names -/

/-- `leaf_decl`, as far as an atom reads it. -/
structure LeafDecl where
  index : Nat
  /-- Set once the shape uses the leaf. -/
  placed : Bool

structure Names where
  leaves : String → Option LeafDecl
  arrays : String → Option (List Nat)

/-- What the expression reader resolves through. -/
def Names.scope (nm : Names) : Scope where
  position name :=
    match nm.leaves name with
    | some d => if d.placed then some d.index else none
    | none => none
  array := nm.arrays

/-! ## The event term of a `when` -/

/-- The guards of a clause by leaf, each moved to position 0. -/
abbrev Effects := List (Nat × BExpr)

section When

variable (R : ExprIds) (sc : Scope) (top : Shape)

/-- One more atom of the leaf at `p`, fused with those it has. -/
def addGuard (p : Nat) (b : BExpr) : Effects → Effects × BExpr
  | [] => ([(p, b)], b)
  | (q, g) :: es =>
    if q = p then ((q, conj R g b) :: es, conj R g b)
    else ((q, g) :: (addGuard p b es).1, (addGuard p b es).2)

/-- The atoms of a `when`: those of one position are fused per leaf, the others are
crossing filters. `none` when an atom folds dead. -/
def readWhen : List Datum → Effects → List BExpr → Except BuildError (Option (Effects × List BExpr))
  | [], eff, filters => .ok (some (eff, filters))
  | d :: ds, eff, filters => do
      let b ← readBool R sc d
      if b = .bfalse ∨ b = .bundef then return none
      else if b = .btrue then readWhen ds eff filters
      else
        match supportBool b, arrayPositionsBool b with
        | [p], [] => do
            let b0 ← made (shiftPositionsBool R b (-p))
            let fused := addGuard R p b0 eff
            if fused.2 = .bfalse then return none else readWhen ds fused.1 filters
        | _, _ => readWhen ds eff (filters ++ [b])

/-- The leaf terms of the effects, by position. -/
def byLeaf : Effects → Except Err (List IntTerm)
  | [] => .ok (List.replicate top.width IntTerm.id)
  | (p, g) :: es => do
      let terms ← byLeaf es
      if p < terms.length then return terms.set p (IntTerm.keepIf g) else .error .logic

def separableProduct (eff : Effects) : Except Err (Term top) := do
  return product top (← byLeaf top eff)

/-- `compose` of the operation table. Two proper steps of a leaf do not compose. -/
def composeTerms : (s : Shape) → Term s → Term s → Except Err (Term s)
  | .unit => fun a b => .ok (OpTerm.mkCompose a b)
  | .leaf => fun (a b : IntTerm) =>
    if a = IntTerm.id then .ok b else if b = IntTerm.id then .ok a
    else .error .undefinedBehaviour
  | .pair _ _ => fun a b => .ok (OpTerm.mkCompose a b)

def composeFilters : List BExpr → Term top → Except Err (Term top)
  | [], ev => .ok ev
  | b :: bs, ev => do composeFilters bs (← composeTerms top (← makeEvent R top b []) ev)

/-- The event term of `(when ATOM+)`. -/
def whenTerm (atoms : List Datum) : Except BuildError (Term top) := do
  match ← readWhen R sc atoms [] [] with
  | none => made (makeEvent R top .bfalse [])
  | some (eff, filters) =>
    let ev ← made (composeFilters R top filters (Term.id top))
    if eff = [] then return ev
    else made (do composeTerms top (← separableProduct top eff) ev)

end When

/-! ## Applying an atom -/

def comparator : String → Option Cmp
  | "<" => some .lt
  | "<=" => some .le
  | "==" => some .eq
  | "!=" => some .ne
  | ">=" => some .ge
  | ">" => some .gt
  | _ => none

def needConst (d : Datum) : Except BuildError Int :=
  if d.isAtom then
    match asInt d with
    | some v => .ok v
    | none => fail d ("expected an integer, found '" ++ d.text ++ "'")
  else fail d "expected an integer, found a list"

def requireConstant (d : Datum) (role : String) : Except BuildError Int :=
  match asInt d with
  | some v => .ok v
  | none => fail d ("crossing " ++ role ++
      ": value is not a constant; relating two leaves needs split_equiv, not implemented")

section Apply

variable (m : Manager) (nm : Names)

/-- The alternatives of an enumeration on the leaf's own coordinate. -/
def guardAlts : List Datum → Except BuildError (List BExpr)
  | [] => .ok []
  | k :: ks => do
      let c ← needConst k
      return compare m.exprs .eq (.var 0) (.const c) :: (← guardAlts ks)

/-- The predicate that `(op leaf K)` or `(in leaf K…)` puts on the leaf's coordinate. -/
def atomGuard (atom : Datum) : Except BuildError BExpr :=
  if atom.head = "in" then do return conn m.exprs .disj (← guardAlts m (atom.items.drop 2))
  else
    match atom.items with
    | [_, _, k] => do
        let c ← requireConstant k "constraint"
        match comparison atom.head with
        | some op => return compare m.exprs op (.var 0) (.const c)
        | none => fail atom ("unknown comparison '" ++ atom.head ++ "'")
    | _ => fail atom "comparison takes a leaf and a constant"

/-- `apply_local` of the diagram engine: it evaluates the terms of composite sorts. A leaf's
term is no entry of its table. -/
def applyTop : (s : Shape) → Term s → Code s → Except Err (Code s)
  | .leaf => fun (t : IntTerm) (d : IntSet) =>
    if t = IntTerm.id then .ok d else if d = [] then .ok [] else .error .undefinedBehaviour
  | .unit => m.apply .unit
  | .pair h t => m.apply (.pair h t)

/-- The atom compiled as an event term and applied once. -/
def applyCompiled (top : Shape) (atom : Datum) (src : Code top) : Except BuildError (Code top) := do
  made (applyTop m top (← whenTerm m.exprs nm.scope top [atom]) src)

/-- `apply_atom`, with the fast path of a leaf against a constant or an enumeration, and that
of a leaf against a leaf. -/
def applyAtom (top : Shape) (atom : Datum) (src : Code top) : Except BuildError (Code top) :=
  match atom.items with
  | [] => fail atom "a query atom is a boolean form over the leaves"
  | _ :: x :: rhs :: rest =>
    match (if x.isAtom then nm.leaves x.text else none) with
    | none => applyCompiled m nm top atom src
    | some lx =>
      let op := if rest = [] then comparator atom.head else none
      match op, (if rhs.isAtom then nm.leaves rhs.text else none) with
      | some op, some ly => made (selectCompare m.numbering top src lx.index op ly.index)
      | op, _ =>
        if (op.isSome ∧ (asInt rhs).isSome) ∨ atom.head = "in" then do
          made (selectWhere m.numbering top src lx.index (← atomGuard m atom))
        else applyCompiled m nm top atom src
  | _ => applyCompiled m nm top atom src

/-- `do_select`: the atoms one after the other. -/
def applyAtoms (top : Shape) : List Datum → Code top → Except BuildError (Code top)
  | [], src => .ok src
  | atom :: atoms, src => do applyAtoms top atoms (← applyAtom m nm top atom src)

end Apply

/-! ## Reading an atom of the fast paths -/

/-- The leaves are those of the shape. -/
structure Names.Fits (nm : Names) (top : Shape) : Prop where
  placed : ∀ name l, nm.leaves name = some l → l.placed = true
  inside : ∀ name l, nm.leaves name = some l → l.index < top.width

/-- The leaf an operand names on a fast path. -/
def Names.leafOf (nm : Names) (d : Datum) : Option LeafDecl :=
  if d.isAtom then nm.leaves d.text else none

/-- The atoms of the dedicated filters: a leaf against a leaf, a leaf against a constant, and
a leaf in an enumeration of constants. -/
inductive Names.Fast (nm : Names) : Datum → Prop
  | leaves {h x y : Datum} {n : Int} {op : Cmp} {lx ly : LeafDecl} (hx : nm.leafOf x = some lx)
      (hop : comparator (Datum.list [h, x, y] n).head = some op) (hy : nm.leafOf y = some ly) :
      Fast nm (.list [h, x, y] n)
  | constant {h x y : Datum} {n v : Int} {op : Cmp} {lx : LeafDecl}
      (hx : nm.leafOf x = some lx) (hop : comparator (Datum.list [h, x, y] n).head = some op)
      (hy : nm.leafOf y = none) (hv : asInt y = some v) : Fast nm (.list [h, x, y] n)
  | members {h x y : Datum} {ys : List Datum} {n : Int} {lx : LeafDecl}
      (hx : nm.leafOf x = some lx) (hin : (Datum.list (h :: x :: y :: ys) n).head = "in")
      (hints : ∀ k ∈ y :: ys, asInt k ≠ none) : Fast nm (.list (h :: x :: y :: ys) n)

/-- The value of an operand as the fast paths read it: the name of a leaf comes first. -/
def Names.leafFirst (nm : Names) (val : Nat → Int) (d : Datum) : Int :=
  match nm.leafOf d with
  | some l => val l.index
  | none => (asInt d).getD 0

/-- The value of an operand as the expression reader reads it: a number comes first. -/
def Names.numberFirst (nm : Names) (val : Nat → Int) (d : Datum) : Int :=
  (asInt d).getD (nm.leafFirst val d)

/-- The truth of a comparison or of an enumeration, given the values of its operands. -/
def atomHolds (ev : Datum → Int) (atom : Datum) : Bool :=
  match comparison atom.head, atom.items with
  | some k, [_, x, y] => cmpEval k (ev x) (ev y)
  | none, _ :: x :: ks => decide (ev x ∈ ks.filterMap asInt)
  | _, _ => false

section Read

variable {R : ExprIds} {nm : Names} {top : Shape} (hnm : nm.Fits top)

theorem leafOf_eq_some {x : Datum} {l : LeafDecl} (h : nm.leafOf x = some l) :
    x.isAtom = true ∧ nm.leaves x.text = some l := by
  simpa [Names.leafOf] using h

theorem readInt_const {d : Datum} {c : Int} {sc : Scope} (h : asInt d = some c) :
    readInt R sc d = .ok (.const c) := by
  cases d with
  | list _ _ => cases h
  | atom name n => simp [readInt, readAtom, h]

/-- A constant or a variable, and its value. -/
inductive Operand (n : Nat) : IExpr → ((Nat → Int) → Int) → Prop
  | const {c : Int} {f : (Nat → Int) → Int} (hc : InInt32 c) (hf : ∀ val, f val = c) :
      Operand n (.const c) f
  | var {p : Nat} {f : (Nat → Int) → Int} (hp : p < n) (hf : ∀ val, f val = val p) :
      Operand n (.var p) f

theorem Operand.number {d : Datum} {c : Int} (h : asInt d = some c) :
    Operand top.width (.const c) (fun val => nm.numberFirst val d) :=
  .const (asInt_inInt32 h) fun val => by simp [Names.numberFirst, h]

include hnm in
theorem Operand.leaf {x : Datum} {l : LeafDecl} (h : nm.leafOf x = some l) :
    ∃ a, readInt R nm.scope x = .ok a ∧ Operand top.width a fun val => nm.numberFirst val x := by
  obtain ⟨hx, hl⟩ := leafOf_eq_some h
  cases hc : asInt x with
  | some c => exact ⟨_, readInt_const hc, .number hc⟩
  | none =>
    refine ⟨.var l.index, ?_, .var (hnm.inside _ l hl) fun val => ?_⟩
    · cases x with
      | list _ _ => cases hx
      | atom name n =>
        have hl' : nm.leaves name = some l := hl
        show readAtom nm.scope (.atom name n) = _
        rw [readAtom, hc]
        simp [Names.scope, Datum.text, hl', hnm.placed name l hl']
    · simp [Names.numberFirst, Names.leafFirst, h, hc]

/-- What the reader makes of an atom of the dedicated filters, with the truth it has: folded,
a guard of one position, or a comparison of two. -/
inductive Filters (n : Nat) : BExpr → ((Nat → Int) → Prop) → Prop
  | dead {F : (Nat → Int) → Prop} (hF : ∀ val, ¬ F val) : Filters n .bfalse F
  | always {F : (Nat → Int) → Prop} (hF : ∀ val, F val) : Filters n .btrue F
  | alone {p : Nat} {b : BExpr} {F : (Nat → Int) → Prop} (hp : p < n) (hb : Over p b)
      (hF : ∀ val, exactBool (Reading.only p (val p)) b = .yes ↔ F val) : Filters n b F
  | crossing {k : CmpOp} {i j : Nat} {F : (Nat → Int) → Prop} (hij : i ≠ j) (hi : i < n)
      (hj : j < n) (hF : ∀ val, cmpEval k (val i) (val j) = true ↔ F val) :
      Filters n (.cmp k (.var i) (.var j)) F

theorem filters_ofBool {n : Nat} {t : Bool} {F : (Nat → Int) → Prop}
    (h : ∀ val, F val ↔ t = true) : Filters n (ofBool t) F := by
  cases t with
  | true => exact .always fun val => (h val).mpr rfl
  | false => exact .dead fun val hF => nomatch (h val).mp hF

/-- A comparison of two operands. -/
theorem Operand.compare {n : Nat} {a b : IExpr} {f g : (Nat → Int) → Int} (k : CmpOp)
    (ha : Operand n a f) (hb : Operand n b g) :
    Filters n (Lia.compare R k a b) fun val => cmpEval k (f val) (g val) = true := by
  cases ha with
  | const hc hf =>
    cases hb with
    | const _ hg => exact filters_ofBool fun val => by rw [hf, hg]
    | @var p _ hp hg =>
      refine .alone hp (.cmp (compares_right R k p hc)) fun val => ?_
      rw [compare_decided (x := _) (y := val p) rfl (by simp [exactInt, Reading.only]), hf, hg,
        Truth.ofBool_yes]
  | @var p _ hp hf =>
    cases hb with
    | const hc hg =>
      refine .alone hp (.cmp (compares_left R k p hc)) fun val => ?_
      rw [compare_only, hf, hg, Truth.ofBool_yes]
    | @var q _ hq hg =>
      simp only [hf, hg]
      by_cases hpq : p = q
      · subst hpq
        have hself : Lia.compare R k (.var p) (.var p) = ofBool k.reflexive := by simp [Lia.compare]
        rw [hself]
        refine filters_ofBool fun val => ?_
        cases k <;> simp [cmpEval, CmpOp.reflexive]
      · simp only [Lia.compare, IExpr.var.injEq, hpq, if_false]
        split
        · next hk => exact .crossing (Ne.symm hpq) hq hp fun val => by rw [cmpEval_symm hk.1]
        · exact .crossing hpq hp hq fun val => .rfl

/-- An enumeration for an operand. -/
theorem Operand.members {n : Nat} {a : IExpr} {f : (Nat → Int) → Int} {cs : List Int}
    (ha : Operand n a f) (hne : cs ≠ []) (hcs : ∀ c ∈ cs, InInt32 c) :
    Filters n (conn R .disj (cs.map fun c => Lia.compare R .eq a (.const c)))
      fun val => f val ∈ cs := by
  cases ha with
  | @var p _ hp hf =>
    exact .alone hp (members_over R p hne hcs) fun val => by rw [hf]; exact members_exact R p _ cs
  | @const c _ _ hf =>
    have hfold : conn R .disj (cs.map fun c' => Lia.compare R .eq (.const c) (.const c')) =
        ofBool (decide (c ∈ cs)) := by
      by_cases hmem : c ∈ cs
      · have habs : BExpr.btrue ∈ cs.map fun c' => Lia.compare R .eq (.const c) (.const c') :=
          List.mem_map.mpr ⟨c, hmem, by simp [Lia.compare, cmpEval, ofBool]⟩
        exact (if_pos habs).trans (by simp [hmem, ofBool, ConnOp.absorbing])
      · have hall : cs.map (fun c' => Lia.compare R .eq (.const c) (.const c')) =
            cs.map fun _ => BExpr.bfalse := List.map_congr_left fun c' hc' => by
          have : c ≠ c' := fun he => hmem (he ▸ hc')
          simp [Lia.compare, cmpEval, ofBool, this]
        have hflat : ∀ cs : List Int, flattenConn .disj (cs.map fun _ => BExpr.bfalse) = [] := by
          intro cs
          induction cs with
          | nil => rfl
          | cons c cs ih => exact (if_pos rfl).trans ih
        rw [hall, conn, if_neg (by simp [ConnOp.absorbing]), hflat]
        simp [hmem, ofBool, sortBools, Lia.packBools, ConnOp.neutral]
    rw [hfold]
    exact filters_ofBool fun val => by rw [hf, decide_eq_true_eq]

/-- The two spellings of the six comparisons are the same. -/
theorem comparator_comparison {s : String} {op : Cmp} (h : comparator s = some op) :
    ∃ k, comparison s = some k ∧ ∀ x y, op.eval x y = cmpEval k x y := by
  unfold comparator at h
  split at h
  · cases h
    exact ⟨.lt, rfl, fun _ _ => rfl⟩
  · cases h
    exact ⟨.leq, rfl, fun _ _ => rfl⟩
  · cases h
    exact ⟨.eq, rfl, fun _ _ => by simp [Cmp.eval, cmpEval, beq_eq_decide]⟩
  · cases h
    exact ⟨.neq, rfl, fun _ _ => by simp [Cmp.eval, cmpEval, bne, beq_eq_decide]⟩
  · cases h
    exact ⟨.geq, rfl, fun _ _ => by simp [Cmp.eval, cmpEval]⟩
  · cases h
    exact ⟨.gt, rfl, fun _ _ => by simp [Cmp.eval, cmpEval]⟩
  · cases h

theorem readBool_comparison {sc : Scope} {h x y : Datum} {n : Int} {k : CmpOp} {a b : IExpr}
    (hk : comparison (Datum.list [h, x, y] n).head = some k) (hx : readInt R sc x = .ok a)
    (hy : readInt R sc y = .ok b) :
    readBool R sc (.list [h, x, y] n) = .ok (compare R k a b) := by
  have hb : isBoolHead (Datum.list [h, x, y] n).head = true := by simp [isBoolHead, hk]
  simp only [readBool, hb, if_true, boolForm, hk, readInts, hx, hy]
  rfl

/-- The constants of an enumeration, as both paths read them. -/
theorem members_read {m : Manager} {a : IExpr} {ks : List Datum} (h : ∀ k ∈ ks, asInt k ≠ none) :
    memberAlts R a ks = .ok ((ks.filterMap asInt).map fun c => Lia.compare R .eq a (.const c)) ∧
      guardAlts m ks = .ok (members m.exprs 0 (ks.filterMap asInt)) := by
  induction ks with
  | nil => exact ⟨rfl, rfl⟩
  | cons k ks ih =>
    obtain ⟨hk, hks⟩ := List.forall_mem_cons.mp h
    obtain ⟨c, hc⟩ := Option.ne_none_iff_exists'.mp hk
    obtain ⟨h1, h2⟩ := ih hks
    have hneed : needConst k = .ok c := by
      cases k with
      | list _ _ => cases hc
      | atom name n => simp [needConst, Datum.isAtom, hc]
    constructor
    · simp only [memberAlts, hc, h1, List.filterMap_cons]
      rfl
    · simp only [guardAlts, hneed, h2, List.filterMap_cons, hc]
      rfl

/-- Another operand is refused by both. -/
theorem members_refused {m : Manager} {a : IExpr} {ks : List Datum} (h : ∃ k ∈ ks, asInt k = none) :
    (∃ e, memberAlts R a ks = .error e) ∧ ∃ e, guardAlts m ks = .error e := by
  induction ks with
  | nil => exact absurd h (by simp)
  | cons k ks ih =>
    cases hk : asInt k with
    | none =>
      refine ⟨⟨_, by simp only [memberAlts, hk]; rfl⟩, ?_⟩
      have hneed : ∃ e, needConst k = .error e := by
        unfold needConst
        split
        · rw [hk]
          exact ⟨_, rfl⟩
        · exact ⟨_, rfl⟩
      obtain ⟨e, he⟩ := hneed
      exact ⟨e, by simp only [guardAlts, he]; rfl⟩
    | some c =>
      obtain ⟨k', hk', hnone⟩ := h
      have hrest : k' ∈ ks := (List.mem_cons.mp hk').resolve_left fun he => by
        rw [he, hk] at hnone
        cases hnone
      obtain ⟨⟨e, he⟩, e', he'⟩ := ih ⟨k', hrest, hnone⟩
      refine ⟨⟨e, by simp only [memberAlts, hk, he]; rfl⟩, ?_⟩
      cases hneed : needConst k with
      | error e'' => exact ⟨e'', by simp only [guardAlts, hneed]; rfl⟩
      | ok c' => exact ⟨e', by simp only [guardAlts, hneed, he']; rfl⟩

theorem readBool_members {sc : Scope} {h x y : Datum} {ys : List Datum} {n : Int} {a : IExpr}
    (hin : (Datum.list (h :: x :: y :: ys) n).head = "in") (hx : readInt R sc x = .ok a) :
    readBool R sc (.list (h :: x :: y :: ys) n) = (do
      return conn R .disj (← memberAlts R a (y :: ys))) := by
  have hb : isBoolHead "in" = true := by decide
  simp only [readBool, hin, hb, if_true, readInts, hx]
  rfl

include hnm in
/-- The expression reader reads an atom of the dedicated filters with numbers first. -/
theorem Names.Fast.reads {atom : Datum} (hfast : nm.Fast atom) :
    ∃ b, readBool R nm.scope atom = .ok b ∧
      Filters top.width b fun val => atomHolds (nm.numberFirst val) atom = true := by
  cases hfast with
  | @leaves h x y n op lx ly hx hop hy =>
    obtain ⟨k, hk, -⟩ := comparator_comparison hop
    obtain ⟨a, ha, hoa⟩ := Operand.leaf (R := R) hnm hx
    obtain ⟨b, hb, hob⟩ := Operand.leaf (R := R) hnm hy
    refine ⟨_, readBool_comparison hk ha hb, ?_⟩
    simpa only [atomHolds, hk, Datum.items] using hoa.compare k hob
  | @constant h x y n v op lx hx hop hy hv =>
    obtain ⟨k, hk, -⟩ := comparator_comparison hop
    obtain ⟨a, ha, hoa⟩ := Operand.leaf (R := R) hnm hx
    refine ⟨_, readBool_comparison hk ha (readInt_const hv), ?_⟩
    simpa only [atomHolds, hk, Datum.items] using hoa.compare k (.number hv)
  | @members h x y ys n lx hx hin hints =>
    obtain ⟨a, ha, hoa⟩ := Operand.leaf (R := R) hnm hx
    obtain ⟨c, hc⟩ := Option.ne_none_iff_exists'.mp (hints y List.mem_cons_self)
    have hcs : ∀ c ∈ (y :: ys).filterMap asInt, InInt32 c := fun c hc => by
      obtain ⟨k, -, hk⟩ := List.mem_filterMap.mp hc
      exact asInt_inInt32 hk
    have hne : (y :: ys).filterMap asInt ≠ [] := by simp [hc]
    have hread := readBool_members hin ha
    rw [(members_read (m := .standard 0 0) hints).1] at hread
    refine ⟨_, hread, ?_⟩
    have hcmp : comparison "in" = none := rfl
    simpa only [atomHolds, hin, hcmp, Datum.items, decide_eq_true_eq] using hoa.members hne hcs

end Read

/-! ## The compiled atom -/

section Compiled

theorem composeTerms_id : (s : Shape) → (e : Term s) → composeTerms s e (Term.id s) = .ok e
  | .unit => fun e => by
    show Except.ok (OpTerm.mkCompose e OpTerm.id) = _
    cases e <;> rfl
  | .leaf => fun (e : IntTerm) => by
    show (if e = IntTerm.id then _ else if IntTerm.id = IntTerm.id then _ else _) = _
    split
    · next he =>
      rw [he]
      rfl
    · exact if_pos rfl
  | .pair _ _ => fun e => by
    show Except.ok (OpTerm.mkCompose e OpTerm.id) = _
    cases e <;> rfl

/-- An atom over one position is a product with one guarded leaf. -/
theorem whenTerm_over {m : Manager} {nm : Names} {s : Shape} {atom : Datum} {b : BExpr} {p : Nat}
    (hp : p < s.width) (hb : readBool m.exprs nm.scope atom = .ok b) (hover : Over p b) :
    ∃ g, shiftPositionsBool m.exprs b (-p) = .ok g ∧ Over 0 g ∧
      whenTerm m.exprs nm.scope s [atom] = .ok (product s
        ((List.replicate s.width IntTerm.id).set p (IntTerm.keepIf g))) := by
  obtain ⟨g, hg, hgo⟩ := hover.shift (R := m.exprs) le_rfl
  rw [Nat.sub_self] at hgo
  obtain ⟨h1, h2, h3⟩ := hover.ne_immediate
  have hread : readWhen m.exprs nm.scope [atom] [] [] = .ok (some ([(p, g)], [])) := by
    simp [readWhen, hb, h1, h2, h3, hover.support.1, hover.support.2, hg, addGuard, made,
      hgo.ne_immediate.1, bind, Except.bind]
  refine ⟨g, hg, hgo, ?_⟩
  unfold whenTerm
  rw [hread]
  simp only [composeFilters, made, bind, Except.bind, separableProduct, byLeaf,
    List.length_replicate, if_pos hp, pure, Except.pure, composeTerms_id]
  simp

/-- An atom that folds is no filter at all, or the zero term. -/
theorem whenTerm_folded {m : Manager} {nm : Names} {s : Shape} {atom : Datum} {t : Bool}
    (hb : readBool m.exprs nm.scope atom = .ok (ofBool t)) :
    whenTerm m.exprs nm.scope s [atom] = if t then .ok (Term.id s) else made (zeroTerm s) := by
  cases t with
  | true =>
    have hread : readWhen m.exprs nm.scope [atom] [] [] = .ok (some ([], [])) := by
      simp [readWhen, hb, ofBool, bind, Except.bind]
    rw [whenTerm, hread]
    rfl
  | false =>
    have hread : readWhen m.exprs nm.scope [atom] [] [] = .ok none := by
      simp [readWhen, hb, ofBool, bind, Except.bind, pure, Except.pure]
    rw [whenTerm, hread, if_neg Bool.false_ne_true]
    show made (makeEvent m.exprs s .bfalse []) = _
    rw [makeEvent.eq_def]
    exact congrArg made (if_pos (.inl rfl))

variable {m : Manager} {nm : Names} {h t : Shape} {atom : Datum} {b : BExpr}
  {d : Code (.pair h t)}

/-- The compiled atom, once the reader and the compiler return, is the term applied. -/
theorem applyCompiled_eq {e : Term (.pair h t)}
    (he : whenTerm m.exprs nm.scope (.pair h t) [atom] = .ok e) :
    applyCompiled m nm (.pair h t) atom d = made (m.apply (.pair h t) e d) := by
  rw [applyCompiled, he]
  rfl

theorem compiled_over {p : Nat} (hp : p < (Shape.pair h t).width)
    (hb : readBool m.exprs nm.scope atom = .ok b) (hover : Over p b)
    (hd : m.Canon (.pair h t) d) : ∃ x, applyCompiled m nm (.pair h t) atom d = made x ∧
      Keeps (den (.pair h t)) (m.Canon (.pair h t))
        (fun w => exactBool (Reading.only p (valueAt (.pair h t) w p)) b = .yes) d x := by
  obtain ⟨g, hg, hgo, hterm⟩ := whenTerm_over hp hb hover
  refine ⟨_, applyCompiled_eq hterm, (hgo.product.keeps d hd).congr fun w _ => ?_⟩
  rw [← hover.shift_exact hg]
  exact ⟨fun hs => hs hp, fun hs _ => hs⟩

theorem compiled_dead (hb : readBool m.exprs nm.scope atom = .ok .bfalse)
    (hleft : (Shape.pair h t).leftmost = .leaf) (hd : m.Canon (.pair h t) d) :
    ∃ x, applyCompiled m nm (.pair h t) atom d = made x ∧
      Keeps (den (.pair h t)) (m.Canon (.pair h t)) (fun _ => False) d x := by
  obtain ⟨z, hz⟩ := zeroTerm_returns (.pair h t) hleft
  refine ⟨_, applyCompiled_eq (e := z) ?_, (Tests.zero (.pair h t) z hz).keeps d hd⟩
  rw [whenTerm_folded (t := false) hb, hz]
  rfl

theorem compiled_true (hb : readBool m.exprs nm.scope atom = .ok .btrue)
    (hd : m.Canon (.pair h t) d) : ∃ x, applyCompiled m nm (.pair h t) atom d = made x ∧
      Keeps (den (.pair h t)) (m.Canon (.pair h t)) (fun _ => True) d x :=
  ⟨_, applyCompiled_eq (whenTerm_folded (t := true) hb), (Tests.id (.pair h t)).keeps d hd⟩

/-- An atom over two positions is a crossing filter. -/
theorem compiled_crossing {k : CmpOp} {i j : Nat} (hij : i ≠ j)
    (hi : i < (Shape.pair h t).width) (hj : j < (Shape.pair h t).width)
    (hb : readBool m.exprs nm.scope atom = .ok (.cmp k (.var i) (.var j)))
    (hdepth : 0 < m.depth) (hd : m.Canon (.pair h t) d) :
    ∃ x, applyCompiled m nm (.pair h t) atom d = made x ∧
      Keeps (den (.pair h t)) (m.Canon (.pair h t))
        (fun w => cmpEval k (valueAt (.pair h t) w i) (valueAt (.pair h t) w j) = true) d x := by
  obtain ⟨n, hn⟩ := Nat.exists_eq_succ_of_ne_zero hdepth.ne'
  obtain ⟨e, he, htest⟩ := comparison_event m.exprs (.pair h t) k i j hij hi hj
  have hread : readWhen m.exprs nm.scope [atom] [] [] =
      .ok (some ([], [.cmp k (.var i) (.var j)])) := by
    have hmem : ∀ p, p ∈ supportBool (.cmp k (.var i) (.var j)) ↔ p = i ∨ p = j := by
      simp [supportBool, sortPositions, collectBool, collect]
    simp only [readWhen, hb, bind, Except.bind, reduceCtorEq, or_self, if_false]
    split
    · next p hs _ =>
      rw [hs] at hmem
      have h1 := (hmem i).mpr (.inl rfl)
      have h2 := (hmem j).mpr (.inr rfl)
      exact absurd ((List.mem_singleton.mp h1).trans (List.mem_singleton.mp h2).symm) hij
    · rfl
  refine ⟨_, applyCompiled_eq (e := e) ?_, (htest m n rfl hn).keeps d hd⟩
  rw [whenTerm, hread]
  simp only [composeFilters, he, made, bind, Except.bind, composeTerms_id]
  rfl

end Compiled

/-! ## The two paths -/

section Paths

variable {m : Manager} {nm : Names} {s : Shape} {atom : Datum} {b : BExpr}
  {F : (Nat → Int) → Prop} {d : Code s}

/-- At a single leaf the compiled atom is a term of the leaf: the identity, or one that the
diagram engine has no evaluation of. -/
theorem whenTerm_leaf (hread : readBool m.exprs nm.scope atom = .ok b) (hb : Filters 1 b F) :
    ∃ t : IntTerm, whenTerm m.exprs nm.scope .leaf [atom] = .ok t ∧ (t = .id ↔ b = .btrue) := by
  cases hb with
  | dead => exact ⟨_, whenTerm_folded (t := false) hread, by simp [IntTerm.keepIf]⟩
  | always => exact ⟨_, whenTerm_folded (t := true) hread, by simp [Term.id]⟩
  | @alone p _ _ hp hover =>
    obtain rfl : p = 0 := Nat.lt_one_iff.mp hp
    obtain ⟨g, -, hgo, hterm⟩ := whenTerm_over (s := .leaf) hp hread hover
    refine ⟨IntTerm.keepIf g, hterm, ?_⟩
    simp [IntTerm.keepIf, hgo.ne_immediate.2.1, hover.ne_immediate.2.1]
  | crossing hij hi hj => omega

theorem applyCompiled_leaf {t : IntTerm} {d : IntSet}
    (h : whenTerm m.exprs nm.scope .leaf [atom] = .ok t) : applyCompiled m nm .leaf atom d =
      made (if t = IntTerm.id then .ok d else if d = [] then .ok []
        else .error .undefinedBehaviour) := by
  show (do made (applyTop m .leaf (← whenTerm m.exprs nm.scope .leaf [atom]) d)) = _
  rw [h]
  rfl

/-- The compiled atom, where it has an evaluation. -/
theorem Filters.compiled (hread : readBool m.exprs nm.scope atom = .ok b)
    (hb : Filters s.width b F) (hdepth : 0 < m.depth) (hd : m.Canon s d)
    (hwidth : 0 < s.width) (hdead : b = .bfalse → s.leftmost = .leaf)
    (hleaf : s = .leaf → b = .btrue ∨ den s d = ∅) :
    ∃ x, applyCompiled m nm s atom d = made x ∧
      Keeps (den s) (m.Canon s) (fun w => F (valueAt s w)) d x := by
  cases s with
  | unit => exact absurd hwidth (Nat.lt_irrefl 0)
  | leaf =>
    obtain ⟨t, hterm, hid⟩ := whenTerm_leaf hread hb
    have hall : ∀ w ∈ den .leaf d, F (valueAt .leaf w) := fun w hw => by
      rcases hleaf rfl with rfl | hempty
      · cases hb with
        | always hF => exact hF _
        | alone _ hover _ => exact absurd rfl hover.ne_immediate.2.1
      · exact absurd hw (hempty ▸ Set.notMem_empty w)
    refine ⟨.ok d, (applyCompiled_leaf hterm).trans (congrArg made ?_), Keeps.all hd hall⟩
    rcases hleaf rfl with hb' | hempty
    · exact if_pos (hid.mpr hb')
    · obtain rfl : d = ([] : IntSet) := List.eq_nil_iff_forall_not_mem.mpr fun v hv =>
        Set.notMem_empty v (hempty ▸ hv)
      split <;> rfl
  | pair h t =>
    cases hb with
    | dead hF =>
      obtain ⟨x, hx, hkeeps⟩ := compiled_dead hread (hdead rfl) hd
      exact ⟨x, hx, hkeeps.congr fun w _ => (iff_false_intro (hF _)).symm⟩
    | always hF =>
      obtain ⟨x, hx, hkeeps⟩ := compiled_true hread hd
      exact ⟨x, hx, hkeeps.congr fun w _ => (iff_true_intro (hF _)).symm⟩
    | alone hp hover hF =>
      obtain ⟨x, hx, hkeeps⟩ := compiled_over hp hread hover hd
      exact ⟨x, hx, hkeeps.congr fun w _ => hF (valueAt _ w)⟩
    | crossing hij hi hj hF =>
      obtain ⟨x, hx, hkeeps⟩ := compiled_crossing hij hi hj hread hdepth hd
      exact ⟨x, hx, hkeeps.congr fun w _ => hF (valueAt _ w)⟩

theorem zeroTerm_refused : (s : Shape) → s.leftmost ≠ .leaf → ∃ e, zeroTerm s = .error e
  | .unit => fun _ => ⟨_, rfl⟩
  | .leaf => fun h => absurd rfl h
  | .pair h _ => fun hl => by
    obtain ⟨e, he⟩ := zeroTerm_refused h hl
    exact ⟨e, by rw [zeroTerm, he]; rfl⟩

/-- Where it has none, no code comes back. -/
theorem Filters.refused (hread : readBool m.exprs nm.scope atom = .ok b)
    (hb : Filters s.width b F) (hbad : ¬ ((b = .bfalse → s.leftmost = .leaf) ∧
      (s = .leaf → b = .btrue ∨ den s d = ∅))) (r : Code s) :
    applyCompiled m nm s atom d ≠ .ok r := by
  rcases not_and_or.mp hbad with hbad | hbad
  · obtain ⟨rfl, hleft⟩ := Classical.not_imp.mp hbad
    obtain ⟨e, he⟩ := zeroTerm_refused s hleft
    rw [applyCompiled, whenTerm_folded (t := false) hread, he]
    nofun
  · obtain ⟨rfl, hbad⟩ := Classical.not_imp.mp hbad
    obtain ⟨hne, hd⟩ := not_or.mp hbad
    obtain ⟨t, hterm, hid⟩ := whenTerm_leaf hread hb
    have hnil : d ≠ ([] : IntSet) := by
      rintro rfl
      exact hd (Set.eq_empty_iff_forall_notMem.mpr fun v => List.not_mem_nil)
    have happ := (applyCompiled_leaf hterm).trans
      (congrArg made ((if_neg (mt hid.mp hne)).trans (if_neg hnil)))
    rw [happ]
    nofun

/-- The dedicated filter of an atom, which reads the names of leaves first. -/
theorem Names.Fast.filter (hfast : nm.Fast atom) (hnm : nm.Fits s) (hd : m.Canon s d) :
    0 < s.width ∧ ∃ y, applyAtom m nm s atom d = made y ∧ Keeps (den s) (m.Canon s)
      (fun w => atomHolds (nm.leafFirst (valueAt s w)) atom = true) d y := by
  cases hfast with
  | @leaves h x y n op lx ly hx hop hy =>
    obtain ⟨k, hk, heval⟩ := comparator_comparison hop
    have hlx := hnm.inside _ lx (leafOf_eq_some hx).2
    have hly := hnm.inside _ ly (leafOf_eq_some hy).2
    refine ⟨by omega, _, ?_, (selectCompare_keeps op hlx hly hd).congr fun w _ => ?_⟩
    · simp only [Names.leafOf] at hx hy
      simp [applyAtom, Datum.items, hx, hy, hop]
    · simp [atomHolds, hk, Datum.items, Names.leafFirst, hx, hy, heval]
  | @constant h x y n v op lx hx hop hy hv =>
    obtain ⟨k, hk, heval⟩ := comparator_comparison hop
    have hlx := hnm.inside _ lx (leafOf_eq_some hx).2
    have hin : (Datum.list [h, x, y] n).head ≠ "in" := fun he => by
      rw [he] at hop
      cases hop
    have hguard : atomGuard m (.list [h, x, y] n) =
        .ok (Lia.compare m.exprs k (.var 0) (.const v)) := by
      simp only [atomGuard, if_neg hin, Datum.items, requireConstant, hv, hk]
      rfl
    refine ⟨by omega, _, ?_,
      (selectWhere_compare m.exprs k (asInt_inInt32 hv) hlx hd).congr fun w _ => ?_⟩
    · simp only [Names.leafOf] at hx hy
      simp [applyAtom, Datum.items, hx, hy, hop, hv, hguard, bind, Except.bind]
    · simp [atomHolds, hk, Datum.items, Names.leafFirst, hx, hy, hv]
  | @members h x y ys n lx hx hin hints =>
    have hlx := hnm.inside _ lx (leafOf_eq_some hx).2
    have hcs : ∀ c ∈ (y :: ys).filterMap asInt, InInt32 c := fun c hc => by
      obtain ⟨k, -, hk⟩ := List.mem_filterMap.mp hc
      exact asInt_inInt32 hk
    have hguard : atomGuard m (.list (h :: x :: y :: ys) n) =
        .ok (conn m.exprs .disj (LibHSC.members m.exprs 0 ((y :: ys).filterMap asInt))) := by
      refine (if_pos hin).trans ?_
      show (do return conn m.exprs .disj (← guardAlts m (y :: ys))) = _
      rw [(members_read (R := m.exprs) (a := .undef) hints).2]
      rfl
    have hcmp : comparison "in" = none := rfl
    have hop : comparator "in" = none := rfl
    refine ⟨by omega, _, ?_, (selectWhere_members m.exprs hcs hlx hd).congr fun w _ => ?_⟩
    · simp only [Names.leafOf] at hx
      simp [applyAtom, Datum.items, hx, hin, hop, hguard, bind, Except.bind]
    · simp [atomHolds, hin, hcmp, Datum.items, Names.leafFirst, hx]

/-- An atom without a dedicated filter is compiled, or refused by both paths. -/
theorem applyAtom_compiled (hnm : nm.Fits s) (hform : atom.items ≠ []) (hfast : ¬ nm.Fast atom)
    (r : Code s) : applyAtom m nm s atom d = .ok r ↔ applyCompiled m nm s atom d = .ok r := by
  obtain ⟨items, n, rfl⟩ : ∃ items n, atom = .list items n := by
    cases atom with
    | atom _ _ => exact absurd rfl hform
    | list items n => exact ⟨items, n, rfl⟩
  match items with
  | [] => exact absurd rfl hform
  | [_] => exact .rfl
  | [_, _] => exact .rfl
  | h0 :: x :: y :: ys =>
    cases hx : nm.leafOf x with
    | none =>
      simp only [Names.leafOf] at hx
      simp [applyAtom, Datum.items, hx]
    | some lx =>
    have hx' := hx
    simp only [Names.leafOf] at hx'
    by_cases hin : (Datum.list (h0 :: x :: y :: ys) n).head = "in"
    · have hsome : ∃ k ∈ y :: ys, asInt k = none := by
        by_contra hno
        exact hfast (.members hx hin fun k hk hnone => hno ⟨k, hk, hnone⟩)
      obtain ⟨a, ha, -⟩ := Operand.leaf (R := m.exprs) hnm hx
      obtain ⟨⟨e, he⟩, e', he'⟩ := members_refused (R := m.exprs) (m := m) (a := a) hsome
      have hop : comparator "in" = none := rfl
      have hread := readBool_members hin ha
      have hguard : atomGuard m (.list (h0 :: x :: y :: ys) n) = .error e' := by
        refine (if_pos hin).trans ?_
        show (do return conn m.exprs .disj (← guardAlts m (y :: ys))) = _
        rw [he']
        rfl
      rw [he] at hread
      have hcompiled : applyCompiled m nm s (.list (h0 :: x :: y :: ys) n) d = .error e := by
        simp [applyCompiled, whenTerm, readWhen, hread, bind, Except.bind]
      rw [hcompiled]
      simp [applyAtom, Datum.items, hx', hin, hop, hguard, bind, Except.bind]
    · by_cases hys : ys = []
      · subst hys
        cases hop : comparator (Datum.list [h0, x, y] n).head with
        | none => simp [applyAtom, Datum.items, hx', hin, hop]
        | some op =>
          cases hy : nm.leafOf y with
          | some ly => exact absurd (.leaves hx hop hy) hfast
          | none =>
            cases hv : asInt y with
            | some v => exact absurd (.constant hx hop hy hv) hfast
            | none =>
              simp only [Names.leafOf] at hy
              simp [applyAtom, Datum.items, hx', hin, hop, hy, hv]
      · simp [applyAtom, Datum.items, hx', hin, hys]

/-- Two filters of one diagram return the same codes when they keep the same of its words. -/
theorem keeps_agree {P Q : Word s → Prop} {x y : Except Err (Code s)}
    (hx : Keeps (den s) (m.Canon s) P d x) (hy : Keeps (den s) (m.Canon s) Q d y) :
    (∀ r, made x = .ok r ↔ made y = .ok r) ↔ ∀ w ∈ den s d, P w ↔ Q w := by
  constructor
  · intro h w hw
    obtain ⟨q, rfl, -, hq⟩ := hx
    obtain ⟨r, rfl, -, hr⟩ := hy
    obtain rfl : r = q := by simpa [made] using (h q).mp rfl
    exact ⟨fun hp => ((hr w).mp ((hq w).mpr ⟨hw, hp⟩)).2,
      fun hp => ((hq w).mp ((hr w).mpr ⟨hw, hp⟩)).2⟩
  · exact fun h r => by rw [Keeps.unique (m.laws s) hx hy h]

end Paths

/-- The dedicated filters keep the words that satisfy their atom, at every sort. The two paths
of an atom return the same code, or none, exactly when no word of the diagram tells the two
readings of the operands apart, and an atom that folds dead has a zero term; at a single leaf
the compiled atom has an evaluation where it folds true, or where there is no word. -/
theorem filters_exact (m : Manager) (nm : Names) :
    (∀ (s : Shape) (d : Code s), m.Canon s d →
      (∀ (op : Cmp) (x y : Nat), x < s.width → y < s.width → Keeps (den s) (m.Canon s)
        (fun w => op.eval (valueAt s w x) (valueAt s w y) = true) d
          (selectCompare m.numbering s d x op y)) ∧
      (∀ (set : IntSet) (x : Nat), x < s.width → IntSet.Canon set → Keeps (den s) (m.Canon s)
        (fun w => valueAt s w x ∈ set) d (selectIn m.numbering s d x set)) ∧
      (∀ (R : ExprIds) (k : CmpOp) (c : Int) (x : Nat), x < s.width → InInt32 c →
        Keeps (den s) (m.Canon s) (fun w => cmpEval k (valueAt s w x) c = true) d
          (selectWhere m.numbering s d x (compare R k (.var 0) (.const c)))) ∧
      (∀ (R : ExprIds) (cs : List Int) (x : Nat), x < s.width → (∀ c ∈ cs, InInt32 c) →
        Keeps (den s) (m.Canon s) (fun w => valueAt s w x ∈ cs) d
          (selectWhere m.numbering s d x (conn R .disj (members R 0 cs))))) ∧
    ∀ (s : Shape) (d : Code s) (atom : Datum), nm.Fits s → 0 < m.depth → m.Canon s d →
      atom.items ≠ [] →
      ((∀ r, applyAtom m nm s atom d = .ok r ↔ applyCompiled m nm s atom d = .ok r) ↔
        (nm.Fast atom → (∀ w ∈ den s d, atomHolds (nm.leafFirst (valueAt s w)) atom =
            atomHolds (nm.numberFirst (valueAt s w)) atom) ∧
          (readBool m.exprs nm.scope atom = .ok .bfalse → s.leftmost = .leaf) ∧
          (s = .leaf → readBool m.exprs nm.scope atom = .ok .btrue ∨ den s d = ∅))) := by
  refine ⟨fun s d hd => ⟨?_, ?_, ?_, ?_⟩, ?_⟩
  · exact fun op x y hx hy => selectCompare_keeps op hx hy hd
  · exact fun set x hx hset => selectIn_keeps hx hset hd
  · exact fun R k c x hx hc => selectWhere_compare R k hc hx hd
  · exact fun R cs x hx hcs => selectWhere_members R hcs hx hd
  · intro s d atom hnm hdepth hd hform
    by_cases hfast : nm.Fast atom
    · obtain ⟨hwidth, y, hy, hykeeps⟩ := hfast.filter (m := m) hnm hd
      obtain ⟨b, hread, hb⟩ := hfast.reads (R := m.exprs) hnm
      simp only [hread, Except.ok.injEq, hfast, true_imp_iff, hy]
      by_cases hruns : (b = .bfalse → s.leftmost = .leaf) ∧ (s = .leaf → b = .btrue ∨ den s d = ∅)
      · obtain ⟨x, hx, hxkeeps⟩ := hb.compiled hread hdepth hd hwidth hruns.1 hruns.2
        rw [hx, keeps_agree hykeeps hxkeeps, and_iff_left hruns]
        exact forall₂_congr fun w _ => Bool.eq_iff_iff.symm
      · refine ⟨fun h => ?_, fun h => absurd h.2 hruns⟩
        obtain ⟨r, rfl, -⟩ := hykeeps
        exact absurd ((h r).mp rfl) (hb.refused hread hruns r)
    · exact iff_of_true (applyAtom_compiled hnm hform hfast) fun h => absurd h hfast

/-- Two leaves by name, in the order of the frontier. -/
def twoNames (a b : String) : Names where
  leaves name := if name = a then some ⟨0, true⟩ else if name = b then some ⟨1, true⟩ else none
  arrays _ := none

theorem twoNames_leaf {a b name : String} {l : LeafDecl} (h : (twoNames a b).leaves name = some l) :
    (name = a ∧ l = ⟨0, true⟩) ∨ (name = b ∧ l = ⟨1, true⟩) := by
  have h' : (if name = a then some (⟨0, true⟩ : LeafDecl)
      else if name = b then some ⟨1, true⟩ else none) = some l := h
  split at h'
  · next hx =>
    cases h'
    exact .inl ⟨hx, rfl⟩
  · split at h'
    · next hy =>
      cases h'
      exact .inr ⟨hy, rfl⟩
    · cases h'

theorem xyNames_fits : (twoNames "x" "y").Fits (.pair .leaf .leaf) where
  placed name l hl := by
    rcases twoNames_leaf hl with ⟨-, rfl⟩ | ⟨-, rfl⟩ <;> rfl
  inside name l hl := by
    rcases twoNames_leaf hl with ⟨-, rfl⟩ | ⟨-, rfl⟩ <;> decide

/-- The atom `(op a b)`. -/
def atomOf (op a b : String) : Datum := .list [.atom op 1, .atom a 1, .atom b 1] 1

def belowDiagonal : Code (.pair .leaf .leaf) :=
  [(⟨[1], [2, 3]⟩ : Arc IntSet IntSet), ⟨[2], [3]⟩]

/-- `(< x y)` on a square: both paths return the three words below the diagonal, behind two
primes. -/
theorem filters_exact_less :
    (∀ r, applyAtom (.standard 0 1) (twoNames "x" "y") (.pair .leaf .leaf) (atomOf "<" "x" "y")
        (valueBox [1, 2, 3] [1, 2, 3]) = .ok r ↔
      applyCompiled (.standard 0 1) (twoNames "x" "y") (.pair .leaf .leaf) (atomOf "<" "x" "y")
        (valueBox [1, 2, 3] [1, 2, 3]) = .ok r) ∧
    (applyAtom (.standard 0 1) (twoNames "x" "y") (.pair .leaf .leaf) (atomOf "<" "x" "y")
        (valueBox [1, 2, 3] [1, 2, 3])).toOption = some belowDiagonal := by
  have hiff := (filters_exact (.standard 0 1) (twoNames "x" "y")).2 (.pair .leaf .leaf)
    (valueBox [1, 2, 3] [1, 2, 3]) (atomOf "<" "x" "y") xyNames_fits (by decide)
    (valueBox_canon (by decide) (by decide) (by decide) (by decide)) (by decide)
  exact ⟨hiff.mpr fun _ => ⟨fun w _ => rfl, fun _ => rfl, nofun⟩, by decide +kernel⟩

def valueSet (vs : List Int) : Code .leaf := IntSet.of vs

/-- The diagram of one value under a leading unit. -/
def unitBox (vs : List Int) : Code (.pair .unit .leaf) :=
  rectangle (algebra .standard .unit) (algebra .standard .leaf) true (IntSet.of vs)

/-- A leaf named `3` is a leaf of the fast path and the constant of the expression reader. At a
single leaf and, for a dead atom, under a leading unit, the compiled atom has no evaluation. -/
theorem atom_paths_differ :
    ((applyAtom (.standard 0 1) (twoNames "x" "3") (.pair .leaf .leaf) (atomOf "==" "x" "3")
        (valueBox [3] [0])).toOption = some (algebra .standard (.pair .leaf .leaf)).none ∧
      (applyCompiled (.standard 0 1) (twoNames "x" "3") (.pair .leaf .leaf)
        (atomOf "==" "x" "3") (valueBox [3] [0])).toOption = some (valueBox [3] [0])) ∧
    ((applyAtom (.standard 0 1) (twoNames "x" "y") .leaf (atomOf "<" "x" "3")
        (valueSet [1, 5])).toOption = some (valueSet [1]) ∧
      (applyCompiled (.standard 0 1) (twoNames "x" "y") .leaf (atomOf "<" "x" "3")
        (valueSet [1, 5])).toOption = none) ∧
    ((applyAtom (.standard 0 1) (twoNames "x" "y") (.pair .unit .leaf) (atomOf "!=" "x" "x")
        (unitBox [1])).toOption = some (algebra .standard (.pair .unit .leaf)).none ∧
      (applyCompiled (.standard 0 1) (twoNames "x" "y") (.pair .unit .leaf) (atomOf "!=" "x" "x")
        (unitBox [1])).toOption = none) := by
  refine ⟨?_, ?_, ?_⟩ <;> decide +kernel

end LibHSC.Surface
