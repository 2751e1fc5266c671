import LibHSC.Query

/-!
The case bracket `when guard do lhs_i := rhs_i` as an event. `makeEvent` pushes
the event down to the deepest sort that holds every position it touches;
`caseApply` evaluates one that crosses a cut, by currying: split one side by a
maximal subexpression, substitute each class's marker and apply the rebuilt
residual to the class.
-/

namespace LibHSC

open Lia

def isArrayNode : IExpr → Bool
  | .array _ _ => true
  | _ => false

/-! ## The assertion chooser -/

section Chooser

variable (lo hi r : Nat)

/-- Scalar support inside `[lo, hi)` and containing `r`, no array placement. -/
def assertable (e : IExpr) : Bool :=
  (arrayPositions e).isEmpty && (support e).all (fun p => lo ≤ p && p < hi) &&
    (support e).contains r

mutual

/-- The topmost assertable subterm, left to right. -/
def findAssert (e : IExpr) : Option IExpr :=
  if assertable lo hi r e then some e
  else match e with
    | .undef => none
    | .const _ => none
    | .var _ => none
    | .nary _ ops => findAssertList ops
    | .binary _ a b => (findAssert a).or (findAssert b)
    | .bitComp a => findAssert a
    | .array _ index => findAssert index
    | .wrapBool b => findAssertBool b

def findAssertList : List IExpr → Option IExpr
  | [] => none
  | x :: xs => (findAssert x).or (findAssertList xs)

def findAssertBool : BExpr → Option IExpr
  | .bfalse => none
  | .btrue => none
  | .bundef => none
  | .cmp _ a b => (findAssert a).or (findAssert b)
  | .conn _ ops => findAssertBoolList ops
  | .neg a => findAssertBool a

def findAssertBoolList : List BExpr → Option IExpr
  | [] => none
  | x :: xs => (findAssertBool x).or (findAssertBoolList xs)

end

def findAssertAssigns : List Assign → Option IExpr
  | [] => none
  | a :: as =>
    ((findAssert lo hi r a.rhs).or
      (if isArrayNode a.lhs then findAssert lo hi r a.lhs else none)).or
      (findAssertAssigns as)

/-- The expression to split by: the guard is searched first, then the
assignments; a bare coordinate is the last resort. -/
def chooseAssert (guard : BExpr) (as : List Assign) : IExpr :=
  ((findAssertBool lo hi r guard).or (findAssertAssigns lo hi r as)).getD (.var r)

end Chooser

/-! ## Building -/

/-- The positions an expression reads or could address. -/
def touchedBy (e : IExpr) : List Nat := support e ++ arrayPositions e

/-- The positions of an assignment. A side that is neither a variable nor an
access is no write target. -/
def touchedByAssign (a : Assign) : Except Err (List Nat) :=
  match a.lhs with
  | .array cells index => .ok (touchedBy a.rhs ++ touchedBy (.array cells index))
  | .var p => .ok (touchedBy a.rhs ++ [p])
  | _ => .error .undefinedBehaviour

def touchedByAll : List Assign → Except Err (List Nat)
  | [] => .ok []
  | a :: as => do return (← touchedByAssign a) ++ (← touchedByAll as)

def touched (guard : BExpr) (as : List Assign) : Except Err (List Nat) := do
  return supportBool guard ++ arrayPositionsBool guard ++ (← touchedByAll as)

/-- The assignments of a bracket without the writes of a position to itself;
`none` when a side is undefined. -/
def pruneAssigns : List Assign → Option (List Assign)
  | [] => some []
  | a :: as =>
    if a.lhs = .undef ∨ a.rhs = .undef then none
    else match pruneAssigns as with
      | none => none
      | some rest => if a.lhs = a.rhs then some rest else some (a :: rest)

/-- The event of one coordinate: at most one write, to position 0. -/
def leafEvent (guard : BExpr) : List Assign → Except Err IntTerm
  | [] => .ok (IntTerm.keepIf guard)
  | [a] => if a.lhs ≠ .var 0 then .error .logic else .ok (IntTerm.applyIf guard a.rhs 0)
  | _ => .error .logic

def shiftAssigns (R : ExprIds) (delta : Int) : List Assign → Except Err (List Assign)
  | [] => .ok []
  | a :: as => do
      return ⟨← shiftPositions R a.lhs delta, ← shiftPositions R a.rhs delta⟩ ::
        (← shiftAssigns R delta as)

def sortAssigns (R : ExprIds) (as : List Assign) : List Assign :=
  as.insertionSort fun a b => R.iexpr a.lhs < R.iexpr b.lhs ∨
    (R.iexpr a.lhs = R.iexpr b.lhs ∧ R.iexpr a.rhs ≤ R.iexpr b.rhs)

def Term.id : (s : Shape) → Term s
  | .unit => OpTerm.id
  | .leaf => IntTerm.id
  | .pair _ _ => OpTerm.id

def Term.isId : (s : Shape) → Term s → Bool
  | .unit => OpTerm.isId
  | .leaf => fun (t : IntTerm) => decide (t = IntTerm.id)
  | .pair _ _ => OpTerm.isId

/-- `node` of the operation table. -/
def Term.node {h t : Shape} (a : Term h) (b : Term t) : Term (.pair h t) :=
  OpTerm.mkNode (Term.isId h) (Term.isId t) a b

/-- `expr_event` of the operation table. -/
def Term.expr {h t : Shape} (guard : BExpr) (assigns : List Assign) : Term (.pair h t) :=
  OpTerm.expr guard assigns

/-- The term refusing every word: a false filter at the leftmost leaf. The
descent does not stop at `1`, which has no head. -/
def zeroTerm : (s : Shape) → Except Err (Term s)
  | .unit => .error .undefinedBehaviour
  | .leaf => .ok (IntTerm.keepIf .bfalse)
  | .pair h t => do return Term.node (← zeroTerm h) (Term.id t)

/-- The event term of `when guard do assigns` at a sort. -/
def makeEvent (R : ExprIds) : (s : Shape) → BExpr → List Assign → Except Err (Term s)
  | s, guard, assigns =>
    if guard = .bfalse ∨ guard = .bundef then zeroTerm s
    else match pruneAssigns assigns with
      | none => zeroTerm s
      | some as =>
        if guard = .btrue ∧ as = [] then .ok (Term.id s)
        else match s with
          | .unit => .error .undefinedBehaviour
          | .leaf => leafEvent guard as
          | .pair h t => do
              let ps ← touched guard as
              if ps.all (fun p => p < h.width) then
                return Term.node (← makeEvent R h guard as) (Term.id t)
              else if ps.all (fun p => h.width ≤ p) then
                let g ← shiftPositionsBool R guard (-h.width)
                let shifted ← shiftAssigns R (-h.width) as
                return Term.node (Term.id h) (← makeEvent R t g shifted)
              else
                return Term.expr guard (sortAssigns R as)

/-! ## Applying -/

/-- The positions still read: scalar supports of the guard, the right-hand sides
and the open left-hand indices. -/
def readAssigns : List Assign → List Nat
  | [] => []
  | a :: as =>
    support a.rhs ++ (if isArrayNode a.lhs then support a.lhs else []) ++ readAssigns as

def reads (guard : BExpr) (as : List Assign) : List Nat :=
  supportBool guard ++ readAssigns as

/-- A scalar target is no subexpression: only the index of an access resolves. -/
def curryLhs (R : ExprIds) (e m lhs : IExpr) : Except Err IExpr :=
  if isArrayNode lhs then substSubexpr R lhs e m else .ok lhs

/-- The assertion `(e := m)` applied to the assignments; `none` when a side
comes out undefined. -/
def curryAssigns (R : ExprIds) (e m : IExpr) : List Assign → Except Err (Option (List Assign))
  | [] => .ok (some [])
  | a :: as => do
      let lhs ← curryLhs R e m a.lhs
      let rhs ← substSubexpr R a.rhs e m
      if lhs = .undef ∨ rhs = .undef then return none
      else match ← curryAssigns R e m as with
        | none => return none
        | some rest => return some (⟨lhs, rhs⟩ :: rest)

/-- The ground writes of the two sides of a cut. -/
def splitWrites (wh : Nat) : List Assign → Except Err (List Assign × List Assign)
  | [] => .ok ([], [])
  | a :: as => do
      let (hs, ts) ← splitWrites wh as
      match a.lhs with
      | .var p =>
        if p < wh then return (a :: hs, ts)
        else return (hs, ⟨.var (p - wh), a.rhs⟩ :: ts)
      | _ => .error .undefinedBehaviour

section Apply

variable (N : Numbering) (R : ExprIds) (M : (s : Shape) → TermAlgebra (Code s) (Term s))

/-- One class of the split: substitute the marker and apply the residual to the
class's rectangle. -/
def applyClass (s : Shape) (guard : BExpr) (as : List Assign) (e m : IExpr) (d out : Code s) :
    Except Err (Code s) := do
  let g ← substSubexprBool R guard e m
  if g = .bfalse ∨ g = .bundef then return out
  else match ← curryAssigns R e m as with
    | none => return out
    | some curried =>
      let residual ← makeEvent R s g curried
      return (algebra N s).join out (← (M s).apply residual d)

/-- The classes of one arc, then of the next, joined into `out`. -/
def applyClasses (h t : Shape) (guard : BExpr) (as : List Assign) (e : IExpr) :
    List (IExpr × Arc (Code h) (Code t)) → Code (.pair h t) → Except Err (Code (.pair h t))
  | [], out => .ok out
  | (m, a) :: cs, out => do
      let d := rectangle (algebra N h) (algebra N t) a.prime a.sub
      applyClasses h t guard as e cs (← applyClass N R M (.pair h t) guard as e m d out)

/-- The ground bracket: each side's constant writes, arc by arc. -/
def applyGround (h t : Shape) (th : Term h) (tt : Term t) :
    List (Arc (Code h) (Code t)) → Except Err (List (Arc (Code h) (Code t)))
  | [] => .ok []
  | a :: as => do
      let np ← (M h).apply th a.prime
      if np = (algebra N h).none then applyGround h t th tt as
      else do
        let ns ← (M t).apply tt a.sub
        if ns = (algebra N t).none then applyGround h t th tt as
        else return ⟨np, ns⟩ :: (← applyGround h t th tt as)

/-- Curry by a subexpression of the head side. -/
def curryHead (h t : Shape) (guard : BExpr) (as : List Assign) (r : Nat)
    (d : List (Arc (Code h) (Code t))) : Except Err (Code (.pair h t)) := do
  let e := chooseAssert 0 h.width r guard as
  let cs ← headRects (splitEquiv N R h) e d
  applyClasses N R M h t guard as e cs (algebra N (.pair h t)).none

/-- Curry by a subexpression of the tail side, re-rooted for the split. -/
def curryTail (h t : Shape) (guard : BExpr) (as : List Assign) (r : Nat)
    (d : List (Arc (Code h) (Code t))) : Except Err (Code (.pair h t)) := do
  let e := chooseAssert h.width (h.width + t.width) r guard as
  let cs ← tailRects (splitEquiv N R t) (← shiftPositions R e (-h.width)) d
  applyClasses N R M h t guard as e cs (algebra N (.pair h t)).none

/-- Nothing is read: the guard is true and every write is a constant. -/
def writeGround (h t : Shape) (as : List Assign) (d : List (Arc (Code h) (Code t))) :
    Except Err (Code (.pair h t)) := do
  let ws ← splitWrites h.width as
  let th ← makeEvent R h .btrue ws.1
  let tt ← makeEvent R t .btrue ws.2
  return canonize (algebra N h) (algebra N t) (← applyGround N M h t th tt d)

/-- Evaluate a crossing bracket on a diagram of a composite sort. -/
def caseApply : (s : Shape) → BExpr → List Assign → Code s → Except Err (Code s)
  | .unit, _, _, _ => .error .undefinedBehaviour
  | .leaf, _, _, _ => .error .undefinedBehaviour
  | .pair h t, guard, as, d =>
    match (reads guard as).min? with
    | some r => if r < h.width then curryHead N R M h t guard as r d
        else curryTail N R M h t guard as r d
    | none => writeGround N R M h t as d

end Apply

/-- The registered evaluator; `depth` bounds the nesting of residuals, `fuel`
the rounds of a closure. -/
def caseEngine (N : Numbering) (R : ExprIds) (fuel : Nat) : Nat → CaseEvaluator
  | 0 => fun _ _ _ _ => .error .fuel
  | depth + 1 => caseApply N R (termAlgebra N (caseEngine N R fuel depth) fuel)

/-! ## Events are lawful terms -/

theorem IntTerm.assignIf_wf {g : BExpr} {v : Int} (hv : InInt32 v) : (assignIf g v).WF := by
  unfold assignIf
  split
  · exact ⟨trivial, hv⟩
  · exact ⟨trivial, hv⟩

theorem IntTerm.keepIf_wf (g : BExpr) : (keepIf g).WF := by
  unfold keepIf
  split
  · trivial
  · exact ⟨trivial, trivial⟩

theorem IntTerm.shiftIf_wf {g : BExpr} {k : Int} (hk : InInt32 k) : (shiftIf g k).WF := by
  unfold shiftIf
  split
  · exact keepIf_wf g
  · next h0 =>
    split
    · unfold shift
      rw [if_neg h0]
      exact ⟨trivial, hk⟩
    · exact ⟨trivial, hk⟩

theorem isConst_inInt32 {k : Int} (h : isConst (.const k) = true) : InInt32 k := by
  have := of_decide_eq_true h
  unfold InInt32
  omega

theorem IntTerm.applyIf_wf {g : BExpr} {rhs : IExpr} {modulo : Int} (hr : rhs.Normal)
    (hm : InInt32 modulo) : (applyIf g rhs modulo).WF := by
  have hgeneral : ∀ e : IExpr, (prim (boolGuard g) (.xform e modulo)).WF := by
    intro e
    refine ⟨?_, hm⟩
    unfold boolGuard
    split <;> trivial
  unfold applyIf
  split
  · apply assignIf_wf
    split
    · next h0 => exact wrapModulo_inInt32 hm h0
    · exact hr
  · exact keepIf_wf _
  · split
    · exact hgeneral _
    · split
      · exact keepIf_wf g
      · split
        · next hk => exact shiftIf_wf (isConst_inInt32 hk)
        · exact hgeneral _
      · split
        · next hk => exact shiftIf_wf (isConst_inInt32 hk)
        · exact hgeneral _
      · exact hgeneral _

section Lawful

variable {N : Numbering} {R : ExprIds} {K : CaseRel}

theorem Term.id_lawful : (s : Shape) → Term.Lawful K N s (Term.id s)
  | .unit => ⟨trivial, trivial⟩
  | .leaf => ⟨trivial, trivial⟩
  | .pair _ _ => ⟨trivial, trivial⟩

theorem Term.node_lawful {h t : Shape} {a : Term h} {b : Term t} (ha : Term.Lawful K N h a)
    (hb : Term.Lawful K N t b) : Term.Lawful K N (.pair h t) (Term.node a b) := by
  unfold Term.node OpTerm.mkNode
  split
  · exact ⟨trivial, trivial⟩
  · exact ⟨⟨ha.wf, hb.wf⟩, ⟨ha.additive, hb.additive⟩⟩

theorem zeroTerm_lawful : (s : Shape) → ∀ r, zeroTerm s = .ok r → Term.Lawful K N s r
  | .unit => fun r h => nomatch h
  | .leaf => by
    intro r h
    cases h
    exact ⟨IntTerm.keepIf_wf _, trivial⟩
  | .pair h t => by
    intro r hr
    obtain ⟨z, hz, hr⟩ := bind_eq_ok.mp hr
    cases hr
    exact Term.node_lawful (zeroTerm_lawful h z hz) (Term.id_lawful t)

theorem pruneAssigns_mem : ∀ {as as' : List Assign}, pruneAssigns as = some as' →
    ∀ a ∈ as', a ∈ as := by
  intro as
  induction as with
  | nil =>
    intro as' h
    cases h
    simp
  | cons x xs ih =>
    intro as' h a ha
    unfold pruneAssigns at h
    split at h
    · cases h
    · split at h
      · cases h
      · next rest hrest =>
        split at h
        · cases h
          exact List.mem_cons_of_mem _ (ih hrest a ha)
        · cases h
          rcases List.mem_cons.mp ha with rfl | ha
          · exact List.mem_cons_self
          · exact List.mem_cons_of_mem _ (ih hrest a ha)

theorem shiftAssigns_normal {delta : Int} : ∀ {as as' : List Assign},
    (∀ a ∈ as, a.lhs.Normal ∧ a.rhs.Normal) → shiftAssigns R delta as = .ok as' →
    ∀ a ∈ as', a.lhs.Normal ∧ a.rhs.Normal := by
  intro as
  induction as with
  | nil =>
    intro as' _ h
    cases h
    simp
  | cons x xs ih =>
    intro as' hall h
    obtain ⟨hx, hxs⟩ := List.forall_mem_cons.mp hall
    obtain ⟨l, hl, h⟩ := bind_eq_ok.mp h
    obtain ⟨r, hr, h⟩ := bind_eq_ok.mp h
    obtain ⟨rest, hrest, h⟩ := bind_eq_ok.mp h
    cases h
    exact List.forall_mem_cons.mpr
      ⟨⟨shiftPositions_normal hx.1 hl, shiftPositions_normal hx.2 hr⟩, ih hxs hrest⟩

theorem leafEvent_wf {guard : BExpr} {as : List Assign} {t : IntTerm}
    (has : ∀ a ∈ as, a.lhs.Normal ∧ a.rhs.Normal) (h : leafEvent guard as = .ok t) : t.WF := by
  match as with
  | [] =>
    cases h
    exact IntTerm.keepIf_wf guard
  | [a] =>
    simp only [leafEvent] at h
    split at h
    · cases h
    · cases h
      exact IntTerm.applyIf_wf (has a (by simp)).2 (by decide)
  | _ :: _ :: _ => cases h

/-- What `makeEvent` builds is well formed and acts as an image. By induction on
the sort. -/
theorem makeEvent_lawful : (s : Shape) → ∀ (guard : BExpr) (as : List Assign) (r : Term s),
    CaseNormal guard as → makeEvent R s guard as = .ok r → Term.Lawful K N s r := by
  intro s
  induction s with
  | unit =>
    intro guard as r hn h
    unfold makeEvent at h
    split at h
    · exact zeroTerm_lawful _ r h
    split at h
    · exact zeroTerm_lawful _ r h
    split at h
    · cases h
      exact Term.id_lawful _
    · cases h
  | leaf =>
    intro guard as r hn h
    unfold makeEvent at h
    split at h
    · exact zeroTerm_lawful _ r h
    split at h
    · exact zeroTerm_lawful _ r h
    · next as' has' =>
      split at h
      · cases h
        exact Term.id_lawful _
      · exact ⟨leafEvent_wf (fun a ha => hn.2 a (pruneAssigns_mem has' a ha)) h, trivial⟩
  | pair hd tl ihH ihT =>
    intro guard as r hn h
    unfold makeEvent at h
    split at h
    · exact zeroTerm_lawful _ r h
    split at h
    · exact zeroTerm_lawful _ r h
    · next as' has' =>
      have hn' : ∀ a ∈ as', a.lhs.Normal ∧ a.rhs.Normal := fun a ha =>
        hn.2 a (pruneAssigns_mem has' a ha)
      split at h
      · cases h
        exact Term.id_lawful _
      · obtain ⟨ps, -, h⟩ := bind_eq_ok.mp h
        split at h
        · obtain ⟨a, ha, h⟩ := bind_eq_ok.mp h
          cases h
          exact Term.node_lawful (ihH guard as' a ⟨hn.1, hn'⟩ ha) (Term.id_lawful tl)
        split at h
        · obtain ⟨g, hg, h⟩ := bind_eq_ok.mp h
          obtain ⟨sh, hsh, h⟩ := bind_eq_ok.mp h
          obtain ⟨b, hb, h⟩ := bind_eq_ok.mp h
          cases h
          exact Term.node_lawful (Term.id_lawful hd) (ihT g sh b
            ⟨shiftPositionsBool_normal hn.1 hg, shiftAssigns_normal hn' hsh⟩ hb)
        · cases h
          refine ⟨⟨hn.1, fun a ha => hn' a ?_⟩, trivial⟩
          exact (List.perm_insertionSort _ _).mem_iff.mp ha

end Lawful

/-! ## The engine acts as an image -/

section EngineCanon

variable {N : Numbering} {R : ExprIds} {M : (s : Shape) → TermAlgebra (Code s) (Term s)}

theorem curryAssigns_normal {e m : IExpr} (hm : m.Normal) : ∀ {as as' : List Assign},
    (∀ a ∈ as, a.lhs.Normal ∧ a.rhs.Normal) → curryAssigns R e m as = .ok (some as') →
    ∀ a ∈ as', a.lhs.Normal ∧ a.rhs.Normal := by
  intro as
  induction as with
  | nil =>
    intro as' _ h
    cases h
    simp
  | cons x xs ih =>
    intro as' hall h
    obtain ⟨hx, hxs⟩ := List.forall_mem_cons.mp hall
    obtain ⟨l, hl, h⟩ := bind_eq_ok.mp h
    obtain ⟨r, hr, h⟩ := bind_eq_ok.mp h
    have hln : l.Normal := by
      unfold curryLhs at hl
      split at hl
      · exact substSubexpr_normal hx.1 hm hl
      · cases hl
        exact hx.1
    split at h
    · cases h
    · obtain ⟨rest, hrest, h⟩ := bind_eq_ok.mp h
      cases rest with
      | none => cases h
      | some rest =>
        cases h
        exact List.forall_mem_cons.mpr ⟨⟨hln, substSubexpr_normal hx.2 hm hr⟩, ih hxs hrest⟩

mutual

/-- The chosen subterm is normal, and assertable. -/
theorem findAssert_spec {lo hi r : Nat} : (e x : IExpr) → e.Normal →
    findAssert lo hi r e = some x → x.Normal ∧ assertable lo hi r x = true := by
  intro e x he h
  unfold findAssert at h
  split at h
  · next ha =>
    cases h
    exact ⟨he, ha⟩
  · cases e with
    | undef => cases h
    | const _ => cases h
    | var _ => cases h
    | nary k ops => exact findAssertList_spec ops x he.1 h
    | binary k a b =>
      rcases Option.or_eq_some_iff.mp h with h | ⟨-, h⟩
      · exact findAssert_spec a x he.1 h
      · exact findAssert_spec b x he.2.1 h
    | bitComp a => exact findAssert_spec a x he.1 h
    | array cells index => exact findAssert_spec index x he.1 h
    | wrapBool b => exact findAssertBool_spec b x he.1 h

theorem findAssertList_spec {lo hi r : Nat} : (xs : List IExpr) → (x : IExpr) →
    IExpr.NormalList xs → findAssertList lo hi r xs = some x →
    x.Normal ∧ assertable lo hi r x = true := by
  intro xs x hxs h
  cases xs with
  | nil => cases h
  | cons y ys =>
    rcases Option.or_eq_some_iff.mp h with h | ⟨-, h⟩
    · exact findAssert_spec y x hxs.1 h
    · exact findAssertList_spec ys x hxs.2 h

theorem findAssertBool_spec {lo hi r : Nat} : (e : BExpr) → (x : IExpr) → e.Normal →
    findAssertBool lo hi r e = some x → x.Normal ∧ assertable lo hi r x = true := by
  intro e x he h
  cases e with
  | bfalse => cases h
  | btrue => cases h
  | bundef => cases h
  | cmp k a b =>
    rcases Option.or_eq_some_iff.mp h with h | ⟨-, h⟩
    · exact findAssert_spec a x he.1 h
    · exact findAssert_spec b x he.2.1 h
  | conn k ops => exact findAssertBoolList_spec ops x he.1 h
  | neg a => exact findAssertBool_spec a x he.1 h

theorem findAssertBoolList_spec {lo hi r : Nat} : (xs : List BExpr) → (x : IExpr) →
    BExpr.NormalList xs → findAssertBoolList lo hi r xs = some x →
    x.Normal ∧ assertable lo hi r x = true := by
  intro xs x hxs h
  cases xs with
  | nil => cases h
  | cons y ys =>
    rcases Option.or_eq_some_iff.mp h with h | ⟨-, h⟩
    · exact findAssertBool_spec y x hxs.1 h
    · exact findAssertBoolList_spec ys x hxs.2 h

end

theorem findAssertAssigns_spec {lo hi r : Nat} {x : IExpr} : ∀ {as : List Assign},
    (∀ a ∈ as, a.lhs.Normal ∧ a.rhs.Normal) → findAssertAssigns lo hi r as = some x →
    x.Normal ∧ assertable lo hi r x = true := by
  intro as
  induction as with
  | nil =>
    intro _ h
    cases h
  | cons a as ih =>
    intro hall h
    obtain ⟨ha, has⟩ := List.forall_mem_cons.mp hall
    rcases Option.or_eq_some_iff.mp h with h | ⟨-, h⟩
    · rcases Option.or_eq_some_iff.mp h with h | ⟨-, h⟩
      · exact findAssert_spec a.rhs x ha.2 h
      · split at h
        · exact findAssert_spec a.lhs x ha.1 h
        · cases h
    · exact ih has h

/-- The expression split by is normal; it is assertable unless it is the bare
coordinate. -/
theorem chooseAssert_spec (lo hi r : Nat) {guard : BExpr} {as : List Assign}
    (hn : CaseNormal guard as) : (chooseAssert lo hi r guard as).Normal ∧
      (assertable lo hi r (chooseAssert lo hi r guard as) = true ∨
        chooseAssert lo hi r guard as = .var r) := by
  unfold chooseAssert
  cases h : (findAssertBool lo hi r guard).or (findAssertAssigns lo hi r as) with
  | none => exact ⟨trivial, Or.inr rfl⟩
  | some x =>
    have hx : x.Normal ∧ assertable lo hi r x = true := by
      rcases Option.or_eq_some_iff.mp h with h | ⟨-, h⟩
      · exact findAssertBool_spec guard x hn.1 h
      · exact findAssertAssigns_spec hn.2 h
    exact ⟨hx.1, Or.inl hx.2⟩

theorem splitWrites_normal {wh : Nat} : ∀ {as : List Assign} {ws : List Assign × List Assign},
    (∀ a ∈ as, a.lhs.Normal ∧ a.rhs.Normal) → splitWrites wh as = .ok ws →
    (∀ a ∈ ws.1, a.lhs.Normal ∧ a.rhs.Normal) ∧ ∀ a ∈ ws.2, a.lhs.Normal ∧ a.rhs.Normal := by
  intro as
  induction as with
  | nil =>
    intro ws _ h
    cases h
    simp
  | cons a as ih =>
    intro ws hall h
    obtain ⟨ha, has⟩ := List.forall_mem_cons.mp hall
    obtain ⟨rest, hrest, h⟩ := bind_eq_ok.mp h
    obtain ⟨h1, h2⟩ := ih has hrest
    dsimp only at h
    split at h
    · split at h
      · cases h
        exact ⟨List.forall_mem_cons.mpr ⟨ha, h1⟩, h2⟩
      · cases h
        exact ⟨h1, List.forall_mem_cons.mpr ⟨⟨trivial, ha.2⟩, h2⟩⟩
    · cases h

end EngineCanon

/-! ## The relation of a case bracket -/

section BracketRel

variable (R : ExprIds) (K : CaseRel)

/-- What the residual of one class does to a word: the bracket with the marker
`m` substituted for `e`. -/
def residualRel (s : Shape) (guard : BExpr) (as : List Assign) (e m : IExpr)
    (v u : Word s) : Prop :=
  ∃ g curried residual, substSubexprBool R guard e m = .ok g ∧ ¬(g = .bfalse ∨ g = .bundef) ∧
    curryAssigns R e m as = .ok (some curried) ∧ makeEvent R s g curried = .ok residual ∧
    Term.rel K s residual v u

/-- The bracket on words: each word goes through the residual of its marker. -/
def bracketRel : (s : Shape) → BExpr → List Assign → Word s → Word s → Prop
  | .unit, _, _, _, _ => False
  | .leaf, _, _, _, _ => False
  | .pair h t, guard, as, v, u =>
    match (reads guard as).min? with
    | some r =>
      if r < h.width then
        ∃ m, Marks R h (chooseAssert 0 h.width r guard as) v.1 m ∧
          residualRel R K (.pair h t) guard as (chooseAssert 0 h.width r guard as) m v u
      else
        ∃ e' m, shiftPositions R (chooseAssert h.width (h.width + t.width) r guard as)
            (-h.width) = .ok e' ∧ Marks R t e' v.2 m ∧
          residualRel R K (.pair h t) guard as
            (chooseAssert h.width (h.width + t.width) r guard as) m v u
    | none => ∃ ws th tt, splitWrites h.width as = .ok ws ∧ makeEvent R h .btrue ws.1 = .ok th ∧
        makeEvent R t .btrue ws.2 = .ok tt ∧ nodeRel (Term.rel K h) (Term.rel K t) th tt v u

end BracketRel

/-- The relations of the registered evaluator. -/
def engineRel (R : ExprIds) : Nat → CaseRel
  | 0 => fun _ _ _ _ _ => False
  | depth + 1 => bracketRel R (engineRel R depth)

section EngineImage

variable {N : Numbering} {R : ExprIds} {K : CaseRel}
  {M : (s : Shape) → TermAlgebra (Code s) (Term s)}
  (hM : ∀ s, TermLaws (M s) (den s) (Canon N s) (Term.WF N s) (Term.Additive K s) (Term.rel K s))

include hM

theorem applyClass_spec {s : Shape} {guard : BExpr} {as : List Assign} {e m : IExpr}
    {d out r : Code s} (hn : CaseNormal guard as) (hm : m.Normal) (hd : Canon N s d)
    (ho : Canon N s out) (h : applyClass N R M s guard as e m d out = .ok r) :
    Canon N s r ∧ den s r = den s out ∪ post (residualRel R K s guard as e m) (den s d) := by
  -- a class whose residual refuses contributes nothing
  have hrefused : (∀ v u, ¬ residualRel R K s guard as e m v u) →
      den s out = den s out ∪ post (residualRel R K s guard as e m) (den s d) := by
    intro hno
    refine (Set.union_eq_left.mpr ?_).symm
    rintro u ⟨v, -, hvu⟩
    exact absurd hvu (hno v u)
  obtain ⟨g, hg, h⟩ := bind_eq_ok.mp h
  split at h
  · next hf =>
    cases h
    refine ⟨ho, hrefused ?_⟩
    rintro v u ⟨g', _, _, hg', hnf, -⟩
    rw [hg] at hg'
    cases hg'
    exact hnf hf
  · next hf =>
    obtain ⟨c, hc, h⟩ := bind_eq_ok.mp h
    cases c with
    | none =>
      cases h
      refine ⟨ho, hrefused ?_⟩
      rintro v u ⟨_, _, _, -, -, hc', -⟩
      rw [hc] at hc'
      cases hc'
    | some curried =>
      obtain ⟨t, ht, h⟩ := bind_eq_ok.mp h
      obtain ⟨x, hx, h⟩ := bind_eq_ok.mp h
      cases h
      have hcn : CaseNormal g curried :=
        ⟨substSubexprBool_normal hn.1 hm hg, curryAssigns_normal hm hn.2 hc⟩
      have hlaw := makeEvent_lawful (K := K) (N := N) s g curried t hcn ht
      have hxc := (hM s).canon_apply hlaw.wf hd hx
      refine ⟨(laws N s).canon_join ho hxc, ?_⟩
      rw [(laws N s).den_join ho hxc, (hM s).den_apply hlaw.wf hlaw.additive hd hx]
      congr 2
      funext v u
      refine propext ⟨fun hr => ⟨g, curried, t, hg, hf, hc, ht, hr⟩, ?_⟩
      rintro ⟨g', c', t', hg', -, hc', ht', hr⟩
      rw [hg] at hg'
      cases hg'
      rw [hc] at hc'
      cases hc'
      rw [ht] at ht'
      cases ht'
      exact hr

theorem applyClasses_spec {h t : Shape} {guard : BExpr} {as : List Assign} {e : IExpr}
    (hn : CaseNormal guard as) : ∀ {cs : List (IExpr × Arc (Code h) (Code t))}
    {out r : Code (.pair h t)}, (∀ c ∈ cs, c.1.Normal) →
    (∀ c ∈ cs, Canon N h c.2.prime ∧ Canon N t c.2.sub) → Canon N (.pair h t) out →
    applyClasses N R M h t guard as e cs out = .ok r →
    Canon N (.pair h t) r ∧ ∀ u, u ∈ den (.pair h t) r ↔ u ∈ den (.pair h t) out ∨
      ∃ c ∈ cs, ∃ v : Word h × Word t, v.1 ∈ den h c.2.prime ∧ v.2 ∈ den t c.2.sub ∧
        residualRel R K (.pair h t) guard as e c.1 v u := by
  intro cs
  induction cs with
  | nil =>
    intro out r _ _ ho hr
    cases hr
    exact ⟨ho, by simp⟩
  | cons c cs ih =>
    intro out r hm hc ho hr
    obtain ⟨hm1, hms⟩ := List.forall_mem_cons.mp hm
    obtain ⟨⟨hp, hs⟩, hcs⟩ := List.forall_mem_cons.mp hc
    obtain ⟨x, hx, hr⟩ := bind_eq_ok.mp hr
    obtain ⟨hrc, hrd⟩ := rectangle_correct (laws N _) (laws N _) hp hs
    obtain ⟨hxc, hxd⟩ := applyClass_spec (s := .pair h t) hM hn hm1 hrc ho hx
    obtain ⟨h1, h2⟩ := ih hms hcs hxc hr
    refine ⟨h1, fun u => ?_⟩
    have hmem : u ∈ den (.pair h t) x ↔ u ∈ den (.pair h t) out ∨
        ∃ v : Word h × Word t, v.1 ∈ den h c.2.prime ∧ v.2 ∈ den t c.2.sub ∧
          residualRel R K (.pair h t) guard as e c.1 v u := by
      rw [hxd]
      refine or_congr_right (exists_congr fun v => ?_)
      rw [← and_assoc]
      exact and_congr_left fun _ => Set.ext_iff.mp hrd v
    rw [h2, hmem, List.exists_mem_cons_iff, or_assoc]

theorem applyGround_spec {h t : Shape} {th : Term h} {tt : Term t}
    (hth : Term.Lawful K N h th) (htt : Term.Lawful K N t tt) :
    ∀ {d r : List (Arc (Code h) (Code t))}, CanonArcs (Canon N h) (Canon N t) d →
    applyGround N M h t th tt d = .ok r →
    CanonArcs (Canon N h) (Canon N t) r ∧ nodeDen (den h) (den t) r =
      post (nodeRel (Term.rel K h) (Term.rel K t) th tt) (nodeDen (den h) (den t) d) := by
  intro d
  induction d with
  | nil =>
    intro r _ h
    cases h
    exact ⟨canonArcs_nil, by simp⟩
  | cons a as ih =>
    intro r hc h
    obtain ⟨⟨hp, hs⟩, hcs⟩ := (canonArcs_cons a as).mp hc
    obtain ⟨np, hnp, h⟩ := bind_eq_ok.mp h
    have hpd := (hM _).den_apply hth.wf hth.additive hp hnp
    split at h
    · next hno =>
      obtain ⟨h1, h2⟩ := ih hcs h
      refine ⟨h1, h2.trans ?_⟩
      rw [hno, (laws N _).den_none] at hpd
      rw [nodeDen_cons, post_union, post_nodeRel_prod, ← hpd, Set.empty_prod, Set.empty_union]
    · obtain ⟨ns, hns, h⟩ := bind_eq_ok.mp h
      have hsd := (hM _).den_apply htt.wf htt.additive hs hns
      split at h
      · next hno =>
        obtain ⟨h1, h2⟩ := ih hcs h
        refine ⟨h1, h2.trans ?_⟩
        rw [hno, (laws N _).den_none] at hsd
        rw [nodeDen_cons, post_union, post_nodeRel_prod, ← hsd, Set.prod_empty, Set.empty_union]
      · obtain ⟨rest, hrest, h⟩ := bind_eq_ok.mp h
        cases h
        obtain ⟨h1, h2⟩ := ih hcs hrest
        refine ⟨(canonArcs_cons _ _).mpr ⟨⟨(hM _).canon_apply hth.wf hp hnp,
          (hM _).canon_apply htt.wf hs hns⟩, h1⟩, ?_⟩
        rw [nodeDen_cons, nodeDen_cons, post_union, post_nodeRel_prod, ← hpd, ← hsd, h2]

/-- The words of one class go through its residual, and the classes of the split
are the words by marker: together, the bracket's relation. -/
theorem applyClasses_image {h t : Shape} {guard : BExpr} {as : List Assign} {e : IExpr}
    {d r : Code (.pair h t)} {cs : List (IExpr × Arc (Code h) (Code t))}
    {Has : Word h × Word t → IExpr → Prop} (hn : CaseNormal guard as)
    (hunique : ∀ w m m', Has w m → Has w m' → m = m')
    (hcs : RectClasses (den h) (den t) (Canon N h) (Canon N t) Has d cs)
    (hr : applyClasses N R M h t guard as e cs (algebra N (.pair h t)).none = .ok r) :
    Canon N (.pair h t) r ∧ ∀ u : Word h × Word t, u ∈ den (.pair h t) r ↔
      ∃ v ∈ nodeDen (den h) (den t) d, ∃ m, Has v m ∧
        residualRel R K (.pair h t) guard as e m v u := by
  obtain ⟨h1, h2⟩ := applyClasses_spec hM hn (fun c hc => (hcs.marker c hc).1) hcs.canon
    (laws N (.pair h t)).canon_none hr
  refine ⟨h1, fun u => (h2 u).trans ?_⟩
  constructor
  · rintro (hu | ⟨c, hc, v, hv1, hv2, hvu⟩)
    · exact ((laws N (.pair h t)).den_none.subset hu).elim
    · exact ⟨v, (hcs.cover v).mpr ⟨c, hc, hv1, hv2⟩, c.1, hcs.has c hc v hv1 hv2, hvu⟩
  · rintro ⟨v, hv, m, hm, hvu⟩
    obtain ⟨c, hc, hv1, hv2⟩ := (hcs.cover v).mp hv
    obtain rfl := hunique v _ _ hm (hcs.has c hc v hv1 hv2)
    exact Or.inr ⟨c, hc, v, hv1, hv2, hvu⟩

/-- Evaluation of a crossing bracket is the image under its relation. -/
theorem caseApply_spec : (s : Shape) → ∀ (guard : BExpr) (as : List Assign) (d r : Code s),
    CaseNormal guard as → Canon N s d → caseApply N R M s guard as d = .ok r →
    Canon N s r ∧ den s r = post (bracketRel R K s guard as) (den s d)
  | .unit => fun _ _ _ _ _ _ h => nomatch h
  | .leaf => fun _ _ _ _ _ _ h => nomatch h
  | .pair hs ts => by
    intro guard as d r hn hd h
    simp only [caseApply] at h
    split at h
    · next p hp =>
      split at h
      · next hlt =>
        have he := (chooseAssert_spec 0 hs.width p hn).1
        obtain ⟨cs, hcs, h⟩ := bind_eq_ok.mp h
        have hc : RectClasses (den hs) (den ts) (Canon N hs) (Canon N ts)
            (fun w => Marks R hs (chooseAssert 0 hs.width p guard as) w.1) d cs :=
          headRects_classes (fun _ _ hm => hm)
            (fun q cs hq => splitEquiv_classes hs q _ cs he hq) hd.canon hcs
        obtain ⟨h1, h2⟩ := applyClasses_image hM hn (fun w m m' => Marks.unique hs _ w.1 m m') hc h
        refine ⟨h1, Set.ext fun u => (h2 u).trans ?_⟩
        simp only [mem_post, bracketRel, hp, if_pos hlt]
        rfl
      · next hlt =>
        have he := (chooseAssert_spec hs.width (hs.width + ts.width) p hn).1
        obtain ⟨e', he', h⟩ := bind_eq_ok.mp h
        obtain ⟨cs, hcs, h⟩ := bind_eq_ok.mp h
        have hc : RectClasses (den hs) (den ts) (Canon N hs) (Canon N ts)
            (fun w => Marks R ts e' w.2) d cs :=
          tailRects_classes (fun _ _ hm => hm) (fun q cs hq => splitEquiv_classes ts q _
            cs (shiftPositions_normal he he') hq) hd.canon hcs
        obtain ⟨h1, h2⟩ := applyClasses_image hM hn (fun w m m' => Marks.unique ts _ w.2 m m') hc h
        refine ⟨h1, Set.ext fun u => (h2 u).trans ?_⟩
        simp only [mem_post, bracketRel, hp, if_neg hlt, he', Except.ok.injEq]
        refine exists_congr fun v => and_congr_right fun _ => ⟨?_, ?_⟩
        · rintro ⟨m, hm⟩
          exact ⟨e', m, rfl, hm⟩
        · rintro ⟨_, m, rfl, hm⟩
          exact ⟨m, hm⟩
    · next hp =>
      obtain ⟨ws, hws, h⟩ := bind_eq_ok.mp h
      obtain ⟨th, hth, h⟩ := bind_eq_ok.mp h
      obtain ⟨tt, htt, h⟩ := bind_eq_ok.mp h
      obtain ⟨bag, hbag, h⟩ := bind_eq_ok.mp h
      cases h
      obtain ⟨hw1, hw2⟩ := splitWrites_normal hn.2 hws
      obtain ⟨h1, h2⟩ := applyGround_spec hM (makeEvent_lawful hs .btrue _ th ⟨trivial, hw1⟩ hth)
        (makeEvent_lawful ts .btrue _ tt ⟨trivial, hw2⟩ htt) hd.canon hbag
      obtain ⟨h3, h4⟩ := canonize_correct (laws N hs) (laws N ts) h1
      refine ⟨h3, (h4.trans h2).trans ?_⟩
      congr 1
      funext v u
      simp only [bracketRel, hp, hws, hth, htt, Except.ok.injEq, exists_eq_left', exists_and_left]

end EngineImage

/-- The registered evaluator acts as an image, at every depth of residuals. -/
theorem caseEngine_laws (N : Numbering) (R : ExprIds) (fuel depth : Nat) :
    CaseLaws N (caseEngine N R fuel depth) (engineRel R depth) := by
  induction depth with
  | zero => exact ⟨fun _ _ h => (nomatch h), fun _ _ h => nomatch h⟩
  | succ n ih =>
    have hspec := caseApply_spec (R := R) (termLaws ih fuel)
    exact ⟨fun {s g as d r} hn hd h => (hspec s g as d r hn hd h).1,
      fun {s g as d r} hn hd h => (hspec s g as d r hn hd h).2⟩

end LibHSC
