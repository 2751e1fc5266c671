import LibHSC.Xpl.Eval
import LibHSC.Library.Images

/-!
The explicit transition relation: events as terms over expressions and
positions, and the interpreter. Filters test where they stand, updates write
simultaneously, havoc and `alt` fork, `abort` kills.

The source keeps its terms in a pool and refers to them by index; a term here is
the tree those indices unfold to.
-/

namespace LibHSC.Xpl

open Lia

/-- A scalar position, or an access whose index is evaluated when it fires. -/
structure Target where
  cells : List Nat
  index : Option IExpr

inductive Action where
  | assign (lhs : Target) (rhs : IExpr)
  /-- Any value of `[lo, hi)`. -/
  | havoc (lhs : Target) (lo hi : Int)

/-- A simultaneous multi-assignment. -/
abbrev Clause := List Action

inductive Term where
  | filter (guard : BExpr)
  | update (acts : Clause)
  | seq (kids : List Term)
  | alt (kids : List Term)
  | abort

/-- `quick` is a necessary enabling condition. -/
structure Event where
  name : String
  line : Int
  root : Term
  quick : BExpr

structure Model where
  arity : Nat
  events : List Event

/-! ## The interpreter -/

structure Branch where
  s : Word
  /-- The positions written, perhaps more than once. -/
  touched : List Nat

/-- The position of a target, its index read in the state `s`. -/
def resolve (t : Target) (s : Word) : Except EvalError Nat :=
  match t.index with
  | none =>
    match t.cells.head? with
    | some p => .ok p
    | none => .error .undefinedBehaviour
  | some e => do
      let i ← strictInt s e
      if i < 0 then .error (.targetIndex i t.cells.length)
      else
        match t.cells[i.toNat]? with
        | some p => return p
        | none => .error (.targetIndex i t.cells.length)

structure Havoc where
  pos : Nat
  lo : Int
  hi : Int

/-- The writes and the havocs of a clause, every target and every right-hand side
read in the state before it. -/
def gather (s : Word) : Clause → Except EvalError (List (Nat × Int) × List Havoc)
  | [] => .ok ([], [])
  | .assign lhs rhs :: c => do
      let pos ← resolve lhs s
      let v ← strictInt s rhs
      let (writes, havocs) ← gather s c
      return ((pos, v) :: writes, havocs)
  | .havoc lhs lo hi :: c => do
      let pos ← resolve lhs s
      let (writes, havocs) ← gather s c
      return (writes, ⟨pos, lo, hi⟩ :: havocs)

def Branch.write (b : Branch) (pos : Nat) (v : Int) : Branch :=
  ⟨b.s.set pos v, b.touched ++ [pos]⟩

/-- The values of a half-open range, ascending. -/
def valuesOf (lo hi : Int) : List Int := (List.range (hi - lo).toNat).map fun n : Nat => lo + n

def fork (h : Havoc) (forks : List Branch) : List Branch :=
  forks.flatMap fun f => (valuesOf h.lo h.hi).map fun v => f.write h.pos v

/-- One update on one branch. -/
def applyUpdate (c : Clause) (b : Branch) : Except EvalError (List Branch) := do
  let (writes, havocs) ← gather b.s c
  if (writes.map Prod.fst ++ havocs.map Havoc.pos).Nodup then
    let b := writes.foldl (fun b w => b.write w.1 w.2) b
    return havocs.foldl (fun forks h => fork h forks) [b]
  else .error .twoWrites

def keepDecided (g : BExpr) : List Branch → Except EvalError (List Branch)
  | [] => .ok []
  | b :: bs => do
      let kept ← decideGuard b.s g
      let rest ← keepDecided g bs
      return if kept then b :: rest else rest

def updateAll (c : Clause) : List Branch → Except EvalError (List Branch)
  | [] => .ok []
  | b :: bs => do
      let next ← applyUpdate c b
      return next ++ (← updateAll c bs)

mutual

def interp : Term → List Branch → Except EvalError (List Branch)
  | .filter g, bs => keepDecided g bs
  | .update c, bs => updateAll c bs
  | .seq kids, bs => interpSeq kids bs
  | .alt kids, bs => interpAlt kids bs
  | .abort, _ => .ok []

/-- The kids in order, as long as a branch is left. -/
def interpSeq : List Term → List Branch → Except EvalError (List Branch)
  | [], bs => .ok bs
  | kid :: kids, bs => do
      let bs ← interp kid bs
      if bs.isEmpty then return [] else interpSeq kids bs

/-- Each kid on a copy of the branches. -/
def interpAlt : List Term → List Branch → Except EvalError (List Branch)
  | [], _ => .ok []
  | kid :: kids, bs => do
      let copy ← interp kid bs
      return copy ++ (← interpAlt kids bs)

end

structure Successor where
  s : Word
  /-- The positions whose value differs. -/
  changed : List Nat

def Branch.successor (s : Word) (b : Branch) : Successor :=
  ⟨b.s, (sortPositions b.touched).filter fun p => decide (b.s[p]? ≠ s[p]?)⟩

/-- An error of a run, with the event and the state it happened in. -/
structure InterpError where
  event : Nat
  cause : EvalError
  witness : Word

/-- The successors of `s` by one event, in the order they are produced. -/
def fire (m : Model) (e : Nat) (s : Word) : Except InterpError (List Successor) :=
  match m.events[e]? with
  | none => .error ⟨e, .undefinedBehaviour, s⟩
  | some evt =>
    match interp evt.root [⟨s, []⟩] with
    | .ok bs => .ok (bs.map (Branch.successor s))
    | .error err => .error ⟨e, err, s⟩

/-- The may-fire test. An evaluation error in it is no `interp_error`: it leaves
the engine as it is. -/
def quickEnabled (m : Model) (e : Nat) (s : Word) : Except (EvalError ⊕ InterpError) Bool :=
  match m.events[e]? with
  | none => .error (.inl .undefinedBehaviour)
  | some evt =>
    match evalBool s evt.quick with
    | .ok .yes => .ok true
    | .ok .no => .ok false
    | .ok .undef => .error (.inr ⟨e, .undefined, s⟩)
    | .error err => .error (.inl err)

/-! ## The supports -/

/-- The positions the may-fire test of an event watches. -/
def Event.ctrl (evt : Event) : List Nat :=
  sortPositions (supportBool evt.quick ++ arrayPositionsBool evt.quick)

/-- The events whose test reads position `p`, ascending. -/
def Model.readers (m : Model) (p : Nat) : List Nat :=
  (List.range m.events.length).filter fun e =>
    match m.events[e]? with
    | some evt => decide (p ∈ evt.ctrl)
    | none => false

/-! ## What a firing changes -/

/-- A branch differs from the state it started in at written positions only. -/
structure Branch.From (s : Word) (b : Branch) : Prop where
  length : b.s.length = s.length
  same : ∀ p, p ∉ b.touched → b.s[p]? = s[p]?

section Changes

variable {s : Word}

theorem Branch.From.write {b : Branch} (h : b.From s) (pos : Nat) (v : Int) :
    (b.write pos v).From s := by
  refine ⟨by rw [Branch.write, List.length_set, h.length], fun p hp => ?_⟩
  obtain ⟨h1, h2⟩ := not_or.mp (mt List.mem_append.mpr hp)
  rw [Branch.write, List.getElem?_set_ne fun he => h2 (List.mem_singleton.mpr he.symm)]
  exact h.same p h1

theorem writes_from {writes : List (Nat × Int)} : ∀ {b : Branch}, b.From s →
    (writes.foldl (fun b w => b.write w.1 w.2) b).From s := by
  induction writes with
  | nil => exact fun h => h
  | cons w writes ih => exact fun h => ih (h.write w.1 w.2)

theorem forks_from {havocs : List Havoc} : ∀ {forks : List Branch}, (∀ b ∈ forks, b.From s) →
    ∀ b ∈ havocs.foldl (fun forks h => fork h forks) forks, b.From s := by
  induction havocs with
  | nil => exact fun h => h
  | cons h havocs ih =>
    intro forks hforks
    refine ih fun b hb => ?_
    obtain ⟨f, hf, hb⟩ := List.mem_flatMap.mp hb
    obtain ⟨v, -, rfl⟩ := List.mem_map.mp hb
    exact (hforks f hf).write h.pos v

theorem applyUpdate_from {c : Clause} {b : Branch} {bs : List Branch} (hb : b.From s)
    (h : applyUpdate c b = .ok bs) : ∀ b' ∈ bs, b'.From s := by
  obtain ⟨⟨writes, havocs⟩, -, h⟩ := bind_eq_ok.mp h
  dsimp only at h
  split at h
  · cases h
    refine forks_from fun b' hb' => ?_
    rw [List.mem_singleton.mp hb']
    exact writes_from hb
  · cases h

theorem keepDecided_from {g : BExpr} : ∀ {bs bs' : List Branch}, (∀ b ∈ bs, b.From s) →
    keepDecided g bs = .ok bs' → ∀ b ∈ bs', b.From s := by
  intro bs
  induction bs with
  | nil =>
    intro bs' _ h
    cases h
    simp
  | cons b bs ih =>
    intro bs' hbs h
    obtain ⟨hb, hbs⟩ := List.forall_mem_cons.mp hbs
    obtain ⟨kept, -, h⟩ := bind_eq_ok.mp h
    obtain ⟨rest, hrest, h⟩ := bind_eq_ok.mp h
    have hr := ih hbs hrest
    cases h
    cases kept with
    | true => exact List.forall_mem_cons.mpr ⟨hb, hr⟩
    | false => exact hr

theorem updateAll_from {c : Clause} : ∀ {bs bs' : List Branch}, (∀ b ∈ bs, b.From s) →
    updateAll c bs = .ok bs' → ∀ b ∈ bs', b.From s := by
  intro bs
  induction bs with
  | nil =>
    intro bs' _ h
    cases h
    simp
  | cons b bs ih =>
    intro bs' hbs h
    obtain ⟨hb, hbs⟩ := List.forall_mem_cons.mp hbs
    obtain ⟨next, hnext, h⟩ := bind_eq_ok.mp h
    obtain ⟨rest, hrest, h⟩ := bind_eq_ok.mp h
    cases h
    intro b' hb'
    rcases List.mem_append.mp hb' with hb' | hb'
    · exact applyUpdate_from hb hnext b' hb'
    · exact ih hbs hrest b' hb'

mutual

theorem interp_from : (t : Term) → ∀ {bs bs' : List Branch}, (∀ b ∈ bs, b.From s) →
    interp t bs = .ok bs' → ∀ b ∈ bs', b.From s
  | .filter g, _, _, hbs, h => keepDecided_from hbs h
  | .update c, _, _, hbs, h => updateAll_from hbs h
  | .seq kids, _, _, hbs, h => interpSeq_from kids hbs h
  | .alt kids, _, _, hbs, h => interpAlt_from kids hbs h
  | .abort, _, _, _, h => by
    cases h
    simp

theorem interpSeq_from : (kids : List Term) → ∀ {bs bs' : List Branch}, (∀ b ∈ bs, b.From s) →
    interpSeq kids bs = .ok bs' → ∀ b ∈ bs', b.From s
  | [], _, _, hbs, h => by
    cases h
    exact hbs
  | kid :: kids, _, _, hbs, h => by
    obtain ⟨mid, hmid, h⟩ := bind_eq_ok.mp h
    split at h
    · cases h
      simp
    · exact interpSeq_from kids (interp_from kid hbs hmid) h

theorem interpAlt_from : (kids : List Term) → ∀ {bs bs' : List Branch}, (∀ b ∈ bs, b.From s) →
    interpAlt kids bs = .ok bs' → ∀ b ∈ bs', b.From s
  | [], _, _, _, h => by
    cases h
    simp
  | kid :: kids, _, _, hbs, h => by
    obtain ⟨copy, hcopy, h⟩ := bind_eq_ok.mp h
    obtain ⟨rest, hrest, h⟩ := bind_eq_ok.mp h
    cases h
    intro b hb
    rcases List.mem_append.mp hb with hb | hb
    · exact interp_from kid hbs hcopy b hb
    · exact interpAlt_from kids hbs hrest b hb

end

theorem mem_sortPositions {ps : List Nat} {p : Nat} : p ∈ sortPositions ps ↔ p ∈ ps := by
  rw [sortPositions, (List.perm_insertionSort _ _).mem_iff, List.mem_dedup]

/-- A successor has the length of the state, and differs at `changed` only. -/
theorem fire_changed {m : Model} {e : Nat} {succs : List Successor} (h : fire m e s = .ok succs)
    {sc : Successor} (hsc : sc ∈ succs) :
    sc.s.length = s.length ∧ ∀ p, p ∉ sc.changed → sc.s[p]? = s[p]? := by
  unfold fire at h
  split at h
  · cases h
  · split at h
    · next bs hbs =>
      cases h
      obtain ⟨b, hb, rfl⟩ := List.mem_map.mp hsc
      have hstart : ∀ b ∈ [Branch.mk s []], b.From s := by
        intro b hb
        rw [List.mem_singleton.mp hb]
        exact ⟨rfl, fun _ _ => rfl⟩
      have hfrom := interp_from _ hstart hbs b hb
      refine ⟨hfrom.length, fun p hp => ?_⟩
      by_cases ht : p ∈ b.touched
      · by_contra hne
        exact hp (List.mem_filter.mpr ⟨mem_sortPositions.mpr ht, decide_eq_true hne⟩)
      · exact hfrom.same p ht
    · cases h

end Changes

/-! ## What a test reads -/

theorem mem_readers {m : Model} {p e : Nat} :
    e ∈ m.readers p ↔ ∃ evt, m.events[e]? = some evt ∧ p ∈ evt.ctrl := by
  unfold Model.readers
  rw [List.mem_filter, List.mem_range]
  constructor
  · rintro ⟨hlt, h⟩
    rw [List.getElem?_eq_getElem hlt] at h
    exact ⟨_, List.getElem?_eq_getElem hlt, of_decide_eq_true h⟩
  · rintro ⟨evt, hevt, hp⟩
    refine ⟨(List.getElem?_eq_some_iff.mp hevt).1, ?_⟩
    rw [hevt]
    exact decide_eq_true hp

/-- A test keeps its answer where nothing it watches changed. -/
theorem quickEnabled_congr {m : Model} {e : Nat} {s s' : Word} {b : Bool}
    (hlen : s'.length = s.length)
    (hsame : ∀ p, e ∈ m.readers p → s'[p]? = s[p]?) (h : quickEnabled m e s = .ok b) :
    quickEnabled m e s' = .ok b := by
  unfold quickEnabled at h ⊢
  cases hevt : m.events[e]? with
  | none =>
    rw [hevt] at h
    cases h
  | some evt =>
    rw [hevt] at h
    have hread : ∀ p ∈ evt.ctrl, s'[p]? = s[p]? := fun p hp =>
      hsame p (mem_readers.mpr ⟨evt, hevt, hp⟩)
    have hctrl : ∀ ps, (∀ p ∈ ps, p ∈ evt.ctrl) → Agree s' s ps :=
      fun ps hps => ⟨hlen, fun p hp => hread p (hps p hp)⟩
    have heval : evalBool s' evt.quick = evalBool s evt.quick := by
      refine evalBool_congr evt.quick (hctrl _ fun p hp => ?_) (hctrl _ fun p hp => ?_)
      · exact mem_sortPositions.mpr (List.mem_append_left _ (mem_sortPositions.mpr hp))
      · exact mem_sortPositions.mpr (List.mem_append_right _ (mem_sortPositions.mpr hp))
    dsimp only at h ⊢
    rw [heval]
    cases hq : evalBool s evt.quick with
    | error err =>
      rw [hq] at h
      cases h
    | ok t =>
      rw [hq] at h
      cases t with
      | yes => exact h
      | no => exact h
      | undef => cases h

end LibHSC.Xpl
