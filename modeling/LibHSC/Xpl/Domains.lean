import LibHSC.Xpl.Fire

/-!
Domain inference over the explicit model: which units (scalars, whole arrays)
hold a small effective domain, from the initial values and the assignments alone.
One classification walk over the events carries the guard constraints; a fixpoint
over the copy edges, restricted and shifted, closes the domains. No search is run.

The arrays of the source that are indexed by a position are functions of the
position here, and the union-find forest is the function to its roots: the least
position of a unit, whatever the order of the unions.
-/

namespace LibHSC.Xpl

open Lia

/-- Sets larger than this degrade to their interval hull. -/
def kSetCap : Nat := 4096

def kMin : Int := -2147483648

def kMax : Int := 2147483647

/-! ## The abstract value -/

/-- One value more in an ascending list. -/
def insertValue (v : Int) : List Int → List Int
  | [] => [v]
  | x :: xs => if v < x then v :: x :: xs else if v = x then x :: xs else x :: insertValue v xs

theorem mem_insertValue {v w : Int} {xs : List Int} :
    w ∈ insertValue v xs ↔ w = v ∨ w ∈ xs := by
  induction xs with
  | nil => simp [insertValue]
  | cons x xs ih =>
    rw [insertValue]
    split
    · simp
    · split
      · next hvx => simp [hvx]
      · rw [List.mem_cons, ih, List.mem_cons]
        tauto

theorem pairwise_insertValue {v : Int} {xs : List Int} (h : xs.Pairwise (· < ·)) :
    (insertValue v xs).Pairwise (· < ·) := by
  induction xs with
  | nil => simp [insertValue]
  | cons x xs ih =>
    obtain ⟨hx, hxs⟩ := List.pairwise_cons.mp h
    rw [insertValue]
    split
    · next hvx =>
      refine List.pairwise_cons.mpr ⟨fun y hy => ?_, h⟩
      rcases List.mem_cons.mp hy with rfl | hy
      · exact hvx
      · exact hvx.trans (hx y hy)
    · next hvx =>
      split
      · exact h
      · next hne =>
        refine List.pairwise_cons.mpr ⟨fun y hy => ?_, ih hxs⟩
        rcases mem_insertValue.mp hy with rfl | hy
        · omega
        · exact hx y hy

/-- A finite set of values, ascending. -/
structure Values where
  list : List Int
  sorted : list.Pairwise (· < ·)

namespace Values

def empty : Values := ⟨[], List.Pairwise.nil⟩

def insert (vals : Values) (v : Int) : Values :=
  ⟨insertValue v vals.list, pairwise_insertValue vals.sorted⟩

end Values

inductive Dom where
  | bot
  | set (vals : Values)
  | interval (lo hi : Int)
  | top

namespace Dom

def hullLo : Dom → Int
  | .set vals => vals.list.headD 0
  | .interval lo _ => lo
  | _ => 0

def hullHi : Dom → Int
  | .set vals => vals.list.getLastD 0
  | .interval _ hi => hi
  | _ => 0

def toInterval (vals : Values) : Dom := .interval (hullLo (.set vals)) (hullHi (.set vals))

/-- The flag of an operation tells whether the domain changed. -/
def addValue (v : Int) : Dom → Dom × Bool
  | .bot => (.set (Values.empty.insert v), true)
  | .set vals =>
    if v ∈ vals.list then (.set vals, false)
    else if kSetCap < (vals.insert v).list.length then (toInterval (vals.insert v), true)
    else (.set (vals.insert v), true)
  | .interval lo hi =>
    if lo ≤ v ∧ v ≤ hi then (.interval lo hi, false)
    else (.interval (min lo v) (max hi v), true)
  | .top => (.top, false)

/-- Both ends inclusive. -/
def addInterval (l h : Int) : Dom → Dom × Bool
  | .top => (.top, false)
  | .bot => (.interval l h, true)
  | .interval lo hi =>
    if min lo l = lo ∧ max hi h = hi then (.interval lo hi, false)
    else (.interval (min lo l) (max hi h), true)
  | .set vals => (.interval (min (hullLo (.set vals)) l) (max (hullHi (.set vals)) h), true)

def toTop : Dom → Dom × Bool
  | .top => (.top, false)
  | _ => (.top, true)

def join (d : Dom) : Dom → Dom × Bool
  | .bot => (d, false)
  | .top => d.toTop
  | .interval lo hi => d.addInterval lo hi
  | .set vals =>
    vals.list.foldl (fun x v => ((x.1.addValue v).1, x.2 || (x.1.addValue v).2)) (d, false)

end Dom

/-- Saturating addition. -/
def satAdd (a b : Int) : Int :=
  if a + b < kMin then kMin else if kMax < a + b then kMax else a + b

/-- The domain restricted to `[glo, ghi]`, then shifted by `o`. -/
def restrictShift (d : Dom) (glo ghi o : Int) : Dom :=
  match d with
  | .bot => .bot
  | .top =>
    if glo = kMin ∧ ghi = kMax then .top
    else .interval (if glo = kMin then kMin else satAdd glo o)
      (if ghi = kMax then kMax else satAdd ghi o)
  | .set vals =>
    vals.list.foldl
      (fun out v => if glo ≤ v ∧ v ≤ ghi then (out.addValue (satAdd v o)).1 else out) .bot
  | .interval lo hi =>
    let l := max lo glo
    let h := min hi ghi
    if l ≤ h then
      .interval (if l = kMin then kMin else satAdd l o) (if h = kMax then kMax else satAdd h o)
    else .bot

/-! ## Guard constraints -/

/-- The live guard constraints: `[lo, hi]` at a position, both ends inclusive. -/
abbrev Constraints := Nat → Option (Int × Int)

def Constraints.erase (env : Constraints) (p : Nat) : Constraints :=
  Function.update env p none

/-- Intersect the constraint at a position. -/
def Constraints.meet (env : Constraints) (pos : Nat) (lo hi : Int) : Constraints :=
  Function.update env pos (some (match env pos with
    | none => (lo, hi)
    | some (l, h) => (max l lo, min h hi)))

/-- One side of a comparison: whether it is a scalar, its position, its value. -/
def side : IExpr → Bool × Nat × Int
  | .const v => if isConst (.const v) then (false, 0, v) else (false, 0, 0)
  | .var p => (true, p, 0)
  | _ => (false, 0, 0)

/-- `c rel var` as a comparison of the scalar. -/
def mirrored : CmpOp → CmpOp
  | .lt => .gt
  | .leq => .geq
  | .gt => .lt
  | .geq => .leq
  | k => k

/-- The range of the scalar in `var rel c`; `none` where the comparison says nothing. -/
def rangeOf : CmpOp → Int → Option (Int × Int)
  | .eq, c => some (c, c)
  | .lt, c => if c = kMin then none else some (kMin, c - 1)
  | .leq, c => some (kMin, c)
  | .gt, c => if c = kMax then none else some (c + 1, kMax)
  | .geq, c => some (c, kMax)
  | .neq, _ => none

/-- The constraint of one comparison: one side a scalar, the other one not. -/
def constrainCmp (k : CmpOp) (l r : IExpr) (env : Constraints) : Constraints :=
  let (lv, lpos, lval) := side l
  let (rv, rpos, rval) := side r
  if lv = rv then env
  else
    match rangeOf (if lv then k else mirrored k) (if lv then rval else lval) with
    | none => env
    | some (lo, hi) => env.meet (if lv then lpos else rpos) lo hi

mutual

/-- The constraints of the conjunction atoms of a guard. Disjunctions, negations and
comparisons of two scalars contribute nothing. -/
def constrain : BExpr → Constraints → Constraints
  | .cmp k l r, env => constrainCmp k l r env
  | .conn .conj ops, env => constrainAll ops env
  | _, env => env

def constrainAll : List BExpr → Constraints → Constraints
  | [], env => env
  | g :: gs, env => constrainAll gs (constrain g env)

end

/-! ## Right-hand sides -/

/-- The operands of a sum of one scalar and inline constants. -/
def plusOffset : List IExpr → Option Nat → Int → Option (Nat × Int)
  | [], some p, off => if off < kMin ∨ kMax < off then none else some (p, off)
  | [], none, _ => none
  | op :: ops, var, off =>
    if isConst op then
      match op with
      | .const v => plusOffset ops var (off + v)
      | _ => none
    else
      match op, var with
      | .var p, none => plusOffset ops (some p) off
      | _, _ => none

/-- The single-source affine shape `v ± constants`: the position and the offset. -/
def varOffset : IExpr → Option (Nat × Int)
  | .var p => some (p, 0)
  | .nary .plus ops => plusOffset ops none 0
  | .binary .minus (.var p) (.const c) =>
    if isConst (.const c) ∧ kMin ≤ -c ∧ -c ≤ kMax then some (p, -c) else none
  | _ => none

/-! ## Units -/

/-- The least position of the unit of a position. -/
abbrev Roots := Nat → Nat

def unite (u : Roots) (a b : Nat) : Roots := fun p =>
  if u p = max (u a) (u b) then min (u a) (u b) else u p

def uniteAll (u : Roots) : List Nat → Roots
  | [] => u
  | p :: ps => ps.foldl (fun u q => unite u p q) u

mutual

/-- An array is one unit wherever it is read. -/
def uniteArrayNodes (u : Roots) : IExpr → Roots
  | .array cells index => uniteArrayNodes (uniteAll u cells) index
  | .nary _ ops => uniteArrayNodesAll u ops
  | .binary _ a b => uniteArrayNodes (uniteArrayNodes u a) b
  | .bitComp a => uniteArrayNodes u a
  | _ => u

def uniteArrayNodesAll (u : Roots) : List IExpr → Roots
  | [] => u
  | x :: xs => uniteArrayNodesAll (uniteArrayNodes u x) xs

end

def uniteIndex (u : Roots) (t : Target) : Roots :=
  match t.index with
  | none => u
  | some e => uniteArrayNodes u e

def uniteAction (u : Roots) : Action → Roots
  | .assign lhs rhs => uniteIndex (uniteArrayNodes (uniteAll u lhs.cells) rhs) lhs
  | .havoc lhs _ _ => uniteIndex (uniteAll u lhs.cells) lhs

mutual

/-- The updates of a term. -/
def Term.updates : Term → List Clause
  | .filter _ => []
  | .update c => [c]
  | .seq kids => Term.updatesAll kids
  | .alt kids => Term.updatesAll kids
  | .abort => []

def Term.updatesAll : List Term → List Clause
  | [] => []
  | t :: ts => t.updates ++ Term.updatesAll ts

end

def Model.units (m : Model) (groups : List (List Nat)) : Roots :=
  (m.events.flatMap fun evt => evt.root.updates).foldl (fun u c => c.foldl uniteAction u)
    (groups.foldl uniteAll id)

/-- The declared window of a unit: the hull of its members' bounds, where every member
declares one. -/
def declWin (declared : List (Option (Int × Int))) (arity : Nat) (root : Roots) :
    Constraints := fun r =>
  let members := (List.range arity).filter fun p => decide (root p = r)
  let bounds := members.filterMap fun p => (declared[p]?).join
  let clo := bounds.foldl (fun c b => min c b.1) kMax
  let chi := bounds.foldl (fun c b => max c (b.2 - 1)) kMin
  if declared ≠ [] ∧ members ≠ [] ∧ bounds.length = members.length ∧ clo ≤ chi then
    some (clo, chi)
  else none

/-! ## The classification walk -/

/-- A read restricted to `[rlo, rhi]` and shifted. `check` marks a shift that no guard
bounds. -/
structure Edge where
  src : Nat
  dst : Nat
  rlo : Int
  rhi : Int
  shift : Int
  check : Bool

structure Inference where
  doms : Nat → Dom
  assigned : Nat → Bool
  viaMod : Nat → Bool
  edges : List Edge

namespace Inference

variable (i : Inference)

/-- An operation on the domain of one unit. -/
def onDom (dst : Nat) (f : Dom → Dom × Bool) : Inference :=
  { i with doms := Function.update i.doms dst (f (i.doms dst)).1 }

/-- An unanalyzable assignment blunts to the declared window, top else. -/
def blunt (win : Constraints) (dst : Nat) : Inference :=
  match win dst with
  | some (lo, hi) => i.onDom dst (Dom.addInterval lo hi)
  | none => i.onDom dst Dom.toTop

def addEdge (e : Edge) : Inference := { i with edges := i.edges ++ [e] }

end Inference

section Walk

variable (root : Roots) (win : Constraints)

/-- One assignment. Direct facts join at once, reads become edges. -/
def classifyRhs (env : Constraints) (dst : Nat) (rhs : IExpr) (i : Inference) : Inference :=
  match varOffset rhs with
  | some (pos, off) =>
    let (rlo, rhi) := (env pos).getD (kMin, kMax)
    i.addEdge ⟨root pos, dst, rlo, rhi, off,
      decide ((0 < off ∧ rhi = kMax) ∨ (off < 0 ∧ rlo = kMin))⟩
  | none =>
    match rhs with
    | .const v => i.onDom dst (Dom.addValue v)
    | .array cells _ => i.addEdge ⟨root (cells.headD 0), dst, kMin, kMax, 0, false⟩
    | .binary .mod _ (.const k) =>
      if isConst (.const k) ∧ 0 < k then
        { i.onDom dst (Dom.addInterval 0 (k - 1)) with
          viaMod := Function.update i.viaMod dst true }
      else i.blunt win dst
    | .wrapBool _ => (i.onDom dst (Dom.addValue 0)).onDom dst (Dom.addValue 1)
    | _ => i.blunt win dst

def classifyAction (env : Constraints) (i : Inference) (a : Action) : Inference :=
  match a with
  | .havoc lhs lo hi =>
    let dst := root (lhs.cells.headD 0)
    let i := { i with assigned := Function.update i.assigned dst true }
    if hi ≤ lo then i
    else if hi - lo ≤ kSetCap then
      (valuesOf lo hi).foldl (fun i v => i.onDom dst (Dom.addValue v)) i
    else i.onDom dst (Dom.addInterval lo (hi - 1))
  | .assign lhs rhs =>
    let dst := root (lhs.cells.headD 0)
    classifyRhs root win env dst rhs
      { i with assigned := Function.update i.assigned dst true }

def classify (env : Constraints) (c : Clause) (i : Inference) : Inference :=
  c.foldl (classifyAction root win env) i

def Action.cells : Action → List Nat
  | .assign lhs _ => lhs.cells
  | .havoc lhs _ _ => lhs.cells

/-- The cells a clause may write. -/
def Clause.written (c : Clause) : List Nat := c.flatMap Action.cells

def Constraints.eraseAll (env : Constraints) (ps : List Nat) : Constraints :=
  ps.foldl Constraints.erase env

mutual

/-- A filter adds its constraints, an update reads its state before and then kills the
constraints of what it wrote, the branches of an `alt` fork them. The cells written come
back. -/
def walk : Term → Constraints → Inference → Constraints × List Nat × Inference
  | .filter g, env, i => (constrain g env, [], i)
  | .update c, env, i =>
    (env.eraseAll (Clause.written c), Clause.written c, classify root win env c i)
  | .seq kids, env, i => walkSeq kids env i
  | .alt kids, env, i =>
    let (w, i) := walkAlt kids env i
    (env.eraseAll w, w, i)
  | .abort, env, i => (env, [], i)

def walkSeq : List Term → Constraints → Inference → Constraints × List Nat × Inference
  | [], env, i => (env, [], i)
  | kid :: kids, env, i =>
    let (env, w, i) := walk kid env i
    let (env, w', i) := walkSeq kids env i
    (env, w ++ w', i)

def walkAlt : List Term → Constraints → Inference → List Nat × Inference
  | [], _, i => ([], i)
  | kid :: kids, env, i =>
    let (_, w, i) := walk kid env i
    let (w', i) := walkAlt kids env i
    (w ++ w', i)

end

end Walk

/-! ## The fixpoint -/

/-- A depth-first search over the edges. A position enters the stack once, so the
edges bound the pops. -/
def reachLoop (edges : List Edge) (goal : Nat) : Nat → List Nat → List Nat → Bool
  | 0, _, _ => false
  | _ + 1, _, [] => false
  | fuel + 1, seen, n :: stack =>
    if n = goal then true
    else
      let (seen, stack) := edges.foldl (fun x e =>
        if e.src = n ∧ e.dst ∉ x.1 then (e.dst :: x.1, e.dst :: x.2) else x) (seen, stack)
      reachLoop edges goal fuel seen stack

def reaches (edges : List Edge) (src goal : Nat) : Bool :=
  reachLoop edges goal (edges.length + 2) [src] [src]

/-- The unguarded shifts that feed themselves outside a declared window go, and their
destination is unconstrained. The test reads the vector in the middle of its compaction:
the edges kept so far, then the old ones behind them. -/
def eraseLoop (win : Constraints) (old : List Edge) :
    List Edge → List Edge → (Nat → Dom) → List Edge × (Nat → Dom)
  | [], kept, doms => (kept, doms)
  | e :: rest, kept, doms =>
    if e.check = false ∨ e.shift = 0 ∨ (win e.dst).isSome then
      eraseLoop win old rest (kept ++ [e]) doms
    else if reaches (kept ++ old.drop kept.length) e.dst e.src then
      eraseLoop win old rest kept (Function.update doms e.dst .top)
    else eraseLoop win old rest (kept ++ [e]) doms

/-- A domain clipped to a declared window. -/
def clip (win : Option (Int × Int)) (d : Dom) : Dom :=
  match win with
  | some (lo, hi) => restrictShift d lo hi 0
  | none => d

/-- What an edge brings to its destination. -/
def Edge.brings (win : Constraints) (e : Edge) (doms : Nat → Dom) : Dom :=
  clip (win e.dst) (restrictShift (doms e.src) e.rlo e.rhi e.shift)

def sweepEdge (win : Constraints) (x : (Nat → Dom) × Bool) (e : Edge) : (Nat → Dom) × Bool :=
  let j := (x.1 e.dst).join (e.brings win x.1)
  (Function.update x.1 e.dst j.1, x.2 || j.2)

/-- Sweeps over the edges until one of them changes nothing. -/
def fixpoint (win : Constraints) (edges : List Edge) : Nat → (Nat → Dom) → Option (Nat → Dom)
  | 0, _ => none
  | fuel + 1, doms =>
    let (doms, changed) := edges.foldl (sweepEdge win) (doms, false)
    if changed then fixpoint win edges fuel doms else some doms

/-- Stored values are taken to stay in the declared window. -/
def finalClip (win : Constraints) (doms : Nat → Dom) (r : Nat) : Dom :=
  match win r, doms r with
  | none, d => d
  | some (lo, hi), .top => .interval lo hi
  | some _, .bot => .bot
  | some (lo, hi), d => restrictShift d lo hi 0

/-! ## Reports -/

/-- The domain of one unit. A bottom is reported unconstrained. -/
structure DomainReport where
  positions : List Nat
  assigned : Bool
  viaMod : Bool
  dom : Dom

def seedDoms (root : Roots) (seeds : List Word) : Nat → Dom :=
  seeds.foldl (fun doms s => (List.range s.length).foldl (fun doms p =>
    Function.update doms (root p) ((doms (root p)).addValue (s.getD p 0)).1) doms) fun _ => .bot

/-- The domains after the walk over every event. -/
def Model.classified (m : Model) (root : Roots) (win : Constraints) (seeds : List Word) :
    Inference :=
  m.events.foldl (fun i evt => (walk root win evt.root (fun _ => none) i).2.2)
    ⟨seedDoms root seeds, fun _ => false, fun _ => false, []⟩

def reportOf (root : Roots) (arity : Nat) (i : Inference) (doms : Nat → Dom) (r : Nat) :
    DomainReport where
  positions := (List.range arity).filter fun p => decide (root p = r)
  assigned := i.assigned r
  viaMod := i.viaMod r
  dom := match doms r with
    | .bot => .top
    | d => d

def inferDomains (fuel : Nat) (m : Model) (seeds : List Word) (groups : List (List Nat))
    (declared : List (Option (Int × Int))) : Option (List DomainReport) :=
  let root := m.units groups
  let win := declWin declared m.arity root
  let i := m.classified root win seeds
  let (edges, doms) := eraseLoop win i.edges i.edges [] i.doms
  (fixpoint win edges fuel doms).map fun doms =>
    ((List.range m.arity).filter fun r => (List.range m.arity).any fun p => decide (root p = r)).map
      (reportOf root m.arity i (finalClip win doms))

end LibHSC.Xpl
