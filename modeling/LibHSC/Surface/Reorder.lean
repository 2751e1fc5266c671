import LibHSC.Surface.DeclareSeeds
import LibHSC.Surface.Emitted
import LibHSC.Surface.MayFire
import LibHSC.Order.Force
import LibHSC.Order.Sloan

/-!
The pass `(reorder-force)`: FORCE at every level of the shape tree. Each event
projects onto the children it touches, FORCE orders the children, and the tree is
written back. The children are moved, never dropped or copied, so the shape lists
the leaves it had, and the rewritten forms read to the same frontier up to order.
-/

namespace LibHSC.Xpl

open Lia

/-! ## Read positions -/

/-- Reads of one integer expression: scalar support plus array cells. -/
def exprReads (e : IExpr) : List Nat := support e ++ arrayPositions e

/-- A target reads its index. -/
def Target.reads (t : Target) : List Nat :=
  match t.index with
  | none => []
  | some e => exprReads e

def Action.reads : Action → List Nat
  | .assign lhs rhs => exprReads rhs ++ lhs.reads
  | .havoc lhs _ _ => lhs.reads

mutual

/-- The read side of a term's footprint. -/
def Term.reads : Term → List Nat
  | .filter guard => supportBool guard ++ arrayPositionsBool guard
  | .update acts => acts.flatMap Action.reads
  | .seq kids => termsReads kids
  | .alt kids => termsReads kids
  | .abort => []

def termsReads : List Term → List Nat
  | [] => []
  | kid :: kids => kid.reads ++ termsReads kids

end

/-- The reads of the quick test are reads. -/
def Event.reads (evt : Event) : List Nat := sortPositions (evt.root.reads ++ evt.ctrl)

end LibHSC.Xpl

namespace LibHSC.Surface

open Lia Worklist

/-! ## The shape tree -/

/-- The shape as a tree over frontier positions; a unit has none. -/
inductive SNode where
  | leaf (text : String) (pos : Option Nat) (line : Int)
  | node (text : String) (kids : List SNode) (line : Int)

section Parse

variable (sc : Scope)

mutual

def parseSort : Datum → SNode
  | .atom text line => .leaf text (sc.position text) line
  | .list [] line => .node "" [] line
  | .list (h :: ds) line => .node (Datum.list (h :: ds) line).head (parseSorts ds) line

def parseSorts : List Datum → List SNode
  | [] => []
  | d :: ds => parseSort d :: parseSorts ds

end

end Parse

mutual

def unparse : SNode → Datum
  | .leaf text _ line => .atom text line
  | .node text kids line => .list (.atom text line :: unparses kids) line

def unparses : List SNode → List Datum
  | [] => []
  | k :: ks => unparse k :: unparses ks

end

mutual

/-- The positions of the leaves, left to right. -/
def SNode.frontier : SNode → List Nat
  | .leaf _ pos _ => pos.toList
  | .node _ kids _ => SNode.frontiers kids

def SNode.frontiers : List SNode → List Nat
  | [] => []
  | k :: ks => k.frontier ++ SNode.frontiers ks

end

/-! ## The pass -/

/-- The child each position is in. -/
def childOf (arity : Nat) (kids : List SNode) : List (Option Nat) :=
  kids.zipIdx.foldl (fun c x => x.1.frontier.foldl (fun c p => c.set p (some x.2)) c)
    (List.replicate arity none)

/-- The children an event touches. -/
def touched (child : List (Option Nat)) (evt : Xpl.Event) : List Nat :=
  Order.sortUnique ((evt.reads ++ evt.writes).filterMap fun p => child.getD p none)

section Pass

variable (A : Order.Arith) (iters : Nat)

def cliquesOf (m : Xpl.Model) (kids : List SNode) : List (Order.Clique A) :=
  m.events.filterMap fun evt =>
    let ts := touched (childOf m.arity kids) evt
    if 2 ≤ ts.length then some ⟨ts, A.one⟩ else none

/-- The order of the children of a node. -/
def orderKids (m : Xpl.Model) (kids : List SNode) : List Nat :=
  let cliques := cliquesOf A m kids
  if cliques.isEmpty then List.range kids.length
  else Order.force A kids.length cliques [] iters

mutual

/-- FORCE the children of every node, with the number of nodes whose order moved. A
child is reordered by what is in it, so before the move is as good as after. -/
def reorder (m : Xpl.Model) : SNode → SNode × Nat
  | .leaf text pos line => (.leaf text pos line, 0)
  | .node text kids line =>
    if kids.length < 2 then (.node text kids line, 0)
    else
      let perm := orderKids A iters m kids
      let done := relist (reorderKids m kids) perm
      (.node text (done.map Prod.fst) line,
        (if perm = List.range kids.length then 0 else 1) + (done.map Prod.snd).sum)

def reorderKids (m : Xpl.Model) : List SNode → List (SNode × Nat)
  | [] => []
  | k :: ks => reorder m k :: reorderKids m ks

end

/-- A shape form is written anew. -/
def reorderForm (sc : Scope) (m : Xpl.Model) (f : Datum) : Datum × Option Nat :=
  if f.head = "shape" then
    let r := reorder A iters m (parseSort sc (f.item 1))
    (.list [f.item 0, unparse r.1] f.line, some r.2)
  else (f, none)

def reorderForce (R : ExprIds) (forms : List Datum) : Except BuildError Rewritten := do
  let s ← Spec.read forms
  if s.order.isEmpty then return ⟨forms, false, "no shape"⟩
  else
    let m ← s.xpl R
    let out := forms.map (reorderForm A iters s.scope m)
    -- the count of the last shape
    let moved := (out.filterMap Prod.snd).getLast?.getD 0
    if moved = 0 then
      return ⟨out.map Prod.fst, false, "FORCE keeps the order at every level"⟩
    else
      return ⟨out.map Prod.fst, true, "FORCE reordered " ++ toString moved ++ " shape node" ++
        (if moved = 1 then "" else "s") ++ ", hierarchy kept"⟩

end Pass

/-! ## The leaves of a tree -/

theorem unparses_eq_map (ks : List SNode) : unparses ks = ks.map unparse := by
  induction ks with
  | nil => rfl
  | cons k ks ih => rw [unparses, ih, List.map_cons]

theorem flattenShapes_cons {d : Datum} {ds : List Datum} {names : List String} :
    flattenShapes (d :: ds) = .ok names ↔
      ∃ n ns, flattenShape d = .ok n ∧ flattenShapes ds = .ok ns ∧ names = n ++ ns := by
  rw [flattenShapes, bind_eq_ok]
  constructor
  · rintro ⟨n, hn, h⟩
    obtain ⟨ns, hns, h⟩ := bind_eq_ok.mp h
    cases h
    exact ⟨n, ns, hn, hns, rfl⟩
  · rintro ⟨n, ns, hn, hns, rfl⟩
    exact ⟨n, hn, bind_of_ok hns rfl⟩

/-- Sorts in another order have the leaves in another order. -/
theorem flattenShapes_perm {ds ds' : List Datum} (h : ds.Perm ds') : ∀ {names : List String},
    flattenShapes ds = .ok names →
    ∃ names', flattenShapes ds' = .ok names' ∧ names'.Perm names := by
  induction h with
  | nil => exact fun h => ⟨_, h, .refl _⟩
  | cons d _ ih =>
    intro names h
    obtain ⟨n, ns, hn, hns, rfl⟩ := flattenShapes_cons.mp h
    obtain ⟨ns', hns', hp⟩ := ih hns
    exact ⟨n ++ ns', flattenShapes_cons.mpr ⟨n, ns', hn, hns', rfl⟩, hp.append_left n⟩
  | swap d d' ds =>
    intro names h
    obtain ⟨n', _, hn', htail, rfl⟩ := flattenShapes_cons.mp h
    obtain ⟨n, ns, hn, hns, rfl⟩ := flattenShapes_cons.mp htail
    refine ⟨n ++ (n' ++ ns), flattenShapes_cons.mpr ⟨n, _, hn,
      flattenShapes_cons.mpr ⟨n', ns, hn', hns, rfl⟩, rfl⟩, ?_⟩
    rw [← List.append_assoc, ← List.append_assoc]
    exact List.perm_append_comm.append_right ns
  | trans _ _ ih ih' =>
    intro names h
    obtain ⟨names₁, h₁, hp₁⟩ := ih h
    obtain ⟨names₂, h₂, hp₂⟩ := ih' h₁
    exact ⟨names₂, h₂, hp₂.trans hp₁⟩

/-- The constructors a shape is made of. -/
def isConstructor (name : String) : Prop := name = "pair" ∨ name = "spine" ∨ name = "balanced"

theorem flattenShape_list {h : Datum} {ds : List Datum} {line : Int} {names : List String} :
    flattenShape (.list (h :: ds) line) = .ok names ↔
      isConstructor (Datum.list (h :: ds) line).head ∧ flattenShapes ds = .ok names := by
  have hhead : (if h.isAtom then h.text else "") = (Datum.list (h :: ds) line).head := by
    cases h <;> rfl
  rw [flattenShape, hhead, isConstructor]
  split
  · next hne => exact iff_of_false (fun hok => by cases hok) fun hor => by tauto
  · next hne => exact ⟨fun hok => ⟨by tauto, hok⟩, And.right⟩

mutual

/-- A shape is read to a tree that is written with its leaves. -/
theorem unparse_parseSort (sc : Scope) : (d : Datum) → {names : List String} →
    flattenShape d = .ok names → flattenShape (unparse (parseSort sc d)) = .ok names
  | .atom _ _, _, h => h
  | .list [] _, _, h => nomatch h
  | .list (_ :: ds) _, _, h => by
    obtain ⟨hc, hds⟩ := flattenShape_list.mp h
    rw [parseSort, unparse]
    exact flattenShape_list.mpr ⟨hc, unparses_parseSorts sc ds hds⟩

theorem unparses_parseSorts (sc : Scope) : (ds : List Datum) → {names : List String} →
    flattenShapes ds = .ok names → flattenShapes (unparses (parseSorts sc ds)) = .ok names
  | [], _, h => h
  | d :: ds, _, h => by
    obtain ⟨n, ns, hn, hns, rfl⟩ := flattenShapes_cons.mp h
    rw [parseSorts, unparses]
    exact flattenShapes_cons.mpr
      ⟨n, ns, unparse_parseSort sc d hn, unparses_parseSorts sc ds hns, rfl⟩

end

section Reorder

variable (A : Order.Arith) (iters : Nat) (m : Xpl.Model)

theorem orderKids_perm (kids : List SNode) :
    (orderKids A iters m kids).Perm (List.range kids.length) := by
  unfold orderKids
  dsimp only
  split
  · exact .refl _
  · exact Order.force_perm _ _ _ _

theorem reorderKids_length (kids : List SNode) :
    (reorderKids A iters m kids).length = kids.length := by
  induction kids with
  | nil => rfl
  | cons k ks ih => rw [reorderKids, List.length_cons, List.length_cons, ih]

mutual

/-- Every leaf of a tree is once in the reordered one. -/
theorem reorder_leaves : (n : SNode) → {names : List String} →
    flattenShape (unparse n) = .ok names →
    ∃ names', flattenShape (unparse (reorder A iters m n).1) = .ok names' ∧ names'.Perm names
  | .leaf _ _ _, _, h => ⟨_, h, .refl _⟩
  | .node text kids line, names, h => by
    rw [reorder]
    split
    · exact ⟨_, h, .refl _⟩
    · rw [unparse] at h
      obtain ⟨hc, hkids⟩ := flattenShape_list.mp h
      obtain ⟨names₁, h₁, hp₁⟩ := reorderKids_leaves kids hkids
      have hperm := orderKids_perm A iters m kids
      rw [← reorderKids_length A iters m kids] at hperm
      -- the children are moved as a whole
      obtain ⟨names₂, h₂, hp₂⟩ := flattenShapes_perm
        (((relist_perm hperm).symm.map Prod.fst).map unparse) (by
          rw [← unparses_eq_map]
          exact h₁)
      refine ⟨names₂, ?_, hp₂.trans hp₁⟩
      rw [unparse, unparses_eq_map]
      exact flattenShape_list.mpr ⟨hc, h₂⟩

theorem reorderKids_leaves : (ks : List SNode) → {names : List String} →
    flattenShapes (unparses ks) = .ok names →
    ∃ names', flattenShapes (unparses ((reorderKids A iters m ks).map Prod.fst)) = .ok names' ∧
      names'.Perm names
  | [], _, h => ⟨_, h, .refl _⟩
  | k :: ks, _, h => by
    rw [unparses] at h
    obtain ⟨n, ns, hn, hns, rfl⟩ := flattenShapes_cons.mp h
    obtain ⟨n', hn', hp⟩ := reorder_leaves k hn
    obtain ⟨ns', hns', hps⟩ := reorderKids_leaves ks hns
    rw [reorderKids, List.map_cons, unparses]
    exact ⟨n' ++ ns', flattenShapes_cons.mpr ⟨n', ns', hn', hns', rfl⟩, hp.append hps⟩

end

end Reorder

/-! ## The reading of the rewritten forms -/

/-- A shape form with the leaves of another; any other form is the same. -/
def SameLeaves (f f' : Datum) : Prop :=
  if f.head = "shape" then
    f'.head = "shape" ∧ ∃ names names', flattenShape (f.item 1) = .ok names ∧
      flattenShape (f'.item 1) = .ok names' ∧ names'.Perm names
  else f' = f

/-- Two readings with one set of leaves on the frontier. -/
structure SameReading (r r' : Reading) : Prop where
  declared : r'.declared = r.declared
  arrayCells : r'.arrayCells = r.arrayCells
  leaves : ∀ n, (r'.leaves.lookup n).isSome = (r.leaves.lookup n).isSome
  order : r'.order.Perm r.order
  events : r'.events = r.events
  initEvent : r'.initEvent = r.initEvent

section Reading

variable {r r' r₁ : Reading} {f f' : Datum}

/-- Placing wants the names declared, and adds them to the leaves. -/
theorem place_eq_ok {f : Datum} : ∀ {names : List String} {p : Nat}
    {leaves out : List (String × LeafInfo)}, r.place f names p leaves = .ok out →
    (∀ name ∈ names, (r.declared.lookup name).isSome) ∧
      ∀ n, (out.lookup n).isSome = (decide (n ∈ names) || (leaves.lookup n).isSome) := by
  intro names
  induction names with
  | nil =>
    intro p leaves out h
    cases h
    exact ⟨by simp, fun n => by simp⟩
  | cons name names ih =>
    intro p leaves out h
    unfold Reading.place at h
    split at h
    · cases h
    · next hd =>
      obtain ⟨h₁, h₂⟩ := ih h
      refine ⟨List.forall_mem_cons.mpr ⟨by rw [hd]; rfl, h₁⟩, fun n => ?_⟩
      rw [h₂, lookup_mapInsert]
      by_cases hn : n = name
      · simp [hn]
      · simp [hn]

theorem exists_place (f : Datum) : ∀ {names : List String},
    (∀ name ∈ names, (r.declared.lookup name).isSome) → ∀ p leaves,
    ∃ out, r.place f names p leaves = .ok out := by
  intro names
  induction names with
  | nil => exact fun _ _ leaves => ⟨leaves, rfl⟩
  | cons name names ih =>
    intro h p leaves
    obtain ⟨hname, hnames⟩ := List.forall_mem_cons.mp h
    obtain ⟨⟨bounded, lo, hi⟩, hd⟩ := Option.isSome_iff_exists.mp hname
    unfold Reading.place
    rw [hd]
    exact ih hnames _ _

theorem SameReading.readLeaf (h : SameReading r r') (hr : r.readLeaf f = .ok r₁) :
    ∃ r₁', r'.readLeaf f = .ok r₁' ∧ SameReading r₁ r₁' := by
  unfold Reading.readLeaf at hr ⊢
  rw [h.declared]
  split at hr
  · next hlen =>
    rw [if_pos hlen]
    obtain ⟨lo, hlo, hr⟩ := bind_eq_ok.mp hr
    obtain ⟨hi, hhi, hr⟩ := bind_eq_ok.mp hr
    cases hr
    rw [hlo, hhi]
    exact ⟨_, rfl, rfl, h.arrayCells, h.leaves, h.order, h.events, h.initEvent⟩
  · next hlen =>
    rw [if_neg hlen]
    cases hr
    exact ⟨_, rfl, rfl, h.arrayCells, h.leaves, h.order, h.events, h.initEvent⟩

/-- A shape of the same leaves places the same leaves. -/
theorem SameReading.readShape (h : SameReading r r') {names names' : List String}
    (hf : flattenShape (f.item 1) = .ok names) (hf' : flattenShape (f'.item 1) = .ok names')
    (hperm : names'.Perm names) (hr : r.readShape f = .ok r₁) :
    ∃ r₁', r'.readShape f' = .ok r₁' ∧ SameReading r₁ r₁' := by
  unfold Reading.readShape at hr
  rw [hf] at hr
  obtain ⟨_, he, hr⟩ := bind_eq_ok.mp hr
  cases he
  obtain ⟨leaves, hl, hr⟩ := bind_eq_ok.mp hr
  cases hr
  obtain ⟨hdecl, hsome⟩ := place_eq_ok hl
  have horder : (r'.order ++ names').Perm (r.order ++ names) := h.order.append hperm
  have hdecl' : ∀ n ∈ r'.order ++ names', (r'.declared.lookup n).isSome := by
    intro n hn
    rw [h.declared]
    exact hdecl n (horder.mem_iff.mp hn)
  obtain ⟨leaves', hl'⟩ := exists_place f' hdecl' 0 r'.leaves
  obtain ⟨-, hsome'⟩ := place_eq_ok hl'
  refine ⟨{ r' with order := r'.order ++ names', leaves := leaves' },
    bind_of_ok hf' (bind_of_ok hl' rfl), h.declared, h.arrayCells,
    fun n => ?_, horder, h.events, h.initEvent⟩
  rw [hsome', hsome, h.leaves]
  simp only [horder.mem_iff]

/-- Whether pairs are read does not depend on the places. -/
theorem exists_readPairs (r' : Reading) : ∀ {its : List Datum} {ps : List (Nat × Int)},
    r.readPairs its = .ok ps → ∃ ps', r'.readPairs its = .ok ps' := by
  intro its
  induction its with
  | nil => exact fun _ => ⟨[], rfl⟩
  | cons it its ih =>
    intro ps hps
    obtain ⟨v, hv, hps⟩ := bind_eq_ok.mp hps
    obtain ⟨rest, hrest, -⟩ := bind_eq_ok.mp hps
    obtain ⟨rest', hrest'⟩ := ih hrest
    exact ⟨_, bind_of_ok hv (bind_of_ok hrest' rfl)⟩

theorem SameReading.readInit (h : SameReading r r') (hr : r.readInit f = .ok r₁) :
    ∃ r₁', r'.readInit f = .ok r₁' ∧ SameReading r₁ r₁' := by
  have hpair : r'.isPairInit f = r.isPairInit f := by
    unfold Reading.isPairInit
    simp only [h.leaves]
  unfold Reading.readInit at hr ⊢
  rw [hpair]
  split at hr
  · next hp =>
    rw [if_pos hp]
    obtain ⟨ps, hps, hr⟩ := bind_eq_ok.mp hr
    cases hr
    obtain ⟨ps', hps'⟩ := exists_readPairs r' hps
    rw [hps']
    exact ⟨_, rfl, h.declared, h.arrayCells, h.leaves, h.order, h.events, h.initEvent⟩
  · next hp =>
    rw [if_neg hp]
    split at hr
    · next h2 =>
      rw [if_pos h2]
      dsimp only at hr ⊢
      split at hr
      · cases hr
      · next hk =>
        rw [if_neg hk, h.initEvent]
        split at hr
        · next hseq =>
          cases hr
          rw [if_pos hseq]
          exact ⟨_, rfl, h.declared, h.arrayCells, h.leaves, h.order, h.events, rfl⟩
        · next hseq =>
          cases hr
          rw [if_neg hseq]
          exact ⟨_, rfl, h.declared, h.arrayCells, h.leaves, h.order, h.events, rfl⟩
    · next h2 =>
      cases hr
      rw [if_neg h2]
      exact ⟨_, rfl, h⟩

theorem SameReading.readFamily (h : SameReading r r') (hr : r.readFamily f = .ok r₁) :
    ∃ r₁', r'.readFamily f = .ok r₁' ∧ SameReading r₁ r₁' := by
  unfold Reading.readFamily at hr ⊢
  obtain ⟨n, hn, hr⟩ := bind_eq_ok.mp hr
  obtain ⟨insts, hinsts, hr⟩ := bind_eq_ok.mp hr
  cases hr
  refine ⟨{ r' with events := r'.events ++ insts }, ?_, h.declared, h.arrayCells, h.leaves, h.order,
    ?_, h.initEvent⟩
  · rw [hn, h.arrayCells]
    exact bind_of_ok rfl (bind_of_ok hinsts rfl)
  · rw [h.events]

theorem SameReading.readForm (h : SameReading r r') (hf : SameLeaves f f')
    (hr : r.readForm f = .ok r₁) : ∃ r₁', r'.readForm f' = .ok r₁' ∧ SameReading r₁ r₁' := by
  unfold SameLeaves at hf
  split at hf
  · next hs =>
    obtain ⟨hs', names, names', hn, hn', hperm⟩ := hf
    unfold Reading.readForm at hr ⊢
    rw [hs, if_neg (by decide), if_neg (by decide), if_pos rfl] at hr
    rw [hs', if_neg (by decide), if_neg (by decide), if_pos rfl]
    exact h.readShape hn hn' hperm hr
  · next hs =>
    subst hf
    unfold Reading.readForm at hr ⊢
    split at hr
    · next hl =>
      rw [if_pos hl]
      exact h.readLeaf hr
    · next hl =>
      rw [if_neg hl]
      split at hr
      · next ha =>
        cases hr
        rw [if_pos ha]
        refine ⟨_, rfl, h.declared, ?_, h.leaves, h.order, h.events, h.initEvent⟩
        simp only [Reading.readArray, h.arrayCells]
      · next ha =>
        rw [if_neg ha, if_neg hs]
        split at hr
        · next hi =>
          rw [if_pos hi]
          exact h.readInit hr
        · next hi =>
          rw [if_neg hi]
          split at hr
          · next he =>
            cases hr
            rw [if_pos he]
            refine ⟨_, rfl, h.declared, h.arrayCells, h.leaves, h.order, ?_, h.initEvent⟩
            simp only [h.events]
          · next he =>
            rw [if_neg he]
            split at hr
            · next hfam =>
              rw [if_pos hfam]
              exact h.readFamily hr
            · next hfam =>
              cases hr
              rw [if_neg hfam]
              exact ⟨_, rfl, h⟩

theorem SameReading.readAll {forms forms' : List Datum} (h : SameReading r r')
    (hforms : List.Forall₂ SameLeaves forms forms') (hr : r.readAll forms = .ok r₁) :
    ∃ r₁', r'.readAll forms' = .ok r₁' ∧ SameReading r₁ r₁' := by
  induction hforms generalizing r r' with
  | nil =>
    cases hr
    exact ⟨r', rfl, h⟩
  | cons hf _ ih =>
    obtain ⟨r₂, h₂, hr⟩ := bind_eq_ok.mp hr
    obtain ⟨r₂', h₂', hsame⟩ := h.readForm hf h₂
    obtain ⟨r₁', h₁', hsame'⟩ := ih hsame hr
    exact ⟨r₁', bind_of_ok h₂' h₁', hsame'⟩

/-- Forms with the same leaves read to the same frontier up to order. -/
theorem read_sameLeaves {forms forms' : List Datum} {s : Spec}
    (hforms : List.Forall₂ SameLeaves forms forms') (h : Spec.read forms = .ok s) :
    ∃ s', Spec.read forms' = .ok s' ∧ s'.order.Perm s.order := by
  obtain ⟨r, hr, hspec⟩ := read_eq_ok h
  have hempty : SameReading .empty .empty := ⟨rfl, rfl, fun _ => rfl, .refl _, rfl, rfl⟩
  obtain ⟨r', hr', hsame⟩ := hempty.readAll hforms hr
  obtain ⟨s', hs', hspec'⟩ := read_of_readAll hr'
  exact ⟨s', hs', by rw [hspec'.order, hspec.order]; exact hsame.order⟩

/-- A shape that is read has leaves. -/
theorem flatten_of_readAll : ∀ {forms : List Datum} {r r₁ : Reading}, r.readAll forms = .ok r₁ →
    ∀ f ∈ forms, f.head = "shape" → ∃ names, flattenShape (f.item 1) = .ok names := by
  intro forms
  induction forms with
  | nil => exact fun _ f hf => absurd hf List.not_mem_nil
  | cons g forms ih =>
    intro r r₁ h f hf hs
    obtain ⟨r₂, h₂, h⟩ := bind_eq_ok.mp h
    rcases List.mem_cons.mp hf with rfl | hf
    · unfold Reading.readForm at h₂
      rw [hs, if_neg (by decide), if_neg (by decide), if_pos rfl] at h₂
      obtain ⟨names, hn, -⟩ := bind_eq_ok.mp h₂
      exact ⟨names, hn⟩
    · exact ih h f hf hs

end Reading

/-! ## Every leaf once -/

/-- A form built on the first item of another has its head. -/
theorem head_item (f : Datum) (ds : List Datum) (line : Int) :
    (Datum.list (f.item 0 :: ds) line).head = f.head := by
  rw [Datum.item, Datum.head.eq_def f]
  match f.items with
  | [] => rfl
  | .atom _ _ :: _ => rfl
  | .list _ _ :: _ => rfl

/-- The pass keeps the leaves of every shape, and the frontier up to order. -/
theorem reorderForce_leaves {A : Order.Arith} {iters : Nat} {R : ExprIds} {forms : List Datum}
    {out : Rewritten} (h : reorderForce A iters R forms = .ok out) :
    List.Forall₂ SameLeaves forms out.forms ∧
      ∃ s s', Spec.read forms = .ok s ∧ Spec.read out.forms = .ok s' ∧ s'.order.Perm s.order := by
  obtain ⟨s, hs, h⟩ := bind_eq_ok.mp h
  obtain ⟨r, hr, -⟩ := read_eq_ok hs
  have hshape := flatten_of_readAll hr
  have hforms : List.Forall₂ SameLeaves forms out.forms := by
    split at h
    · cases h
      refine List.forall₂_same.mpr fun f hf => ?_
      unfold SameLeaves
      split
      · next hhead =>
        obtain ⟨names, hn⟩ := hshape f hf hhead
        exact ⟨hhead, names, names, hn, hn, .refl _⟩
      · rfl
    · obtain ⟨m, -, h⟩ := bind_eq_ok.mp h
      have hout : out.forms = forms.map fun f => (reorderForm A iters s.scope m f).1 := by
        dsimp only at h
        split at h
        · cases h
          exact List.map_map
        · cases h
          exact List.map_map
      rw [hout, List.forall₂_map_right_iff]
      refine List.forall₂_same.mpr fun f hf => ?_
      unfold SameLeaves reorderForm
      split
      · next hhead =>
        obtain ⟨names, hn⟩ := hshape f hf hhead
        obtain ⟨names', hn', hp⟩ := reorder_leaves A iters m _ (unparse_parseSort s.scope _ hn)
        exact ⟨(head_item f _ _).trans hhead, names, names', hn, hn', hp⟩
      · rfl
  obtain ⟨s', hs', horder⟩ := read_sameLeaves hforms hs
  exact ⟨hforms, s, s', hs, hs', horder⟩

/-- The orders list every vertex once, and what applies them every leaf once. -/
theorem orders_list_once :
    (∀ (S : Order.Sorter) (n : Nat) (edges : List (Int × Int)), ∃ N, ∀ fuel, N ≤ fuel →
      ∃ out, Order.rcm S fuel n edges = some out ∧ out.Perm (List.range n) ∧
        ∀ pnames : List String, pnames.length = n → (Order.ordered pnames out).Perm pnames) ∧
    (∀ (n : Nat) (edges : List (Int × Int)) (w1 w2 : Int), ∃ N, ∀ fuel, N ≤ fuel →
      ∃ out, Order.sloan fuel n edges w1 w2 = some out ∧ out.Perm (List.range n) ∧
        ∀ pnames : List String, pnames.length = n → (Order.ordered pnames out).Perm pnames) ∧
    (∀ (A : Order.Arith) (nvars : Nat) (cliques : List (Order.Clique A))
      (precedences : List (Order.Precedence A)) (maxIters : Nat),
      (Order.force A nvars cliques precedences maxIters).Perm (List.range nvars) ∧
      ∀ order : List String, (Order.applyForce A order cliques precedences).Perm order) ∧
    ∀ (A : Order.Arith) (iters : Nat) (R : ExprIds) (forms : List Datum) (out : Rewritten),
      reorderForce A iters R forms = .ok out →
      List.Forall₂ SameLeaves forms out.forms ∧
        ∃ s s', Spec.read forms = .ok s ∧ Spec.read out.forms = .ok s' ∧ s'.order.Perm s.order := by
  have hordered : ∀ {n : Nat} {out : List Nat}, out.Perm (List.range n) →
      ∀ pnames : List String, pnames.length = n → (Order.ordered pnames out).Perm pnames := by
    intro n out hp pnames hlen
    exact relist_perm (hlen ▸ hp)
  refine ⟨fun S n edges => ⟨n + 2, fun fuel hfuel => ?_⟩, fun n edges w1 w2 => ?_,
    fun A nvars cliques precedences maxIters => ⟨Order.force_perm _ _ _ _,
      fun order => relist_perm (Order.force_perm _ _ _ _)⟩,
    fun A iters R forms out h => reorderForce_leaves h⟩
  · obtain ⟨out, h, hp⟩ := Order.rcm_perm S (show n + 1 < fuel by omega) edges
    exact ⟨out, h, hp, hordered hp⟩
  · obtain ⟨N, hN⟩ := Order.sloan_perm n edges w1 w2
    refine ⟨N, fun fuel hfuel => ?_⟩
    obtain ⟨out, h, hp⟩ := hN fuel hfuel
    exact ⟨out, h, hp, hordered hp⟩

/-- Arithmetic in halves, exact where no smaller part comes up. -/
def halves : Order.Arith where
  F := Int
  D := Int
  zero := 0
  one := 2
  two := 4
  ofNat n := 2 * n
  add := (· + ·)
  sub := (· - ·)
  mul a b := a * b / 2
  div a b := 2 * a / b
  lt a b := decide (a < b)
  widen := id
  zeroD := 0
  addD := (· + ·)
  mulD a b := a * b / 2
  ltD a b := decide (a < b)

/-- Four leaves in a row, the first a copy of the last. -/
def copyForms : List Datum :=
  let word (text : String) : Datum := .atom text 1
  [.list [word "leaf", word "a"] 1, .list [word "leaf", word "b"] 1,
   .list [word "leaf", word "c"] 1, .list [word "leaf", word "d"] 1,
   .list [word "shape", .list [word "spine", word "a", word "b", word "c", word "d"] 1] 1,
   .list [word "event", word "copy",
     .list [word "do", .list [word ":=", word "a", word "d"] 1] 1] 1]

/-- The ends of the row come closer. -/
theorem orders_list_once_copy :
    ∃ out s', reorderForce halves 0 ⟨fun _ => 0, fun _ => 0⟩ copyForms = .ok out ∧
      out.trace = "FORCE reordered 1 shape node, hierarchy kept" ∧
      List.Forall₂ SameLeaves copyForms out.forms ∧ Spec.read out.forms = .ok s' ∧
      s'.order = ["b", "a", "d", "c"] := by
  have hrun : (reorderForce halves 0 ⟨fun _ => 0, fun _ => 0⟩ copyForms).toOption.map (fun out =>
      (out.trace, (Spec.read out.forms).toOption.map Spec.order)) =
      some ("FORCE reordered 1 shape node, hierarchy kept", some ["b", "a", "d", "c"]) := by
    decide +kernel
  cases h : reorderForce halves 0 ⟨fun _ => 0, fun _ => 0⟩ copyForms with
  | error e =>
    rw [h] at hrun
    cases hrun
  | ok out =>
    rw [h] at hrun
    obtain ⟨htrace, horder⟩ := Prod.mk.inj (Option.some.inj hrun)
    obtain ⟨hforms, s, s', -, hs', -⟩ := orders_list_once.2.2.2 halves 0 _ copyForms out h
    rw [hs'] at horder
    exact ⟨out, s', rfl, htrace, hforms, hs', Option.some.inj horder⟩

end LibHSC.Surface
