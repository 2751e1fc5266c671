import LibHSC.Cegar.Model
import LibHSC.Surface.Reader
import Mathlib.Data.List.ProdSigma

/-!
The certificate checker: it parses the forms of a document, rebuilds the model
from the specification, walks the inclusions (L) and scans the invariant (G1 to
G3). It returns the number of failed obligations and the lines it prints.

Its tables are its own, not the loop's classifiers. The maps of the source are
association lists in the order of their keys.
-/

namespace LibHSC.Cegar

open Surface (Datum asInt)

/-- What reading integers prints: a line for each that is malformed. -/
def malformed (ds : List Datum) : List String :=
  (ds.filter fun d => (asInt d).isNone).map fun d =>
    "certcheck: malformed integer at line " ++ toString d.line

/-- A map's value at a key, made or changed. -/
def put {κ β : Type} [DecidableEq κ] [LT κ] [DecidableLT κ] (k : κ) (f : Option β → β) :
    List (κ × β) → List (κ × β)
  | [] => [(k, f none)]
  | (k', v) :: rest =>
    if k = k' then (k', f (some v)) :: rest
    else if k < k' then (k, f none) :: (k', v) :: rest
    else (k', v) :: put k f rest

/-! ## The forms of the document -/

structure Document where
  select : Option (List Datum)
  tablesRaw : List (String × List Datum)
  uses : List (String × String)
  invRaw : List Datum
  parseOk : Bool
  out : List String

def Document.refuse (g : Document) (message : String) : Document :=
  { g with parseOk := false, out := g.out ++ [message] }

/-- One form: a later header or use replaces an earlier one. -/
def Document.add (g : Document) (f : Datum) : Document :=
  if f.head = "certificate" then
    match f.items with
    | [_, s] =>
      if s.head = "select" then { g with select := some s.items }
      else g.refuse "certcheck: malformed certificate header"
    | _ => g.refuse "certcheck: malformed certificate header"
  else if f.head = "classifier" then
    match f.items with
    | _ :: name :: _ :: _ :: _ =>
      if name.isAtom then
        { g with tablesRaw := put name.text (fun o => o.getD [] ++ [f]) g.tablesRaw }
      else g.refuse "certcheck: malformed classifier form"
    | _ => g.refuse "certcheck: malformed classifier form"
  else if f.head = "use" then
    match f.items with
    | [_, inst, rep] => { g with uses := put inst.text (fun _ => rep.text) g.uses }
    | _ => g.refuse "certcheck: malformed use form"
  else if f.head = "inv" then { g with invRaw := g.invRaw ++ [f] }
  else g.refuse ("certcheck: unknown form '" ++ f.head ++ "' at line " ++ toString f.line)

def gather (forms : List Datum) : Document :=
  forms.foldl Document.add ⟨none, [], [], [], true, []⟩

/-! ## The tables -/

/-- A class table: a complete action, at most one dead class. -/
structure Table where
  k : Nat
  dead : Option Nat
  nl : Nat
  act : List Nat
  deriving DecidableEq, Repr

/-- The class a letter leads to, in a table read with `nl` letters. -/
def Table.step (t : Table) (nl c a : Nat) : Nat := t.act.getD (c * nl + a) 0

section Tables

variable (m : Model)

/-- The leaf a name stands for. -/
def leafIndex (name : String) : Option Nat :=
  (List.range m.leaves.length).reverse.find? fun i => m.leafNames.getD i "" = name

/-- The actions of a table, into the cells of their class and letter; an error is
what it prints. -/
def readActions (name : String) (k nl : Nat) :
    List Datum → List (Option Nat) → Except (List String) (List (Option Nat))
  | [], act => .ok act
  | a :: rest, act =>
    match decide (a.head = "a"), a.items with
    | true, [_, c, l, d] =>
      match asInt c, asInt l, asInt d with
      | some c, some l, some d =>
        if c < 0 ∨ k ≤ c ∨ l < 0 ∨ nl ≤ l ∨ d < 0 ∨ k ≤ d then
          .error ["certcheck: classifier '" ++ name ++ "' action out of range"]
        else
          readActions name k nl rest (act.set (c.toNat * nl + l.toNat) (some d.toNat))
      | _, _, _ => .error (malformed [c, l, d] ++
          ["certcheck: classifier '" ++ name ++ "' action out of range"])
    | _, _ => .error ["certcheck: classifier '" ++ name ++ "' malformed action"]

/-- The table of one classifier form, for a leaf of `nl` letters. -/
def readTable (name : String) (nl : Nat) (f : Datum) : Except (List String) Table :=
  match f.items with
  | _ :: _ :: kd :: dd :: actions =>
    match asInt kd, asInt dd with
    | some k, some dead =>
      if k < 1 ∨ dead < -1 ∨ k ≤ dead then
        .error ["certcheck: classifier '" ++ name ++ "' malformed header"]
      else
        match readActions name k.toNat nl actions (List.replicate (k.toNat * nl) none) with
        | .error lines => .error lines
        | .ok cells =>
          if none ∈ cells then
            .error ["certcheck: classifier '" ++ name ++ "' action table incomplete"]
          else
            .ok ⟨k.toNat, if dead = -1 then none else some dead.toNat, nl,
              cells.map fun c => c.getD 0⟩
    | _, _ => .error (malformed [kd, dd] ++
        ["certcheck: classifier '" ++ name ++ "' malformed header"])
  | _ => .error []

/-- The tables that parse, by the name of their leaf, with the failures and what
they print. -/
def readTables : List (String × List Datum) → List (String × Table) × Nat × List String
  | [] => ([], 0, [])
  | (name, forms) :: rest =>
    let (tables, fails, out) := readTables rest
    let dup : Nat × List String :=
      if 1 < forms.length then (1, ["certcheck: duplicate classifier for '" ++ name ++ "'"])
      else (0, [])
    match leafIndex m name, forms with
    | some i, f :: _ =>
      match readTable name (m.leaf i).nLetters f with
      | .ok t => ((name, t) :: tables, dup.1 + fails, dup.2 ++ out)
      | .error lines => (tables, dup.1 + 1 + fails, dup.2 ++ lines ++ out)
    | _, _ => (tables, dup.1 + 1 + fails, dup.2 ++
        ["certcheck: classifier for unknown leaf '" ++ name ++ "'"] ++ out)

/-- The leaf and the table of one alias, or the line of its failure. Only the size
of the alphabet is compared. -/
def resolveUse (tables : List (String × Table)) (inst rep : String) : Except String (Nat × Table) :=
  match tables.lookup rep, leafIndex m inst with
  | some t, some i =>
    if t.nl ≠ (m.leaf i).nLetters then
      .error ("FAIL (L) leaf '" ++ inst ++ "': aliased table has a different alphabet")
    else .ok (i, t)
  | _, _ => .error ("certcheck: use '" ++ inst ++ "' -> '" ++ rep ++ "' does not resolve")

/-- The aliases that resolve, by leaf. -/
def resolveUses (tables : List (String × Table)) :
    List (String × String) → List (Nat × Table) × Nat × List String
  | [] => ([], 0, [])
  | (inst, rep) :: rest =>
    let (aliases, fails, out) := resolveUses tables rest
    match resolveUse m tables inst rep with
    | .ok p => (p :: aliases, fails, out)
    | .error line => (aliases, fails + 1, line :: out)

/-- The table of a leaf: its own, or else the one it uses. -/
def ofLeaf (tables : List (String × Table)) (aliases : List (Nat × Table)) (i : Nat) :
    Option Table :=
  match tables.find? fun p => leafIndex m p.1 = some i with
  | some p => some p.2
  | none => aliases.lookup i

/-- The leaves without a table; the monitor tracks a property leaf. -/
def missing (h : Nat → Option Table) : List Nat :=
  (List.range m.leaves.length).filter fun i => !m.isProp i && (h i).isNone

end Tables

/-! ## The inclusion walk -/

/-- The pairs of a leaf's state and its class. -/
def inclusionStep (l : Lts) (t : Table) (p : Nat × Nat) (a : Nat) : Option (Nat × Nat) :=
  (l.step p.1 a).map fun q => (q, t.step l.nLetters p.2 a)

/-- The walk of one table on a leaf: true when no trace is classified dead. -/
def inclusionWalk (l : Lts) (t : Table) : Bool :=
  if t.dead = some 0 then false
  else match Explore.explore (inclusionStep l t) (fun p => decide (t.dead = some p.2))
      (fun _ => false) (List.range l.nLetters) (l.nStates * t.k + 1) (0, 0) with
    | some (.closed _) => true
    | _ => false

/-- One walk per table, on the leaf that declares it. -/
def walkTables (m : Model) : List (String × Table) → Nat × List String
  | [] => (0, [])
  | (name, t) :: rest =>
    let (fails, out) := walkTables m rest
    if inclusionWalk (m.leaf ((leafIndex m name).getD 0)) t then
      (fails, ("ok   (L) leaf '" ++ name ++ "'") :: out)
    else (fails + 1, ("FAIL (L) leaf '" ++ name ++ "': a leaf trace is classified dead") :: out)

/-! ## The invariant -/

section Invariant

variable (m : Model) (h : Nat → Option Table)

/-- The values an entry gives its leaves; -1 where it gives none. -/
def readPairs : List Datum → List Int → Except (List String) (List Int)
  | [], vals => .ok vals
  | pair :: rest, vals =>
    match pair.items with
    | [.atom name _, v] =>
      match leafIndex m name with
      | none => .error ["certcheck: inv names unknown leaf '" ++ name ++ "'"]
      | some i =>
        match asInt v with
        | some n => readPairs rest (vals.set i n)
        | none =>
          -- the source reads on, to the end or to the next malformed pair
          match readPairs rest (vals.set i 0) with
          | .ok _ => .error (malformed [v])
          | .error lines => .error (malformed [v] ++ lines)
    | _ => .error ["certcheck: malformed inv pair at line " ++ toString pair.line]

/-- The classes of an entry's leaves, property leaves at 0. -/
def readClasses (vals : List Int) : List Nat → Except (List String) (List Nat)
  | [] => .ok []
  | i :: is =>
    if m.isProp i then
      match readClasses vals is with
      | .ok cs => .ok (0 :: cs)
      | .error lines => .error lines
    else
      match h i with
      | none => .error ["certcheck: inv class out of range for '" ++ m.leafNames.getD i "" ++ "'"]
      | some t =>
        if vals.getD i (-1) < 0 ∨ (t.k : Int) ≤ vals.getD i (-1) then
          .error ["certcheck: inv class out of range for '" ++ m.leafNames.getD i "" ++ "'"]
        else
          match readClasses vals is with
          | .ok cs => .ok ((vals.getD i (-1)).toNat :: cs)
          | .error lines => .error lines

/-- The abstract state of one entry. -/
def readState (f : Datum) : Except (List String) (List Nat) :=
  match readPairs m (f.items.drop 1) (List.replicate m.leaves.length (-1)) with
  | .error lines => .error lines
  | .ok vals =>
    match (List.range m.monitorValues.length).reverse.find? fun t =>
        m.monitorValues.getD t [] = m.propLeaves.map fun p => vals.getD p (-1) with
    | none => .error ["certcheck: inv entry names an unreachable property tuple"]
    | some ms =>
      match readClasses m h vals (List.range m.leaves.length) with
      | .error lines => .error lines
      | .ok cs => .ok (ms :: cs)

/-- The set of states of the entries, whether they all decode, and what they print. -/
def readInv : List Datum → List (List Nat × Bool) → List (List Nat × Bool) × Bool × List String
  | [], inv => (inv, true, [])
  | f :: rest, inv =>
    match readState m h f with
    | .ok st => readInv rest (put st (fun _ => true) inv)
    | .error lines =>
      let (inv', _, out) := readInv rest inv
      (inv', false, lines ++ out)

/-- A leaf's move under its table; a dead class blocks, and a property leaf is the
monitor's. -/
def certMove (l c a : Nat) : Option Nat :=
  if m.isProp l then some c
  else match h l with
    | none => none
    | some t =>
      let d := t.step (m.leaf l).nLetters c a
      if t.dead = some d then none else some d

/-- Every event leads from a state into the set, or is blocked. -/
def closedAt (inv : List (List Nat)) (st : List Nat) : Bool :=
  m.eventIds.all fun e =>
    match m.productStep (certMove m h) st e with
    | none => true
    | some nxt => inv.contains nxt

/-- (G2) and (G3): the scan stops at the first state that is not closed. -/
def scan (inv : List (List Nat)) : List (List Nat) → Bool × Bool
  | [] => (true, true)
  | st :: rest =>
    if closedAt m h inv st then
      let (g2, g3) := scan inv rest
      (g2, !m.isBad st && g3)
    else (false, !m.isBad st)

end Invariant

/-! ## The verdict -/

def failIf (b : Bool) : Nat := if b then 1 else 0

/-- The obligations of a document on a model: the failures and the lines. -/
def checkModel (m : Model) (g : Document) : Nat × List String :=
  let (tables, f1, o1) := readTables m g.tablesRaw
  let (aliases, f2, o2) := resolveUses m tables g.uses
  let h := ofLeaf m tables aliases
  let o3 := (missing m h).map fun i =>
    "FAIL (L) leaf '" ++ m.leafNames.getD i "" ++ "': no classifier"
  let (f4, o4) := walkTables m tables
  let (invMap, invOk, o5) := readInv m h g.invRaw []
  let inv := invMap.map Prod.fst
  let g1 := inv.contains m.initial
  let (g2, g3) := scan m h inv inv
  let fails := failIf (!g.parseOk) + f1 + f2 + (missing m h).length + f4 + failIf (!invOk) +
    failIf (!g1) + failIf (!g2) + failIf (!g3)
  (fails, g.out ++ o1 ++ o2 ++ o3 ++ o4 ++ o5 ++
    [if g1 then "ok   (G1) initial state in inv" else "FAIL (G1) initial state not in inv",
     if g2 then "ok   (G2) inv closed under every event" else "FAIL (G2) inv not closed",
     if g3 then "ok   (G3) no inv state is bad" else "FAIL (G3) a bad state is in inv",
     if fails = 0 then "certcheck: PASS"
      else "certcheck: FAIL (" ++ toString fails ++ " obligations)"])

/-- The checker on a document. `bridge` builds the model of the specification under
property atoms, or refuses it. -/
def certcheck (bridge : List Datum → Except String Model) (forms : List Datum) :
    Except String (Nat × List String) :=
  let g := gather forms
  match g.select with
  | none => .ok (1, g.out ++ ["certcheck: no (certificate (select …)) header"])
  | some items =>
    match bridge (items.drop 1) with
    | .error message => .error message
    | .ok m => .ok (checkModel m g)

/-! ## What a walk says -/

namespace Table

/-- The class of a word. -/
def classify (t : Table) (nl : Nat) (u : List Nat) : Nat := u.foldl (t.step nl) 0

/-- No trace of the leaf is classified dead. -/
def Includes (t : Table) (l : Lts) : Prop :=
  ∀ u, (∀ a ∈ u, a < l.nLetters) → (l.fire u).isSome = true →
    t.dead ≠ some (t.classify l.nLetters u)

end Table

theorem Table.classify_snoc (t : Table) (nl : Nat) (u : List Nat) (a : Nat) :
    t.classify nl (u ++ [a]) = t.step nl (t.classify nl u) a := by
  simp [Table.classify]

theorem run_inclusionStep {l : Lts} {t : Table} (u : List Nat) :
    Explore.run (inclusionStep l t) (0, 0) u =
      (l.fire u).map fun q => (q, t.classify l.nLetters u) := by
  induction u using List.reverseRecOn with
  | nil => rfl
  | append_singleton u a ih =>
    have hfire : l.fire (u ++ [a]) = (l.fire u).bind fun q => l.step q a :=
      Explore.run_snoc 0 u a
    rw [Explore.run_snoc, ih, hfire]
    cases l.fire u with
    | none => rfl
    | some q => simp [inclusionStep, Table.classify_snoc]

theorem includes_of_inclusionWalk {l : Lts} {t : Table} (h : inclusionWalk l t = true) :
    t.Includes l := by
  intro u hu hf
  unfold inclusionWalk at h
  split at h
  · cases h
  next hzero =>
  split at h
  · next st hst =>
    by_cases hne : u = []
    · subst hne
      exact hzero
    · obtain ⟨q, hq⟩ := Option.isSome_iff_exists.mp hf
      have hrun : Explore.run (inclusionStep l t) (0, 0) u = some (q, t.classify l.nLetters u) := by
        rw [run_inclusionStep, hq]
        rfl
      have hdead := (Explore.explore_closed hst
        (fun a ha => List.mem_range.mpr (hu a ha)) hrun).2 hne
      simpa using hdead
  · cases h

/-! ## What the forms declare -/

theorem walkTables_zero {m : Model} : ∀ {tables : List (String × Table)},
    (walkTables m tables).1 = 0 →
    ∀ p ∈ tables, inclusionWalk (m.leaf ((leafIndex m p.1).getD 0)) p.2 = true := by
  intro tables
  induction tables with
  | nil => simp
  | cons p tables ih =>
    obtain ⟨name, t⟩ := p
    intro h
    unfold walkTables at h
    simp only at h
    split at h
    · next hw => exact List.forall_mem_cons.mpr ⟨hw, ih h⟩
    · cases h

theorem scan_true {m : Model} {h : Nat → Option Table} {inv : List (List Nat)} :
    ∀ {sts : List (List Nat)}, scan m h inv sts = (true, true) →
    ∀ st ∈ sts, closedAt m h inv st = true ∧ m.isBad st = false := by
  intro sts
  induction sts with
  | nil => simp
  | cons st sts ih =>
    intro hs
    unfold scan at hs
    split at hs
    · next hc =>
      simp only [Prod.mk.injEq, Bool.and_eq_true, Bool.not_eq_true'] at hs
      exact List.forall_mem_cons.mpr ⟨⟨hc, hs.2.1⟩, ih (Prod.ext hs.1 hs.2.2)⟩
    · cases hs

/-! ## What an accepted document says -/

/-- The tables a document declares, by leaf name. -/
def Document.tables (g : Document) (m : Model) : List (String × Table) :=
  (readTables m g.tablesRaw).1

/-- The leaves that a `use` form gives a table, and the table. -/
def Document.aliases (g : Document) (m : Model) : List (Nat × Table) :=
  (resolveUses m (g.tables m) g.uses).1

/-- A leaf whose table comes from an alias alone has no trace the table classifies
dead. Property leaves need no table. -/
def Document.AliasesIncluded (g : Document) (m : Model) : Prop :=
  ∀ i t, m.isProp i = false → (∀ p ∈ g.tables m, leafIndex m p.1 ≠ some i) →
    (g.aliases m).lookup i = some t → t.Includes (m.leaf i)

theorem ofLeaf_includes {m : Model} {g : Document} (hg : g.AliasesIncluded m)
    (hw : (walkTables m (g.tables m)).1 = 0) {i : Nat} {t : Table} (hi : m.isProp i = false)
    (ht : ofLeaf m (g.tables m) (g.aliases m) i = some t) : t.Includes (m.leaf i) := by
  unfold ofLeaf at ht
  split at ht
  · next p hp =>
    cases ht
    have hidx : leafIndex m p.1 = some i := by simpa using List.find?_some hp
    have hwalk := walkTables_zero hw p (List.mem_of_find?_eq_some hp)
    rw [hidx] at hwalk
    exact includes_of_inclusionWalk hwalk
  · next hnone =>
    refine hg i t hi (fun p hp => ?_) ht
    simpa using List.find?_eq_none.mp hnone p hp

theorem certMove_run {m : Model} {h : Nat → Option Table} {i : Nat} {t : Table}
    (hp : m.isProp i = false) (ht : h i = some t) (hinc : t.Includes (m.leaf i)) {u : List Nat} :
    (∀ a ∈ u, a < (m.leaf i).nLetters) → ((m.leaf i).fire u).isSome = true →
    Explore.run (certMove m h i) 0 u = some (t.classify (m.leaf i).nLetters u) := by
  induction u using List.reverseRecOn with
  | nil => exact fun _ _ => rfl
  | append_singleton u a ih =>
    intro hu hf
    have hfire : (m.leaf i).fire (u ++ [a]) = ((m.leaf i).fire u).bind fun q =>
        (m.leaf i).step q a := Explore.run_snoc 0 u a
    have hpre : ((m.leaf i).fire u).isSome = true := by
      rw [hfire] at hf
      cases hq : (m.leaf i).fire u with
      | none => rw [hq] at hf; cases hf
      | some q => rfl
    have hlive := hinc (u ++ [a]) hu hf
    rw [Explore.run_snoc, ih (fun x hx => hu x (List.mem_append_left _ hx)) hpre]
    rw [Table.classify_snoc] at hlive ⊢
    simp only [Option.bind_some, certMove, hp, ht, Bool.false_eq_true, if_false, if_neg hlive]

/-- A property leaf never blocks. -/
theorem certMove_prop {m : Model} {h : Nat → Option Table} {i : Nat} (hp : m.isProp i = true)
    (c : Nat) (u : List Nat) : Explore.run (certMove m h i) c u = some c := by
  induction u with
  | nil => rfl
  | cons a u ih =>
    rw [Explore.run_cons, certMove, if_pos hp]
    exact ih

/-- A closed set that contains the initial state contains every state the abstract
product reaches. By induction on the word, from its end. -/
theorem run_mem_inv {m : Model} {h : Nat → Option Table} {inv : List (List Nat)}
    (hinit : m.initial ∈ inv) (hclosed : ∀ st ∈ inv, closedAt m h inv st = true)
    {w st : List Nat} (hw : ∀ e ∈ w, e ∈ m.eventIds)
    (hst : Explore.run (m.productStep (certMove m h)) m.initial w = some st) : st ∈ inv := by
  induction w using List.reverseRecOn generalizing st with
  | nil =>
    cases hst
    exact hinit
  | append_singleton w e ih =>
    rw [Explore.run_snoc] at hst
    obtain ⟨cur, hcur, hst⟩ := Option.bind_eq_some_iff.mp hst
    have hmem := ih (fun x hx => hw x (List.mem_append_left _ hx)) hcur
    have hc := List.all_eq_true.mp (hclosed cur hmem) e (hw e (by simp))
    rw [hst] at hc
    simpa using hc

theorem failIf_zero {b : Bool} (h : failIf (!b) = 0) : b = true := by
  cases b with
  | true => rfl
  | false => cases h

/-- What a document without failures has passed. -/
theorem checkModel_zero {m : Model} {g : Document} (h : (checkModel m g).1 = 0) :
    missing m (ofLeaf m (g.tables m) (g.aliases m)) = [] ∧
    (walkTables m (g.tables m)).1 = 0 ∧
    ∃ inv, m.initial ∈ inv ∧
      ∀ st ∈ inv, closedAt m (ofLeaf m (g.tables m) (g.aliases m)) inv st = true ∧
        m.isBad st = false := by
  simp only [checkModel, Nat.add_eq_zero_iff] at h
  obtain ⟨⟨⟨⟨⟨⟨-, hmiss⟩, hwalk⟩, -⟩, hg1⟩, hg2⟩, hg3⟩ := h
  refine ⟨List.length_eq_zero_iff.mp hmiss, hwalk, _, ?_,
    scan_true (Prod.ext (failIf_zero hg2) (failIf_zero hg3))⟩
  simpa using failIf_zero hg1

theorem checkModel_sound {m : Model} (hm : m.WF) {g : Document} (hg : g.AliasesIncluded m)
    (h : (checkModel m g).1 = 0) : ∀ st, m.Reachable st → m.isBad st = false := by
  obtain ⟨hmiss, hwalk, inv, hinit, hinv⟩ := checkModel_zero h
  intro st hst
  obtain ⟨w, hw, hst⟩ := hst
  have hmove : ∀ i < m.leaves.length, ∀ u, (∀ a ∈ u, a < (m.leaf i).nLetters) →
      ((m.leaf i).fire u).isSome = true →
      (Explore.run (certMove m (ofLeaf m (g.tables m) (g.aliases m)) i) 0 u).isSome = true := by
    intro i hi u hu hf
    cases hp : m.isProp i with
    | true =>
      rw [certMove_prop hp]
      rfl
    | false =>
      cases ht : ofLeaf m (g.tables m) (g.aliases m) i with
      | none =>
        have hmem : i ∈ missing m (ofLeaf m (g.tables m) (g.aliases m)) :=
          List.mem_filter.mpr ⟨List.mem_range.mpr hi, by simp [hp, ht]⟩
        rw [hmiss] at hmem
        cases hmem
      | some t =>
        rw [certMove_run hp ht (ofLeaf_includes hg hwalk hp ht) hu hf]
        rfl
  obtain ⟨st', hst', heq⟩ := run_simulated hm hmove hw hst
  have hmem := run_mem_inv hinit (fun st hst => (hinv st hst).1) hw hst'
  have hgood := (hinv st' hmem).2
  unfold Model.isBad at hgood ⊢
  rw [← heq]
  exact hgood

/-- A document the checker accepts proves the property of the model it was checked
on, if no leaf is given a table that rejects one of its traces by an alias. -/
theorem certcheck_sound {bridge : List Datum → Except String Model} {forms items : List Datum}
    {out : List String} {m : Model} (hm : m.WF)
    (hselect : (gather forms).select = some items) (hbridge : bridge (items.drop 1) = .ok m)
    (halias : (gather forms).AliasesIncluded m) (h : certcheck bridge forms = .ok (0, out)) :
    ∀ st, m.Reachable st → m.isBad st = false := by
  unfold certcheck at h
  simp only [hselect, hbridge, Except.ok.injEq] at h
  exact checkModel_sound hm halias (congrArg Prod.fst h)

/-- A counter behind a gate. The leaf `a` never fires its letter; the gate `b` has an
alphabet of the same size, and fires its own when it is open. -/
def gatedCounter (opened : Bool) : Model where
  leaves := [⟨2, 1, [some 1, none], [0, 1]⟩, ⟨1, 1, [none], [0]⟩,
    ⟨1, 1, [if opened then some 0 else none], [0]⟩]
  leafNames := ["x", "a", "b"]
  events := [⟨"go", [(0, 0), (2, 0)]⟩, ⟨"never", [(1, 0)]⟩]
  mon := ⟨2, 2, [some 1, some 0, none, some 1], [false, true]⟩
  propLeaves := [0]
  monitorValues := [[0], [1]]
  propertyText := "(== x 1)"

/-- A table for `a` that allows nothing, taken for `b` as well. -/
def aliasedGate : List Datum :=
  let a (text : String) : Datum := .atom text 1
  [.list [a "certificate", .list [a "select", .list [a "==", a "x", a "1"] 1] 1] 1,
   .list [a "classifier", a "a", a "2", a "1", .list [a "a", a "0", a "0", a "1"] 1,
      .list [a "a", a "1", a "0", a "1"] 1] 1,
   .list [a "use", a "b", a "a"] 1,
   .list [a "inv", .list [a "x", a "0"] 1, .list [a "a", a "0"] 1, .list [a "b", a "0"] 1] 1]

theorem gatedCounter_wf (opened : Bool) : (gatedCounter opened).WF where
  leaves := by
    refine List.forall_mem_cons.mpr ⟨?_, List.forall_mem_cons.mpr
      ⟨?_, List.forall_mem_singleton.mpr ?_⟩⟩
    · exact ⟨by decide, by decide, by simp, by decide⟩
    · exact ⟨by decide, by decide, by simp, by decide⟩
    · refine ⟨Nat.one_pos, rfl, ?_, rfl⟩
      cases opened with
      | true => simp
      | false => simp
  events := List.forall_mem_cons.mpr ⟨⟨by decide, by decide +revert, by decide +revert⟩,
    List.forall_mem_singleton.mpr ⟨by decide, by decide +revert, by decide +revert⟩⟩
  count := rfl
  props := by decide +revert
  monitor := ⟨by decide +revert, by simp [gatedCounter], by decide +revert⟩
  exact := ⟨[[0], [1]], rfl, rfl, by decide +revert⟩

theorem certcheck_sound_gatedCounter :
    (∃ out, certcheck (fun _ => .ok (gatedCounter false)) aliasedGate = .ok (0, out)) ∧
    ∀ st, (gatedCounter false).Reachable st → (gatedCounter false).isBad st = false := by
  have haliases : (gather aliasedGate).aliases (gatedCounter false) =
      [(2, ⟨2, some 1, 1, [1, 1]⟩)] := by decide +kernel
  have hincluded : (gather aliasedGate).AliasesIncluded (gatedCounter false) := by
    intro i t _ _ ht
    rw [haliases] at ht
    by_cases hi : i = 2
    · subst hi
      cases ht
      exact includes_of_inclusionWalk (by decide)
    · rw [List.lookup_cons, beq_eq_false_iff_ne.mpr hi] at ht
      cases ht
  have hzero : ∃ out, certcheck (fun _ => .ok (gatedCounter false)) aliasedGate = .ok (0, out) :=
    ⟨_, congrArg Except.ok (Prod.ext (by decide +kernel) rfl)⟩
  obtain ⟨out, hout⟩ := hzero
  exact ⟨⟨out, hout⟩, certcheck_sound (gatedCounter_wf false) rfl rfl hincluded hout⟩

/-- The same document is accepted when the gate is open and the counter moves: no
walk compares the alias with its leaf. -/
theorem certcheck_accepts_open_gate :
    (gatedCounter true).WF ∧
    (∃ out, certcheck (fun _ => .ok (gatedCounter true)) aliasedGate = .ok (0, out)) ∧
    ∃ st, (gatedCounter true).Reachable st ∧ (gatedCounter true).isBad st = true := by
  refine ⟨gatedCounter_wf true, ⟨_, congrArg Except.ok (Prod.ext (by decide +kernel) rfl)⟩,
    [1, 1, 0, 0], ⟨[0], by decide, ?_⟩, by decide⟩
  decide

end LibHSC.Cegar
