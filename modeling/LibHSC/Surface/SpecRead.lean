import LibHSC.Surface.XplBuild

/-!
Reading the declarations of a specification: leaves, arrays, the shape flattened to
the frontier, the init, the events, the families instantiated. Every other form is
skipped. An item that a form does not have is read as an empty atom.
-/

namespace LibHSC.Surface

/-- The insertion of an ordered map: the entries ascend by their names. -/
def mapInsert {α : Type} (name : String) (v : α) : List (String × α) → List (String × α)
  | [] => [(name, v)]
  | (k, w) :: rest =>
    if name = k then (name, v) :: rest
    else if name < k then (name, v) :: (k, w) :: rest
    else (k, w) :: mapInsert name v rest

def Datum.item (d : Datum) (i : Nat) : Datum := d.items.getD i (.atom "" 0)

mutual

/-- The leaf names of a sort, left to right. -/
def flattenShape : Datum → Except BuildError (List String)
  | .atom text _ => .ok (if text = "unit" then [] else [text])
  | .list [] line => .error (.translate line "malformed sort")
  | .list (h :: ds) line =>
    let name := if h.isAtom then h.text else ""
    if name ≠ "pair" ∧ name ≠ "spine" ∧ name ≠ "balanced" then
      .error (.translate line ("unknown sort constructor '" ++ name ++ "'"))
    else flattenShapes ds

def flattenShapes : List Datum → Except BuildError (List String)
  | [] => .ok []
  | d :: ds => do return (← flattenShape d) ++ (← flattenShapes ds)

end

section Families

variable (cells : List (String × List String)) (i n : Int)

mutual

/-- Instance `i` of a family clause: `(at@ a k)` is the cell of component `i + k`. -/
def instantiate : Datum → Except BuildError Datum
  | .atom text line => .ok (.atom text line)
  | .list [] line => .ok (.list [] line)
  | .list (h :: ds) line =>
    if (Datum.list (h :: ds) line).head = "at@" then
      match cells.lookup ((Datum.list (h :: ds) line).item 1).text with
      | none => .error (.translate line "at@ names an unknown array")
      | some names =>
        let delta := (asInt ((Datum.list (h :: ds) line).item 2)).getD 0
        .ok (.atom (names.getD ((i + delta) % n).toNat "") line)
    else do return .list ((← instantiate h) :: (← instantiateAll ds)) line

def instantiateAll : List Datum → Except BuildError (List Datum)
  | [] => .ok []
  | d :: ds => do return (← instantiate d) :: (← instantiateAll ds)

end

end Families

/-- What is read so far: the leaves declared, the cells of the arrays, and the parts of
the specification. -/
structure Reading where
  declared : List (String × (Bool × Int × Int))
  arrayCells : List (String × List String)
  leaves : List (String × LeafInfo)
  order : List String
  events : List Source
  initPairs : List (Nat × Int)
  initEvent : List Datum

namespace Reading

def empty : Reading := ⟨[], [], [], [], [], [], []⟩

variable (r : Reading)

def readLeaf (f : Datum) : Except BuildError Reading := do
  if f.items.length > 2 then
    let lo ← asValue (f.item 2) "lower bound"
    let hi ← asValue (f.item 3) "upper bound"
    return { r with declared := mapInsert (f.item 1).text (true, lo, hi) r.declared }
  else return { r with declared := mapInsert (f.item 1).text (false, 0, 0) r.declared }

def readArray (f : Datum) : Reading :=
  { r with arrayCells := mapInsert (f.item 1).text ((f.items.drop 2).map Datum.text) r.arrayCells }

/-- The leaves of the frontier from position `p` on take their places. -/
def place (f : Datum) : List String → Nat → List (String × LeafInfo) →
    Except BuildError (List (String × LeafInfo))
  | [], _, leaves => .ok leaves
  | name :: names, p, leaves =>
    match r.declared.lookup name with
    | none => .error (.translate f.line ("shape names undeclared leaf '" ++ name ++ "'"))
    | some (bounded, lo, hi) => place f names (p + 1) (mapInsert name ⟨p, bounded, lo, hi⟩ leaves)

def readShape (f : Datum) : Except BuildError Reading := do
  let names ← flattenShape (f.item 1)
  let order := r.order ++ names
  return { r with order := order, leaves := ← r.place f order 0 r.leaves }

/-- Every item a pair whose first is a placed leaf. -/
def isPairInit (f : Datum) : Bool :=
  decide (f.items.length > 1) && f.items.tail.all fun it =>
    !it.isAtom && decide (it.items.length = 2) && (it.item 0).isAtom &&
      (r.leaves.lookup (it.item 0).text).isSome

def readPairs : List Datum → Except BuildError (List (Nat × Int))
  | [] => .ok []
  | it :: its => do
      let v ← asValue (it.item 1) "init value"
      return (((r.leaves.lookup (it.item 0).text).map LeafInfo.pos).getD 0, v) :: (← readPairs its)

def readInit (f : Datum) : Except BuildError Reading := do
  if r.isPairInit f then
    return { r with initPairs := r.initPairs ++ (← r.readPairs f.items.tail) }
  else if f.items.length = 2 then
    let ev := f.item 1
    if ev.isAtom ∨ (ev.head ≠ "when" ∧ ev.head ≠ "do" ∧ ev.head ≠ "seq") then
      fail f "init event beyond when/do/seq: unsupported for analysis"
    else if ev.head = "seq" then return { r with initEvent := r.initEvent ++ ev.items.tail }
    else return { r with initEvent := r.initEvent ++ [ev] }
  else return r

def readFamily (f : Datum) : Except BuildError Reading := do
  let n ← asValue (f.item 2) "family size"
  let insts ← (List.range n.toNat).mapM fun i => do
    let clauses ← instantiateAll r.arrayCells i n (f.items.drop 3)
    return Source.mk ((f.item 1).text ++ "_" ++ toString i) f.line clauses
  return { r with events := r.events ++ insts }

/-- One form; a command is skipped. -/
def readForm (f : Datum) : Except BuildError Reading :=
  if f.head = "leaf" then r.readLeaf f
  else if f.head = "array" then .ok (r.readArray f)
  else if f.head = "shape" then r.readShape f
  else if f.head = "init" then r.readInit f
  else if f.head = "event" then
    .ok { r with events := r.events ++ [⟨(f.item 1).text, f.line, f.items.drop 2⟩] }
  else if f.head = "family" then r.readFamily f
  else .ok r

def readAll (r : Reading) : List Datum → Except BuildError Reading
  | [] => .ok r
  | f :: fs => do readAll (← r.readForm f) fs

/-- The arrays whose cells are placed. -/
def arrays : List (String × List Nat) :=
  r.arrayCells.filterMap fun x =>
    match x.2.filterMap fun cell => (r.leaves.lookup cell).map LeafInfo.pos with
    | [] => none
    | ps => some (x.1, ps)

/-- The places of the leaves lie on the frontier. -/
def Placed : Prop := ∀ x ∈ r.leaves, x.2.pos < r.order.length

end Reading

/-! ## The frontier -/

theorem mem_mapInsert {α : Type} {name : String} {v : α} {m : List (String × α)}
    {x : String × α} (h : x ∈ mapInsert name v m) : x = (name, v) ∨ x ∈ m := by
  induction m with
  | nil => exact .inl (List.mem_singleton.mp h)
  | cons y m ih =>
    obtain ⟨k, w⟩ := y
    rw [mapInsert] at h
    split at h
    · rcases List.mem_cons.mp h with rfl | h
      · exact .inl rfl
      · exact .inr (List.mem_cons_of_mem _ h)
    · split at h
      · exact List.mem_cons.mp h
      · rcases List.mem_cons.mp h with rfl | h
        · exact .inr List.mem_cons_self
        · exact (ih h).imp_right (List.mem_cons_of_mem _)

namespace Reading

variable {r r' : Reading} {f : Datum}

theorem place_placed : ∀ {names : List String} {p : Nat} {leaves out : List (String × LeafInfo)}
    {n : Nat}, r.place f names p leaves = .ok out → p + names.length ≤ n →
    (∀ x ∈ leaves, x.2.pos < n) → ∀ x ∈ out, x.2.pos < n := by
  intro names
  induction names with
  | nil =>
    intro p leaves out n h _ hl
    cases h
    exact hl
  | cons name names ih =>
    intro p leaves out n h hp hl
    unfold place at h
    rw [List.length_cons] at hp
    split at h
    · cases h
    · refine ih h (by omega) fun x hx => ?_
      rcases mem_mapInsert hx with rfl | hx
      · show p < n
        omega
      · exact hl x hx

/-- A form leaves the frontier as it is, unless it is a shape. -/
theorem readForm_frontier (h : r.readForm f = .ok r') :
    (r'.leaves = r.leaves ∧ r'.order = r.order) ∨
      ∃ names, r'.order = r.order ++ names ∧ r.place f r'.order 0 r.leaves = .ok r'.leaves := by
  unfold readForm at h
  split at h
  · unfold readLeaf at h
    split at h
    · obtain ⟨lo, -, h⟩ := bind_eq_ok.mp h
      obtain ⟨hi, -, h⟩ := bind_eq_ok.mp h
      cases h
      exact .inl ⟨rfl, rfl⟩
    · cases h
      exact .inl ⟨rfl, rfl⟩
  · split at h
    · cases h
      exact .inl ⟨rfl, rfl⟩
    · split at h
      · obtain ⟨names, -, h⟩ := bind_eq_ok.mp h
        obtain ⟨leaves, hl, h⟩ := bind_eq_ok.mp h
        cases h
        exact .inr ⟨names, rfl, hl⟩
      · split at h
        · unfold readInit at h
          split at h
          · obtain ⟨ps, -, h⟩ := bind_eq_ok.mp h
            cases h
            exact .inl ⟨rfl, rfl⟩
          · split at h
            · dsimp only at h
              split at h
              · cases h
              · split at h
                · cases h
                  exact .inl ⟨rfl, rfl⟩
                · cases h
                  exact .inl ⟨rfl, rfl⟩
            · cases h
              exact .inl ⟨rfl, rfl⟩
        · split at h
          · cases h
            exact .inl ⟨rfl, rfl⟩
          · split at h
            · obtain ⟨n, -, h⟩ := bind_eq_ok.mp h
              obtain ⟨insts, -, h⟩ := bind_eq_ok.mp h
              cases h
              exact .inl ⟨rfl, rfl⟩
            · cases h
              exact .inl ⟨rfl, rfl⟩

theorem readForm_placed (h : r.readForm f = .ok r') (hr : r.Placed) : r'.Placed := by
  rcases readForm_frontier h with ⟨hl, ho⟩ | ⟨names, ho, hl⟩
  · intro x hx
    rw [ho]
    exact hr x (hl ▸ hx)
  · refine place_placed hl (by simp) fun x hx => ?_
    rw [ho, List.length_append]
    exact Nat.lt_add_right _ (hr x hx)

theorem readAll_placed : ∀ {forms : List Datum} {r r' : Reading}, readAll r forms = .ok r' →
    r.Placed → r'.Placed := by
  intro forms
  induction forms with
  | nil =>
    intro r r' h hr
    cases h
    exact hr
  | cons f forms ih =>
    intro r r' h hr
    obtain ⟨r₁, h₁, h⟩ := bind_eq_ok.mp h
    exact ih h (readForm_placed h₁ hr)

theorem empty_placed : empty.Placed := nofun

end Reading

/-- The declarations of the forms. -/
def Spec.read (forms : List Datum) : Except BuildError Spec :=
  match h : Reading.readAll .empty forms with
  | .error e => .error e
  | .ok r => .ok {
      leaves := r.leaves
      order := r.order
      arrays := r.arrays
      events := r.events
      initPairs := r.initPairs
      initEvent := r.initEvent
      placed := Reading.readAll_placed h Reading.empty_placed }

/-! ## Commands -/

/-- A form that declares nothing. -/
def isCommand (f : Datum) : Bool :=
  !(["leaf", "array", "shape", "init", "event", "family"].contains f.head)

theorem Reading.readForm_command {r : Reading} {f : Datum} (h : isCommand f = true) :
    r.readForm f = .ok r := by
  simp only [isCommand, List.contains_cons, List.contains_nil, Bool.or_false, Bool.not_eq_true',
    Bool.or_eq_false_iff, beq_eq_false_iff_ne] at h
  obtain ⟨h₁, h₂, h₃, h₄, h₅, h₆⟩ := h
  rw [readForm, if_neg h₁, if_neg h₂, if_neg h₃, if_neg h₄, if_neg h₅, if_neg h₆]

theorem Reading.readAll_append {forms forms' : List Datum} {r : Reading} :
    r.readAll (forms ++ forms') = r.readAll forms >>= fun r => r.readAll forms' := by
  induction forms generalizing r with
  | nil => rfl
  | cons f forms ih =>
    rw [List.cons_append, readAll, readAll]
    cases r.readForm f with
    | error e => rfl
    | ok r' => exact ih

theorem Reading.readAll_commands {forms : List Datum} {r : Reading}
    (h : ∀ f ∈ forms, isCommand f = true) : r.readAll forms = .ok r := by
  induction forms with
  | nil => rfl
  | cons f forms ih =>
    rw [readAll, readForm_command (h f List.mem_cons_self)]
    exact ih fun g hg => h g (List.mem_cons_of_mem _ hg)

theorem Spec.read_congr {forms forms' : List Datum}
    (h : Reading.empty.readAll forms = Reading.empty.readAll forms') :
    Spec.read forms = Spec.read forms' := by
  unfold Spec.read
  split
  · next e he =>
    split
    · next e' he' =>
      rw [h, he'] at he
      cases he
      rfl
    · next r' hr' =>
      rw [h, hr'] at he
      cases he
  · next r hr =>
    split
    · next e' he' =>
      rw [h, he'] at hr
      cases hr
    · next r' hr' =>
      rw [h, hr'] at hr
      cases hr
      rfl

/-- The commands that follow the model are no part of the specification. -/
theorem Spec.read_append_commands {forms cmds : List Datum} (h : ∀ f ∈ cmds, isCommand f = true) :
    Spec.read (forms ++ cmds) = Spec.read forms := by
  refine Spec.read_congr ?_
  rw [Reading.readAll_append]
  cases Reading.empty.readAll forms with
  | error e => rfl
  | ok r => exact Reading.readAll_commands h

end LibHSC.Surface
