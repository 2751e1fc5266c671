import LibHSC.Surface.CegarExact
import LibHSC.Surface.Numerals
import LibHSC.Surface.SpecRead
import LibHSC.Xpl.Guards

/-!
What a model text of the simplest kind reads to: leaves with the lower bound zero,
one shape, an init that lists values, and events of one `when` and one `do` whose
guards are plain. The frontier is the shape's, the base word the listed values, and
an event moves a word where its guards hold.
-/

namespace LibHSC.Surface

open Lia hiding Reading

open Xpl

theorem lookup_cons_ite {α : Type} (k j : String) (w : α) (m : List (String × α)) :
    ((j, w) :: m).lookup k = if k = j then some w else m.lookup k := by
  rw [List.lookup_cons]
  by_cases h : k = j
  · simp [h]
  · have hb : (k == j) = false := by simpa using h
    rw [hb, if_neg h]

theorem lookup_mapInsert {α : Type} (name : String) (v : α) (m : List (String × α)) (k : String) :
    (mapInsert name v m).lookup k = if k = name then some v else m.lookup k := by
  induction m with
  | nil => rw [mapInsert, lookup_cons_ite]
  | cons x m ih =>
    obtain ⟨j, w⟩ := x
    rw [mapInsert, lookup_cons_ite]
    split
    · next hj =>
      rw [lookup_cons_ite, ← hj]
      split
      · rfl
      · rfl
    · next hj =>
      split
      · rw [lookup_cons_ite, lookup_cons_ite]
      · rw [lookup_cons_ite, ih]
        by_cases h : k = j
        · have hne : k ≠ name := fun hk => hj (hk.symm.trans h)
          rw [if_pos h, if_neg hne, if_pos h]
        · rw [if_neg h, if_neg h]

/-! ## Declarations -/

/-- A leaf form with the lower bound zero. -/
structure IsLeaf (f : Datum) (name : String) : Prop where
  head : f.head = "leaf"
  length : 2 < f.items.length
  name : (f.item 1).text = name
  lo : asInt (f.item 2) = some 0
  hi : ∃ hi, asInt (f.item 3) = some hi

/-- A pair of an init form. -/
structure IsPair (d : Datum) (x : String × Int) : Prop where
  list : d.isAtom = false
  length : d.items.length = 2
  atom : (d.item 0).isAtom = true
  name : (d.item 0).text = x.1
  value : asInt (d.item 1) = some x.2

/-- An event form of one `when` and one `do`. -/
structure IsEvent (f : Datum) (atoms acts : List Datum) : Prop where
  head : f.head = "event"
  clauses : ∃ cw cd, f.items.drop 2 = [cw, cd] ∧
    (cw.head = "when" ∧ cw.items.tail = atoms) ∧ cd.head = "do" ∧ cd.items.tail = acts

/-- The event of a form. -/
def sourceOf (f : Datum) : Source := ⟨(f.item 1).text, f.line, f.items.drop 2⟩

theorem asValue_eq_ok {d : Datum} {what : String} {v : Int} (h : asInt d = some v) :
    asValue d what = .ok v := by
  have hatom : d.isAtom = true := by
    cases d with
    | atom t n => rfl
    | list xs n => cases h
  rw [asValue, if_pos hatom, h]

namespace Reading

variable {r : Reading}

theorem readForm_leaf {f : Datum} {name : String} (h : IsLeaf f name) :
    ∃ hi, r.readForm f = .ok { r with declared := mapInsert name (true, 0, hi) r.declared } := by
  obtain ⟨hi, hhi⟩ := h.hi
  refine ⟨hi, ?_⟩
  rw [readForm, if_pos h.head, readLeaf, if_pos h.length, asValue_eq_ok h.lo,
    asValue_eq_ok hhi, h.name]
  rfl

/-- The leaf forms: every name is declared, with the lower bound zero. -/
theorem readAll_leaves {forms : List Datum} {names : List String}
    (h : List.Forall₂ IsLeaf forms names) : ∀ r : Reading, ∃ declared,
      r.readAll forms = .ok { r with declared := declared } ∧
      ∀ n, (n ∈ names → ∃ hi, declared.lookup n = some (true, 0, hi)) ∧
        (n ∉ names → declared.lookup n = r.declared.lookup n) := by
  induction h with
  | nil => exact fun r => ⟨r.declared, rfl, fun n => ⟨nofun, fun _ => rfl⟩⟩
  | @cons f name forms names hf _ ih =>
    intro r
    obtain ⟨hi, hread⟩ := readForm_leaf (r := r) hf
    obtain ⟨declared, hrest, hlook⟩ := ih
      { r with declared := mapInsert name (true, 0, hi) r.declared }
    refine ⟨declared, ?_, fun n => ⟨fun hn => ?_, fun hn => ?_⟩⟩
    · rw [readAll, hread]
      exact hrest
    · by_cases hmem : n ∈ names
      · exact (hlook n).1 hmem
      · obtain rfl := (List.mem_cons.mp hn).resolve_right hmem
        refine ⟨hi, ?_⟩
        rw [(hlook n).2 hmem, lookup_mapInsert, if_pos rfl]
    · obtain ⟨hne, hmem⟩ := not_or.mp (mt List.mem_cons.mpr hn)
      rw [(hlook n).2 hmem, lookup_mapInsert, if_neg hne]

/-- The frontier takes its places in order. -/
theorem place_spec {f : Datum} : ∀ {names : List String} {p : Nat}
    {leaves : List (String × LeafInfo)}, names.Nodup →
    (∀ n ∈ names, ∃ hi, r.declared.lookup n = some (true, 0, hi)) →
    (∀ x ∈ leaves, x.2.lo = 0) →
    ∃ out, r.place f names p leaves = .ok out ∧
      (∀ i n, names[i]? = some n → ∃ hi, out.lookup n = some ⟨p + i, true, 0, hi⟩) ∧
      (∀ n, n ∉ names → out.lookup n = leaves.lookup n) ∧ ∀ x ∈ out, x.2.lo = 0 := by
  intro names
  induction names with
  | nil => exact fun _ _ hlo => ⟨_, rfl, nofun, fun _ _ => rfl, hlo⟩
  | cons name names ih =>
    intro p leaves hnd hdecl hlo
    obtain ⟨hname, hnd⟩ := List.nodup_cons.mp hnd
    obtain ⟨⟨hi, hhi⟩, hdecl⟩ := List.forall_mem_cons.mp hdecl
    obtain ⟨out, hout, hplaced, hother, hlo'⟩ := @ih (p + 1)
      (mapInsert name ⟨p, true, 0, hi⟩ leaves) hnd hdecl fun x hx => by
        rcases mem_mapInsert hx with rfl | hx
        · rfl
        · exact hlo x hx
    refine ⟨out, ?_, fun i n hn => ?_, fun n hn => ?_, hlo'⟩
    · rw [place, hhi]
      exact hout
    · cases i with
      | zero =>
        cases hn
        refine ⟨hi, ?_⟩
        rw [hother name hname, lookup_mapInsert, if_pos rfl, Nat.add_zero]
      | succ i =>
        obtain ⟨hi', hlook⟩ := hplaced i n hn
        exact ⟨hi', by rw [hlook, Nat.add_right_comm, Nat.add_assoc]⟩
    · obtain ⟨hne, hmem⟩ := not_or.mp (mt List.mem_cons.mpr hn)
      rw [hother n hmem, lookup_mapInsert, if_neg hne]

theorem readForm_event {f : Datum} {atoms acts : List Datum} (h : IsEvent f atoms acts) :
    r.readForm f = .ok { r with events := r.events ++ [sourceOf f] } := by
  rw [readForm, if_neg (by simp [h.head]), if_neg (by simp [h.head]), if_neg (by simp [h.head]),
    if_neg (by simp [h.head]), if_pos h.head]
  rfl

theorem readAll_events {forms : List Datum} {rules : List (List Datum × List Datum)}
    (h : List.Forall₂ (fun f x => IsEvent f x.1 x.2) forms rules) : ∀ r : Reading,
      r.readAll forms = .ok { r with events := r.events ++ forms.map sourceOf } := by
  induction h with
  | nil => exact fun r => by simp [readAll]
  | cons hf _ ih =>
    intro r
    rw [readAll, readForm_event hf]
    refine (ih _).trans ?_
    simp [sourceOf]

/-- The places of a frontier. -/
structure Places (names : List String) (leaves : List (String × LeafInfo)) : Prop where
  placed : ∀ i n, names[i]? = some n → ∃ hi, leaves.lookup n = some ⟨i, true, 0, hi⟩
  other : ∀ n, n ∉ names → leaves.lookup n = none
  lo : ∀ x ∈ leaves, x.2.lo = 0

theorem Places.position {names : List String} {leaves : List (String × LeafInfo)}
    (h : Places names leaves) {n : String} (hn : n ∈ names) :
    (leaves.lookup n).map LeafInfo.pos = some (names.idxOf n) := by
  obtain ⟨hi, hlook⟩ := h.placed (names.idxOf n) n (List.getElem?_idxOf hn)
  rw [hlook]
  rfl

theorem readForm_shape {f : Datum} {names : List String} (hhead : f.head = "shape")
    (hflat : flattenShape (f.item 1) = .ok names) (hnd : names.Nodup)
    (hdecl : ∀ n ∈ names, ∃ hi, r.declared.lookup n = some (true, 0, hi))
    (horder : r.order = []) (hleaves : r.leaves = []) :
    ∃ out, r.readForm f = .ok { r with order := names, leaves := out } ∧ Places names out := by
  obtain ⟨out, hout, hplaced, hother, hlo⟩ :=
    @place_spec r f names 0 [] hnd hdecl nofun
  refine ⟨out, ?_, ⟨fun i n hn => ?_, fun n hn => hother n hn, hlo⟩⟩
  · rw [readForm, if_neg (by simp [hhead]), if_neg (by simp [hhead]), if_pos hhead, readShape,
      hflat, horder, hleaves]
    simp only [List.nil_append, bind, Except.bind, hout]
    rfl
  · obtain ⟨hi, hlook⟩ := hplaced i n hn
    exact ⟨hi, by rw [hlook, Nat.zero_add]⟩

theorem readPairs_spec {names : List String} (hp : Places names r.leaves) {ds : List Datum}
    {pairs : List (String × Int)} (h : List.Forall₂ IsPair ds pairs) :
    (∀ x ∈ pairs, x.1 ∈ names) →
    r.readPairs ds = .ok (pairs.map fun x => (names.idxOf x.1, x.2)) := by
  induction h with
  | nil => exact fun _ => rfl
  | @cons d x ds pairs hd _ ih =>
    intro hmem
    obtain ⟨hx, hmem⟩ := List.forall_mem_cons.mp hmem
    rw [readPairs, asValue_eq_ok hd.value, ih hmem, hd.name, hp.position hx]
    rfl

theorem readForm_init {f : Datum} {names : List String} {pairs : List (String × Int)}
    (hp : Places names r.leaves) (hhead : f.head = "init")
    (hne : f.items ≠ []) (h : List.Forall₂ IsPair f.items.tail pairs)
    (hmem : ∀ x ∈ pairs, x.1 ∈ names) :
    r.readForm f = .ok { r with initPairs := r.initPairs ++
      (pairs.map fun x => (names.idxOf x.1, x.2)) } := by
  have hpairs : ∀ d ∈ f.items.tail, ∃ x ∈ pairs, IsPair d x := by
    intro d hd
    obtain ⟨x, hx, hdx⟩ := forall₂_mem_left h hd
    exact ⟨x, hx, hdx⟩
  have hall : (f.items.tail.all fun it =>
      !it.isAtom && decide (it.items.length = 2) && (it.item 0).isAtom &&
        (r.leaves.lookup (it.item 0).text).isSome) = true := by
    refine List.all_eq_true.mpr fun d hd => ?_
    obtain ⟨x, hx, hdx⟩ := hpairs d hd
    have hsome := hp.position (hmem x hx)
    rw [hdx.list, hdx.length, hdx.atom, hdx.name]
    cases hl : r.leaves.lookup x.1 with
    | none =>
      rw [hl] at hsome
      cases hsome
    | some l => rfl
  rw [readForm, if_neg (by simp [hhead]), if_neg (by simp [hhead]), if_neg (by simp [hhead]),
    if_pos hhead, readInit, isPairInit, hall, Bool.and_true]
  cases hitems : f.items with
  | nil => exact absurd hitems hne
  | cons x xs =>
    rw [hitems] at h
    cases xs with
    | nil =>
      cases h
      simp [pure, Except.pure]
    | cons y ys =>
      simp only [List.length_cons, gt_iff_lt, lt_add_iff_pos_left, Nat.zero_lt_succ,
        decide_true, if_true]
      rw [readPairs_spec hp h hmem]
      rfl

end Reading

/-! ## The specification of an emitted model -/

/-- What an emitted model declares: the frontier `names`, no array, the base word of the
listed values, the events in order. -/
structure EmittedSpec (s : Spec) (names : List String) (pairs : List (String × Int))
    (events : List Datum) : Prop where
  order : s.order = names
  places : Reading.Places names s.leaves
  arrays : s.arrays = []
  events : s.events = events.map sourceOf
  inits : s.initPairs = pairs.map fun x => (names.idxOf x.1, x.2)
  noInitEvent : s.initEvent = []

/-- The text reads: leaves, shape, init, events. -/
theorem Spec.read_emitted {leaves events : List Datum} {shape init : Datum}
    {declared names : List String} {pairs : List (String × Int)}
    {rules : List (List Datum × List Datum)} (hleaves : List.Forall₂ IsLeaf leaves declared)
    (hshape : shape.head = "shape") (hflat : flattenShape (shape.item 1) = .ok names)
    (hnd : names.Nodup) (hdecl : ∀ n ∈ names, n ∈ declared) (hinit : init.head = "init")
    (hpairs : List.Forall₂ IsPair init.items.tail pairs) (hmem : ∀ x ∈ pairs, x.1 ∈ names)
    (hevents : List.Forall₂ (fun f x => IsEvent f x.1 x.2) events rules) :
    ∃ s, Spec.read (leaves ++ shape :: init :: events) = .ok s ∧
      EmittedSpec s names pairs events := by
  have hne : init.items ≠ [] := by
    intro h
    simp [Datum.head, h] at hinit
  obtain ⟨decls, hread, hlook⟩ := Reading.readAll_leaves hleaves .empty
  obtain ⟨out, hshaped, hplaces⟩ := Reading.readForm_shape
    (r := { Reading.empty with declared := decls }) hshape hflat hnd
    (fun n hn => (hlook n).1 (hdecl n hn)) rfl rfl
  have hinits := Reading.readForm_init
    (r := { Reading.empty with declared := decls, order := names, leaves := out }) hplaces
    hinit hne hpairs hmem
  have hall : Reading.empty.readAll (leaves ++ shape :: init :: events) = .ok { Reading.empty with
        declared := decls, order := names, leaves := out,
        initPairs := pairs.map fun x => (names.idxOf x.1, x.2),
        events := events.map sourceOf } := by
    rw [Reading.readAll_append, hread]
    show Reading.readAll _ _ = _
    rw [Reading.readAll, hshaped]
    show Reading.readAll _ _ = _
    rw [Reading.readAll, hinits]
    exact Reading.readAll_events hevents _
  unfold Spec.read
  split
  · next e he =>
    rw [hall] at he
    cases he
  · next r hr =>
    rw [hall] at hr
    cases hr
    exact ⟨_, rfl, ⟨rfl, hplaces, rfl, rfl, rfl, rfl⟩⟩

theorem map_set_idxOf {names : List String} (hnd : names.Nodup) {m : String} (hm : m ∈ names)
    (g : String → Int) (v : Int) :
    (names.map g).set (names.idxOf m) v = names.map fun n => if n = m then v else g n := by
  refine List.ext_getElem? fun i => ?_
  by_cases hi : i = names.idxOf m
  · subst hi
    have hlt := List.idxOf_lt_length_of_mem hm
    rw [List.getElem?_set_self (by simpa using hlt), List.getElem?_map, List.getElem?_idxOf hm]
    simp
  · rw [List.getElem?_set_ne (Ne.symm hi), List.getElem?_map, List.getElem?_map]
    cases hn : names[i]? with
    | none => rfl
    | some n =>
      have hne : n ≠ m := by
        rintro rfl
        refine hi ?_
        obtain ⟨hlt, hget⟩ := List.getElem?_eq_some_iff.mp hn
        rw [← hget]
        exact (hnd.idxOf_getElem i hlt).symm
      simp [hne]

/-- The values of a list of names, written at their places. -/
theorem foldl_set_pairs {names : List String} (hnd : names.Nodup) {pairs : List (String × Int)} :
    ∀ g : String → Int, (pairs.map Prod.fst).Nodup → (∀ x ∈ pairs, x.1 ∈ names) →
    (pairs.map fun x => (names.idxOf x.1, x.2)).foldl (fun w x => w.set x.1 x.2) (names.map g) =
      names.map fun n => (pairs.lookup n).getD (g n) := by
  induction pairs with
  | nil => exact fun _ _ _ => rfl
  | cons x pairs ih =>
    intro g hpairs hmem
    obtain ⟨hx, hpairs⟩ := List.nodup_cons.mp hpairs
    obtain ⟨hxn, hmem⟩ := List.forall_mem_cons.mp hmem
    rw [List.map_cons, List.foldl_cons, map_set_idxOf hnd hxn, ih _ hpairs hmem]
    refine List.map_congr_left fun n _ => ?_
    rw [lookup_cons_ite]
    by_cases hn : n = x.1
    · have hnone : pairs.lookup n = none := by
        refine List.lookup_eq_none_iff.mpr fun y hy => ?_
        refine bne_iff_ne.mpr fun he : n = y.1 => hx ?_
        rw [← hn, he]
        exact List.mem_map_of_mem hy
      rw [if_pos hn, hnone, if_pos hn]
      rfl
    · rw [if_neg hn, if_neg hn]

section Emitted

variable {s : Spec} {names : List String} {pairs : List (String × Int)} {events : List Datum}
  (hs : EmittedSpec s names pairs events)

include hs

theorem EmittedSpec.position {n : String} (hn : n ∈ names) :
    s.scope.position n = some (names.idxOf n) := hs.places.position hn

theorem EmittedSpec.seeds (R : ExprIds) : s.seeds R = .ok [s.base] := by
  rw [Spec.seeds, hs.noInitEvent]
  rfl

/-- The base word holds the listed values, and zero elsewhere. -/
theorem EmittedSpec.base (hnd : names.Nodup) (hpairs : (pairs.map Prod.fst).Nodup)
    (hmem : ∀ x ∈ pairs, x.1 ∈ names) :
    s.base = names.map fun n => (pairs.lookup n).getD 0 := by
  have hzero : ∀ (xs : List (String × LeafInfo)), (∀ x ∈ xs, x.2.lo = 0) →
      xs.foldl (fun w x => if x.2.bounded then w.set x.2.pos x.2.lo else w)
        (List.replicate names.length 0) = List.replicate names.length 0 := by
    intro xs
    induction xs with
    | nil => exact fun _ => rfl
    | cons x xs ih =>
      intro hlo
      obtain ⟨hx, hlo⟩ := List.forall_mem_cons.mp hlo
      rw [List.foldl_cons, hx, List.set_replicate_self, ite_self]
      exact ih hlo
  have hstart : List.replicate names.length (0 : Int) = names.map fun _ => 0 :=
    (List.map_const' ..).symm
  unfold Spec.base
  rw [hs.order, hzero _ hs.places.lo, hs.inits, hstart]
  exact foldl_set_pairs hnd _ hpairs hmem

end Emitted

/-! ## The events -/

/-- Guards and assignments of an event form, read in a scope. An assignment reads the leaf it
writes and no other. -/
structure ReadsTo (R : ExprIds) (sc : Scope) (atoms acts : List Datum) (guards : List BExpr)
    (writes : List (Nat × IExpr)) : Prop where
  guards : List.Forall₂ (fun d b => readBool R sc d = .ok b) atoms guards
  acts : acts.mapM (readAction R sc) = .ok (writes.map assignOf)
  nodup : (writes.map Prod.fst).Nodup
  alone : ∀ x ∈ writes, x.2.Within (· = x.1) NoCell

/-- One event of the explicit engine takes a state to another. -/
def Fires (evt : Xpl.Event) (w t : Xpl.Word) : Prop :=
  ∃ bs, Xpl.interp evt.root [⟨w, []⟩] = .ok bs ∧ ∃ b ∈ bs, b.s = t

section Events

variable {R : ExprIds} {sc : Scope}

theorem hoist_spec {atoms : List Datum} {guards : List BExpr}
    (h : List.Forall₂ (fun d b => readBool R sc d = .ok b) atoms guards) : ∀ guard : BExpr,
    ∃ guard', hoist R sc atoms guard = .ok guard' ∧ ∀ w, Xpl.evalBool w guard' = .ok .yes ↔
      Xpl.evalBool w guard = .ok .yes ∧ ∀ b ∈ guards, Xpl.evalBool w b = .ok .yes := by
  induction h with
  | nil => exact fun guard => ⟨guard, rfl, fun w => by simp⟩
  | @cons d b atoms guards hd _ ih =>
    intro guard
    obtain ⟨guard', hread, hyes⟩ := ih (conj R guard b)
    refine ⟨guard', ?_, fun w => ?_⟩
    · rw [hoist, hd]
      exact hread
    · rw [hyes w, evalBool_conj, List.forall_mem_cons, and_assoc]

/-- An emitted event fires where its guards hold, and then makes its assignments. -/
theorem buildEvent_emitted {f : Datum} {atoms acts : List Datum} {guards : List BExpr}
    {writes : List (Nat × IExpr)} (hf : IsEvent f atoms acts)
    (h : ReadsTo R sc atoms acts guards writes) :
    ∃ evt, buildEvent R sc (sourceOf f) = .ok evt ∧ ∀ w t, Fires evt w t ↔
      (∀ b ∈ guards, Xpl.evalBool w b = .ok .yes) ∧ runAssigns writes w = .ok t := by
  obtain ⟨cw, cd, hclauses, ⟨hwhen, hatoms⟩, hdo, hacts⟩ := hf.clauses
  obtain ⟨guard, hguard, hyes⟩ := hoist_spec h.guards .btrue
  have hcw : ¬ cw.items.isEmpty = true := by
    intro he
    simp [Datum.head, List.isEmpty_iff.mp he] at hwhen
  have hcd : ¬ cd.items.isEmpty = true := by
    intro he
    simp [Datum.head, List.isEmpty_iff.mp he] at hdo
  have hread : readClauses R sc [cw, cd] .btrue [] =
      .ok (guard, [.update (writes.map assignOf)]) := by
    rw [readClauses, if_neg hcw, if_pos hwhen, hatoms, hguard]
    show readClauses R sc [cd] guard [] = _
    rw [readClauses, if_neg hcd, if_neg (by simp [hdo]), if_pos hdo, hacts, h.acts]
    rfl
  refine ⟨⟨(sourceOf f).name, (sourceOf f).line, rootOf guard [.update (writes.map assignOf)],
    guard⟩, ?_, fun w t => ?_⟩
  · rw [buildEvent]
    show (readClauses R sc (f.items.drop 2) .btrue [] >>= _) = _
    rw [hclauses, hread]
    rfl
  · have hfires := @interp_updates guard [writes] (List.forall_mem_singleton.mpr h.nodup)
      (List.forall_mem_singleton.mpr h.alone) w t
    rw [List.flatten_singleton, hyes w] at hfires
    refine hfires.trans (and_congr_left fun _ => ?_)
    simp [Xpl.evalBool]

/-- The step of an emitted model, event by event. -/
theorem EmittedSpec.next {s : Spec} {names : List String} {pairs : List (String × Int)}
    {events : List Datum} (hs : EmittedSpec s names pairs events)
    {P : Datum → Xpl.Word → Xpl.Word → Prop}
    (h : ∀ f ∈ events, ∃ evt, buildEvent R s.scope (sourceOf f) = .ok evt ∧
      ∀ w t, Fires evt w t ↔ P f w t) :
    ∃ x, s.xpl R = .ok x ∧ ∀ w t, x.Next w t ↔ ∃ f ∈ events, P f w t := by
  obtain ⟨evts, hevts⟩ := exists_mapM_ok (f := buildEvent R s.scope) (l := s.events)
    fun src hsrc => by
    rw [hs.events] at hsrc
    obtain ⟨f, hf, rfl⟩ := List.mem_map.mp hsrc
    obtain ⟨evt, hevt, -⟩ := h f hf
    exact ⟨evt, hevt⟩
  have hx : s.xpl R = .ok ⟨s.order.length, evts⟩ := by
    rw [Spec.xpl, buildXplModel, hevts]
    rfl
  refine ⟨_, hx, fun w t => ?_⟩
  have hall := buildXplModel_events hx
  rw [hs.events, List.forall₂_map_left_iff] at hall
  rw [next_iff]
  constructor
  · rintro ⟨evt, hevt, hfires⟩
    obtain ⟨f, hf, hbuild⟩ := forall₂_mem_right hall hevt
    obtain ⟨evt', hbuild', hiff⟩ := h f hf
    rw [hbuild] at hbuild'
    cases hbuild'
    exact ⟨f, hf, (hiff w t).mp hfires⟩
  · rintro ⟨f, hf, hP⟩
    obtain ⟨evt, hevt, hbuild⟩ := forall₂_mem_left hall hf
    obtain ⟨evt', hbuild', hiff⟩ := h f hf
    rw [hbuild] at hbuild'
    cases hbuild'
    exact ⟨evt, hevt, (hiff w t).mpr hP⟩

end Events

/-! ## Atoms over one leaf -/

/-- The name of a leaf: no numeral. -/
def IsSymbol (name : String) : Prop := ∀ line, asInt (.atom name line) = none

section Atoms

variable {R : ExprIds} {sc : Scope} {name : String} {p : Nat} {l l₁ l₂ l₃ : Int}

theorem readInt_symbol (hn : IsSymbol name) (hp : sc.position name = some p) :
    readInt R sc (.atom name l) = .ok (.var p) := by
  have hd : (Datum.atom name l).text = name := rfl
  rw [readInt, readAtom, hn l]
  simp only [hd, hp]

theorem readInt_numeral {v : Int} (hv : InInt32 v) :
    readInt R sc (.atom (toString v) l) = .ok (.const v) := by
  rw [readInt, readAtom, asInt_toString hv]

/-- A comparison of a leaf with a numeral. -/
theorem readBool_compare {op : String} {k : CmpOp} {v : Int} (hk : comparison op = some k)
    (hn : IsSymbol name) (hp : sc.position name = some p) (hv : InInt32 v) :
    readBool R sc (.list [.atom op l₁, .atom name l₂, .atom (toString v) l₃] l) =
      .ok (compare R k (.var p) (.const v)) := by
  have hhead : ∀ xs, (Datum.list (.atom op l₁ :: xs) l).head = op := fun _ => rfl
  have hbool : isBoolHead op = true := by simp [isBoolHead, hk]
  have hints : readInts R sc [.atom name l₂, .atom (toString v) l₃] =
      [.ok (.var p), .ok (.const v)] := by
    rw [readInts, readInts, readInts, readInt_symbol hn hp, readInt_numeral hv]
  rw [readBool]
  simp only [hhead, hbool, if_true, hints]
  unfold boolForm
  rw [hk]
  rfl

end Atoms

end LibHSC.Surface
