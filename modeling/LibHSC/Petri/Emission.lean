import LibHSC.Petri.Spelled
import LibHSC.Petri.Effects

/-!
What the emitted text means to the explicit engine: the frontier is the places, the
first state the initial marking, and a step fires a transition. A firing that would
leave the machine range is no step.
-/

namespace LibHSC.Petri

open Surface Xpl Lia

/-! ## The forms of the text -/

def atom (s : String) : Datum := .atom s 0

def num (v : Int) : Datum := atom (toString v)

def list (head : String) (ds : List Datum) : Datum := .list (atom head :: ds) 0

section Forms

variable (net : SparsePetriNet) (opts : EmitOptions)

def leafForm (p : String) : Datum := list "leaf" [atom p, atom "0", num (leafBound net opts)]

def initForm : Datum := list "init" ((marked net).map fun x => .list [atom x.1, num x.2] 0)

def guardForm (e : Nat × Int) : Datum := list ">=" [atom (placeName net e.1), num e.2]

def actionForm (e : Nat × Int) : Datum :=
  if e.2 > 0 then list "+=" [atom (placeName net e.1), num e.2]
  else list "-=" [atom (placeName net e.1), num (-e.2)]

def eventForm (t : Nat) : Datum :=
  list "event" [atom (net.tnames.getD t ""), list "when" ((net.pre t).entries.map (guardForm net)),
    list "do" ((changes (net.pre t) (net.post t)).map (actionForm net))]

def examForms : Examination → List Datum
  | .stateSpace => [list "states" []]
  | .oneSafe => [list "reach" [atom "R", atom "saturate"], list "max-value" [atom "R"]]
  | .none => [list "reach" [atom "R", atom "saturate"], list "count" [atom "R"],
      list "nodes" [atom "R"], list "bill" []]
  | .modelOnly => []

end Forms

section Spelled

variable {net : SparsePetriNet} {units : UnitTree} {opts : EmitOptions}

theorem spells_token {s : String} (h : tokenText s = true) : Spells s (atom s) :=
  .atom (isToken_of_text h)

theorem spells_form {head : String} {kids : List String} {ds : List Datum}
    (hh : tokenText head = true) (h : List.Forall₂ Spells kids ds) :
    Spells (form head kids) (list head ds) := .form (isToken_of_text hh) h

theorem placeName_mem {p : Nat} (h : p < net.pnames.length) : placeName net p ∈ net.pnames := by
  rw [placeName, List.getD_eq_getElem _ _ h]
  exact List.getElem_mem h

theorem SparsePetriNet.Named.spells (hn : net.Named) {p : Nat} (h : p < net.pnames.length) :
    Spells (placeName net p) (atom (placeName net p)) :=
  .atom (hn.place _ (placeName_mem h)).token

theorem guardText_spells (hn : net.Named) {e : Nat × Int} (h : e.1 < net.pnames.length) :
    Spells (guardText net e) (guardForm net e) :=
  spells_form (by decide) (.cons (hn.spells h) (.cons (.num e.2) .nil))

theorem actionText_spells (hn : net.Named) {es : List (Nat × Int)}
    (h : ∀ e ∈ es, e.1 < net.pnames.length) :
    List.Forall₂ Spells (es.filterMap (actionText net))
      ((es.filter fun e => e.2 ≠ 0).map (actionForm net)) := by
  induction es with
  | nil => exact .nil
  | cons e es ih =>
    obtain ⟨he, hes⟩ := List.forall_mem_cons.mp h
    by_cases hpos : e.2 > 0
    · have hform : actionForm net e = list "+=" [atom (placeName net e.1), num e.2] := if_pos hpos
      have htext : actionText net e = some (form "+=" [placeName net e.1, toString e.2]) :=
        if_pos hpos
      rw [List.filterMap_cons_some htext, List.filter_cons_of_pos (by simpa using hpos.ne'),
        List.map_cons, hform]
      exact .cons (spells_form (by decide) (.cons (hn.spells he) (.cons (.num e.2) .nil))) (ih hes)
    · by_cases hneg : e.2 < 0
      · have hform : actionForm net e = list "-=" [atom (placeName net e.1), num (-e.2)] :=
          if_neg hpos
        have htext : actionText net e = some (form "-=" [placeName net e.1, toString (-e.2)]) := by
          rw [actionText, if_neg hpos, if_pos hneg]
        rw [List.filterMap_cons_some htext, List.filter_cons_of_pos (by simpa using hneg.ne),
          List.map_cons, hform]
        exact .cons (spells_form (by decide) (.cons (hn.spells he) (.cons (.num (-e.2)) .nil)))
          (ih hes)
      · have hzero : e.2 = 0 := by omega
        have htext : actionText net e = none := by
          rw [actionText, if_neg hpos, if_neg hneg]
        rw [List.filterMap_cons_none htext, List.filter_cons_of_neg (by simpa using hzero)]
        exact ih hes

theorem delta_place (hw : net.WF) {t : Nat} {e : Nat × Int}
    (h : e ∈ delta (net.pre t) (net.post t)) : e.1 < net.pnames.length := by
  rcases delta_key (List.mem_map_of_mem h) with hk | hk
  · obtain ⟨f, hf, hfe⟩ := List.mem_map.mp hk
    exact hfe ▸ (hw.pre_ok t).place f hf
  · obtain ⟨f, hf, hfe⟩ := List.mem_map.mp hk
    exact hfe ▸ (hw.post_ok t).place f hf

theorem forall₂_map_spells {α : Type} {f : α → String} {g : α → Datum} {xs : List α}
    (h : ∀ x ∈ xs, Spells (f x) (g x)) : List.Forall₂ Spells (xs.map f) (xs.map g) := by
  rw [List.forall₂_map_left_iff, List.forall₂_map_right_iff, List.forall₂_same]
  exact h

theorem eventLine_spells (hw : net.WF) (hn : net.Named) {t : Nat} (ht : t < net.tnames.length) :
    Spells (eventLine net t) (eventForm net t) := by
  have hname : IsToken (net.tnames.getD t "").toList := by
    rw [List.getD_eq_getElem _ _ ht]
    exact hn.transition _ (List.getElem_mem ht)
  have hwhen := spells_form (show tokenText "when" = true by decide)
    (forall₂_map_spells fun e he => guardText_spells hn ((hw.pre_ok t).place e he))
  have hdo := spells_form (show tokenText "do" = true by decide)
    (actionText_spells hn fun e he => delta_place (t := t) hw he)
  exact spells_form (by decide) (.cons (.atom hname) (.cons hwhen (.cons hdo .nil)))

theorem initLine_spells (hn : net.Named) : Spells (initLine net) (initForm net) := by
  refine spells_form (by decide) (forall₂_map_spells fun x hx => ?_)
  have hmem := List.of_mem_zip (List.mem_filter.mp hx).1
  exact .form (hn.place _ hmem.1).token (.cons (.num x.2) .nil)

theorem examLines_spell (e : Examination) : List.Forall₂ Spells (examLines e) (examForms e) := by
  have hone : ∀ {head : String}, tokenText head = true → Spells (form head []) (list head []) :=
    fun h => spells_form h .nil
  have hR : ∀ {head : String}, tokenText head = true →
      Spells (form head ["R"]) (list head [atom "R"]) :=
    fun h => spells_form h (.cons (spells_token (by decide)) .nil)
  have hreach : Spells (form "reach" ["R", "saturate"])
      (list "reach" [atom "R", atom "saturate"]) :=
    spells_form (by decide) (.cons (spells_token (by decide))
      (.cons (spells_token (by decide)) .nil))
  cases e with
  | none => exact .cons hreach (.cons (hR (by decide)) (.cons (hR (by decide))
      (.cons (hone (by decide)) .nil)))
  | modelOnly => exact .nil
  | stateSpace => exact .cons (hone (by decide)) .nil
  | oneSafe => exact .cons hreach (.cons (hR (by decide)) .nil)

theorem header_lines (hn : net.Named) {rest : List String} {ds : List Datum}
    (h : Lines rest ds) : Lines (header net units ++ rest) ds := by
  refine Lines.comment (by decide) (Lines.comment ?_ h)
  simp only [String.toList_append, List.mem_append, not_or]
  refine ⟨⟨⟨⟨⟨⟨⟨⟨by decide, hn.line⟩, by decide⟩, newline_notMem_toString _⟩, by decide⟩,
    newline_notMem_toString _⟩, by decide⟩, ?_⟩, by decide⟩
  split <;> decide

/-- The text of the net, line by line. -/
theorem toSurface_lines {fuel : Nat} (hw : net.WF) (hn : net.Named) (hne : net.pnames ≠ [])
    (h : ListsPlaces net units opts fuel) :
    ∃ lines d names, toSurface net units opts fuel = some lines ∧ flattenShape d = .ok names ∧
      names.Perm net.pnames ∧
      Lines lines (net.pnames.map (leafForm net opts) ++ list "shape" [d] :: initForm net ::
        ((emitted net opts).map (eventForm net) ++ examForms opts.exam)) := by
  obtain ⟨ls, d, names, hls, hflat, hperm, hshape⟩ := shapeLines_spec hn hne h
  refine ⟨_, d, names, by rw [toSurface, hls]; rfl, hflat, hperm, header_lines hn ?_⟩
  have hleaves : List.Forall₂ Spells (net.pnames.map (leafLine net opts))
      (net.pnames.map (leafForm net opts)) := forall₂_map_spells fun p hp =>
    spells_form (by decide) (.cons (.atom (hn.place p hp).token)
      (.cons (spells_token (by decide)) (.cons (.num _) .nil)))
  have hevents : List.Forall₂ Spells ((emitted net opts).map (eventLine net))
      ((emitted net opts).map (eventForm net)) := forall₂_map_spells fun t ht =>
    eventLine_spells hw hn (List.mem_range.mp (List.mem_filter.mp ht).1)
  have hexam := Lines.forms (examLines_spell opts.exam) .nil
  rw [List.append_nil, List.append_nil] at hexam
  exact Lines.forms hleaves (hshape _ _ (.cons (initLine_spells hn) (Lines.forms hevents hexam)))

end Spelled

end LibHSC.Petri
