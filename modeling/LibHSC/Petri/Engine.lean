import LibHSC.Petri.Emission

/-!
The forms of an emitted net in the explicit engine. A marking is the word of its tokens
on the frontier; the events fire the transitions, one by one.
-/

namespace LibHSC.Petri

open Surface Xpl Lia PetriNets

/-! ## The forms, with their lines -/

section Read

variable {net : SparsePetriNet} {units : UnitTree} {opts : EmitOptions}

theorem erase_eq_atoms {xs : List Datum} {a b : String} :
    xs.map Datum.erase = [atom a, atom b] ↔ ∃ l l', xs = [.atom a l, .atom b l'] := by
  constructor
  · intro h
    obtain ⟨x, ys, rfl, hx, hys⟩ := map_erase_eq_cons.mp h
    obtain ⟨y, zs, rfl, hy, hzs⟩ := map_erase_eq_cons.mp hys
    obtain ⟨l, rfl⟩ := erase_eq_atom.mp hx
    obtain ⟨l', rfl⟩ := erase_eq_atom.mp hy
    obtain rfl := List.map_eq_nil_iff.mp hzs
    exact ⟨l, l', rfl⟩
  · rintro ⟨l, l', rfl⟩
    rfl

/-- A form of a head and two atoms. -/
theorem erase_eq_triple {d : Datum} {head a b : String} :
    d.erase = list head [atom a, atom b] ↔
      ∃ l₁ l₂ l₃ l, d = .list [.atom head l₁, .atom a l₂, .atom b l₃] l := by
  rw [list, atom, erase_eq_form]
  constructor
  · rintro ⟨l₁, xs, l, rfl, h⟩
    obtain ⟨l₂, l₃, rfl⟩ := erase_eq_atoms.mp h
    exact ⟨l₁, l₂, l₃, l, rfl⟩
  · rintro ⟨l₁, l₂, l₃, l, rfl⟩
    exact ⟨l₁, _, l, rfl, rfl⟩

theorem isLeaf_of_erase {d : Datum} {p : String} (hb : InInt32 (leafBound net opts))
    (h : d.erase = leafForm net opts p) : IsLeaf d p := by
  obtain ⟨l, xs, n, rfl, hxs⟩ := erase_eq_form.mp h
  obtain ⟨x, ys, rfl, hx, hys⟩ := map_erase_eq_cons.mp hxs
  obtain ⟨l', rfl⟩ := erase_eq_atom.mp hx
  obtain ⟨l₁, l₂, rfl⟩ := erase_eq_atoms.mp hys
  have hzero : asInt (.atom "0" l₁) = some 0 := asInt_toString (v := 0) (by decide) l₁
  exact ⟨rfl, by simp [Datum.items], rfl, hzero, _, asInt_toString hb l₂⟩

theorem isPair_of_erase {d : Datum} {x : String × Int} (hx : InInt32 x.2)
    (h : d.erase = .list [atom x.1, num x.2] 0) : IsPair d x := by
  obtain ⟨xs, n, rfl, hxs⟩ := erase_eq_list.mp h
  obtain ⟨l, l', rfl⟩ := erase_eq_atoms.mp hxs
  exact ⟨rfl, rfl, rfl, rfl, asInt_toString hx l'⟩

/-- What an event form of transition `t` is, with its lines. -/
structure EventOf (net : SparsePetriNet) (t : Nat) (f : Datum) (atoms acts : List Datum) :
    Prop where
  event : IsEvent f atoms acts
  atoms : List.Forall₂ (fun d e => d.erase = guardForm net e) atoms (net.pre t).entries
  acts : List.Forall₂ (fun d e => d.erase = actionForm net e) acts
    (changes (net.pre t) (net.post t))

theorem eventOf_of_erase {f : Datum} {t : Nat} (h : f.erase = eventForm net t) :
    ∃ atoms acts, EventOf net t f atoms acts := by
  obtain ⟨l, xs, n, rfl, hxs⟩ := erase_eq_form.mp h
  obtain ⟨x, ys, rfl, -, hys⟩ := map_erase_eq_cons.mp hxs
  obtain ⟨cw, zs, rfl, hcw, hzs⟩ := map_erase_eq_cons.mp hys
  obtain ⟨cd, rest, rfl, hcd, hrest⟩ := map_erase_eq_cons.mp hzs
  obtain rfl := List.map_eq_nil_iff.mp hrest
  obtain ⟨lw, atoms, nw, rfl, hatoms⟩ := erase_eq_form.mp hcw
  obtain ⟨ld, acts, nd, rfl, hacts⟩ := erase_eq_form.mp hcd
  exact ⟨atoms, acts, ⟨rfl, _, _, rfl, ⟨rfl, rfl⟩, rfl, rfl⟩, map_erase_forall₂ hatoms,
    map_erase_forall₂ hacts⟩

mutual

theorem flattenShape_erase : (d : Datum) → ∀ {names : List String},
    flattenShape d.erase = .ok names → flattenShape d = .ok names
  | .atom text n, names, h => by
    rw [Datum.erase, flattenShape] at h
    rw [flattenShape, h]
  | .list [] n, names, h => by
    have herr : flattenShape (.list [] 0) = .error (.translate 0 "malformed sort") := rfl
    rw [Datum.erase, eraseItems, herr] at h
    cases h
  | .list (x :: ds) n, names, h => by
    rw [Datum.erase, eraseItems, flattenShape] at h
    rw [flattenShape]
    have hatom : x.erase.isAtom = x.isAtom := by cases x <;> rfl
    have htext : x.erase.text = x.text := by cases x <;> rfl
    simp only [hatom, htext] at h ⊢
    generalize (if x.isAtom = true then x.text else "") = name at h ⊢
    split at h
    · cases h
    · next hcon =>
      rw [if_neg hcon]
      exact flattenShapes_erase ds h

theorem flattenShapes_erase : (ds : List Datum) → ∀ {names : List String},
    flattenShapes (eraseItems ds) = .ok names → flattenShapes ds = .ok names
  | [], names, h => h
  | d :: ds, names, h => by
    rw [eraseItems, flattenShapes] at h
    obtain ⟨ns, hns, h⟩ := bind_eq_ok.mp h
    obtain ⟨rest, hrest, h⟩ := bind_eq_ok.mp h
    rw [flattenShapes, flattenShape_erase d hns, flattenShapes_erase ds hrest]
    exact h

end

/-- What the text of a net is read to. -/
structure Emits (net : SparsePetriNet) (opts : EmitOptions) (s : Spec) (names : List String)
    (events : List Datum) : Prop where
  perm : names.Perm net.pnames
  spec : EmittedSpec s names (marked net) events
  events : List.Forall₂ (fun f t => f.erase = eventForm net t) events (emitted net opts)

theorem leafBound_inInt32 (hw : net.WF) (hb : InInt32 opts.bound) :
    InInt32 (leafBound net opts) := by
  have hall : ∀ (ms : List Int) (b : Int), InInt32 b → (∀ m ∈ ms, 0 ≤ m ∧ InInt32 (m + 1)) →
      InInt32 (ms.foldl (fun b m => max b (m + 1)) b) := by
    intro ms
    induction ms with
    | nil => exact fun b hb _ => hb
    | cons m ms ih =>
      intro b hb hms
      obtain ⟨hm, hms⟩ := List.forall_mem_cons.mp hms
      refine ih _ ?_ hms
      show InInt32 (max b (m + 1))
      rcases max_choice b (m + 1) with h | h
      · rwa [h]
      · rw [h]
        exact hm.2
  exact hall _ _ hb hw.first

theorem marked_mem {x : String × Int} (hw : net.WF) (h : x ∈ marked net) :
    x.1 ∈ net.pnames ∧ InInt32 x.2 := by
  have hmem := List.of_mem_zip (List.mem_filter.mp h).1
  have := hw.first _ hmem.2
  refine ⟨hmem.1, ?_⟩
  unfold InInt32 at *
  omega

theorem isCommand_erase (d : Datum) : isCommand d.erase = isCommand d := by
  have hhead : d.erase.head = d.head := by
    cases d with
    | atom s n => rfl
    | list items n =>
      cases items with
      | nil => rfl
      | cons x xs => cases x <;> rfl
  rw [isCommand, isCommand, hhead]

theorem examForms_commands (e : Examination) : ∀ g ∈ examForms e, isCommand g = true := by
  cases e <;> simp [examForms, isCommand, list, atom, Datum.head, Datum.items]

theorem forall₂_and {α β : Type} {r : α → β → Prop} {P : β → Prop} {xs : List α} {ys : List β}
    (h : List.Forall₂ r xs ys) (hP : ∀ y ∈ ys, P y) :
    List.Forall₂ (fun x y => r x y ∧ P y) xs ys := by
  induction h with
  | nil => exact .nil
  | cons hxy _ ih =>
    obtain ⟨hy, hys⟩ := List.forall_mem_cons.mp hP
    exact .cons ⟨hxy, hy⟩ (ih hys)

theorem eventForms_rules {events : List Datum} {ts : List Nat}
    (h : List.Forall₂ (fun f t => f.erase = eventForm net t) events ts) :
    ∃ rules : List (List Datum × List Datum),
      List.Forall₂ (fun f x => IsEvent f x.1 x.2) events rules := by
  induction h with
  | nil => exact ⟨[], .nil⟩
  | cons hf _ ih =>
    obtain ⟨atoms, acts, hof⟩ := eventOf_of_erase hf
    obtain ⟨rules, hrules⟩ := ih
    exact ⟨(atoms, acts) :: rules, .cons hof.event hrules⟩

/-- The text is read: every place is a leaf, once. -/
theorem toSurface_read {fuel : Nat} (hw : net.WF) (hn : net.Named) (hne : net.pnames ≠ [])
    (hb : InInt32 opts.bound) (h : ListsPlaces net units opts fuel) :
    ∃ lines forms s names events, toSurface net units opts fuel = some lines ∧
      parse (ofLines lines).toList = .ok forms ∧ Spec.read forms = .ok s ∧
      Emits net opts s names events := by
  obtain ⟨lines, d, names, hlines, hflat, hperm, hreads⟩ := toSurface_lines hw hn hne h
  obtain ⟨forms, hparse, herase⟩ := hreads.parse
  obtain ⟨leaves, behind, rfl, hleaves, hbehind⟩ := List.map_eq_append_iff.mp herase
  obtain ⟨shape, behind', rfl, hshape, hbehind'⟩ := map_erase_eq_cons.mp hbehind
  obtain ⟨init, behind'', rfl, hinit, hbehind''⟩ := map_erase_eq_cons.mp hbehind'
  obtain ⟨events, cmds, rfl, hevents, hcmds⟩ := List.map_eq_append_iff.mp hbehind''
  have hisleaf : List.Forall₂ IsLeaf leaves net.pnames :=
    (map_erase_forall₂ hleaves).imp fun _ _ hd => isLeaf_of_erase (leafBound_inInt32 hw hb) hd
  obtain ⟨l, xs, n, rfl, hxs⟩ := erase_eq_form.mp hshape
  obtain ⟨sd, ys, rfl, hsd, -⟩ := map_erase_eq_cons.mp hxs
  obtain ⟨li, ps, ni, rfl, hps⟩ := erase_eq_form.mp hinit
  have hispair : List.Forall₂ IsPair ps (marked net) := by
    refine (forall₂_and (map_erase_forall₂ hps) fun x hx => (marked_mem hw hx).2).imp ?_
    exact fun d x hd => isPair_of_erase hd.2 hd.1
  have hev := map_erase_forall₂ hevents
  obtain ⟨rules, hrules⟩ := eventForms_rules hev
  have hcommand : ∀ f ∈ cmds, isCommand f = true := by
    intro f hf
    rw [← isCommand_erase]
    exact examForms_commands opts.exam _ (hcmds ▸ List.mem_map_of_mem hf)
  have hflat' : flattenShape sd = .ok names := flattenShape_erase sd (by rw [hsd, hflat])
  have hshape : (Datum.list (.atom "shape" l :: sd :: ys) n).head = "shape" := rfl
  have hinit : (Datum.list (.atom "init" li :: ps) ni).head = "init" := rfl
  obtain ⟨s, hs, hspec⟩ := Spec.read_emitted hisleaf hshape hflat'
    (hperm.nodup_iff.mpr hn.nodup) (fun p hp => hperm.mem_iff.mp hp) hinit hispair
    (fun x hx => hperm.mem_iff.mpr (marked_mem hw hx).1) hrules
  refine ⟨lines, _, s, names, events, hlines, hparse, ?_, hperm, hspec, hev⟩
  have hsplit : leaves ++ .list (.atom "shape" l :: sd :: ys) n ::
      .list (.atom "init" li :: ps) ni :: (events ++ cmds) =
      (leaves ++ .list (.atom "shape" l :: sd :: ys) n ::
        .list (.atom "init" li :: ps) ni :: events) ++ cmds := by simp
  rw [← hs, hsplit]
  exact Spec.read_append_commands hcommand

end Read

/-! ## Markings -/

/-- The tokens in the place of a name. -/
def tokens (net : SparsePetriNet) (m : Fin net.pnames.length → Int) (p : String) : Int :=
  if h : net.pnames.idxOf p < net.pnames.length then m ⟨_, h⟩ else 0

/-- A marking on the frontier. -/
def wordOf (net : SparsePetriNet) (names : List String) (m : Fin net.pnames.length → Int) :
    Xpl.Word := names.map (tokens net m)

/-- Where a place lies on the frontier. -/
def position (net : SparsePetriNet) (names : List String) (p : Nat) : Nat :=
  names.idxOf (placeName net p)

/-- The tokens are machine values. -/
def InRange {net : SparsePetriNet} (m : Fin net.pnames.length → Int) : Prop :=
  ∀ p, 0 ≤ m p ∧ InInt32 (m p)

section Markings

variable {net : SparsePetriNet} {names : List String} {m : Fin net.pnames.length → Int}
  (hnd : net.pnames.Nodup) (hperm : names.Perm net.pnames)

include hnd

theorem tokens_placeName (p : Fin net.pnames.length) : tokens net m (placeName net p) = m p := by
  have hidx : net.pnames.idxOf (placeName net p) = p := by
    rw [placeName, List.getD_eq_getElem _ _ p.isLt]
    exact hnd.idxOf_getElem p p.isLt
  unfold tokens
  simp [hidx]

include hperm

theorem wordOf_get (p : Fin net.pnames.length) :
    (wordOf net names m)[position net names p]? = some (m p) := by
  rw [wordOf, List.getElem?_map, position,
    List.getElem?_idxOf (hperm.mem_iff.mpr (placeName_mem p.isLt)), Option.map_some,
    tokens_placeName hnd]

theorem position_inj {p q : Fin net.pnames.length}
    (h : position net names p = position net names q) : p = q := by
  have hm := wordOf_get (m := fun r => if r = q then 1 else 0) hnd hperm p
  rw [h, wordOf_get hnd hperm q] at hm
  by_contra hne
  simp [hne] at hm

/-- Every position is the place of a name. -/
theorem exists_place {i : Nat} (hi : i < names.length) :
    ∃ p : Fin net.pnames.length, position net names p = i := by
  have hmem : names[i] ∈ net.pnames := hperm.mem_iff.mp (List.getElem_mem hi)
  have hlt := List.idxOf_lt_length_of_mem hmem
  refine ⟨⟨_, hlt⟩, ?_⟩
  have hname : placeName net (net.pnames.idxOf names[i]) = names[i] := by
    rw [placeName, List.getD_eq_getElem _ _ hlt]
    exact List.getElem_idxOf hlt
  rw [position, hname]
  exact (hperm.nodup_iff.mpr hnd).idxOf_getElem i hi

theorem word_ext {w w' : Xpl.Word} (hw : w.length = names.length) (hw' : w'.length = names.length)
    (h : ∀ p : Fin net.pnames.length, w[position net names p]? = w'[position net names p]?) :
    w = w' := by
  refine List.ext_getElem? fun i => ?_
  by_cases hi : i < names.length
  · obtain ⟨p, rfl⟩ := exists_place hnd hperm hi
    exact h p
  · rw [List.getElem?_eq_none (by omega), List.getElem?_eq_none (by omega)]

theorem wordOf_inj {m' : Fin net.pnames.length → Int}
    (h : wordOf net names m = wordOf net names m') : m = m' := by
  funext p
  have hp := wordOf_get (m := m) hnd hperm p
  rw [h, wordOf_get hnd hperm p] at hp
  exact (Option.some.inj hp).symm

end Markings

/-- The first state is the initial marking. -/
theorem Emits.base {net : SparsePetriNet} {opts : EmitOptions} {s : Spec} {names : List String}
    {events : List Datum} (h : Emits net opts s names events) (hw : net.WF)
    (hnd : net.pnames.Nodup) : s.base = wordOf net names net.initial := by
  have hzip : ((net.pnames.zip net.marks).map Prod.fst).Nodup := by
    rw [List.map_fst_zip (by rw [hw.marks])]
    exact hnd
  have hkeys : ((marked net).map Prod.fst).Nodup :=
    hzip.sublist (List.filter_sublist.map Prod.fst)
  rw [h.spec.base (h.perm.nodup_iff.mpr hnd) hkeys fun x hx =>
    h.perm.mem_iff.mpr (marked_mem hw hx).1]
  refine List.map_congr_left fun n hn => ?_
  have hmem := h.perm.mem_iff.mp hn
  have hlt := List.idxOf_lt_length_of_mem hmem
  have hlt' : net.pnames.idxOf n < net.marks.length := by rwa [hw.marks]
  have hin : (n, net.marks[net.pnames.idxOf n]) ∈ net.pnames.zip net.marks := by
    refine List.mem_iff_getElem.mpr ⟨net.pnames.idxOf n, by simpa using ⟨hlt, hlt'⟩, ?_⟩
    simp
  have htok : tokens net net.initial n = net.marks[net.pnames.idxOf n] := by
    rw [tokens, dif_pos hlt, SparsePetriNet.initial, List.getD_eq_getElem _ _ hlt']
  rw [htok]
  by_cases hzero : net.marks[net.pnames.idxOf n] = 0
  · have hnone : (marked net).lookup n = none := by
      refine List.lookup_eq_none_iff.mpr fun y hy => bne_iff_ne.mpr ?_
      rintro rfl
      obtain ⟨hy, hne⟩ := List.mem_filter.mp hy
      have h1 := (lookup_iff_mem hzip).mpr hy
      rw [(lookup_iff_mem hzip).mpr hin] at h1
      have h2 := Option.some.inj h1
      simp [← h2, hzero] at hne
    rw [hnone, hzero]
    rfl
  · have hmem : (n, net.marks[net.pnames.idxOf n]) ∈ marked net :=
      List.mem_filter.mpr ⟨hin, by simpa using hzero⟩
    rw [(lookup_iff_mem hkeys).mpr hmem]
    rfl

end LibHSC.Petri
