import LibHSC.Petri.ToSurface

/-!
The emitted text as data: every line is a comment or spells one form. The shape that is
printed lists every place once.
-/

namespace LibHSC.Petri

open Surface

/-! ## Shapes -/

theorem Spells.ne_empty {s : String} {d : Datum} (h : Spells s d) : s ≠ "" := by
  rintro rfl
  have hnil : ∀ text ds, Reads text ds → text = [] → ds = [] := by
    intro text ds h
    cases h with
    | done _ => simp
    | atom _ hw _ _ => simp [hw.1]
    | list _ _ _ => simp
  simpa using hnil _ _ h rfl

/-- The text spells a sort over these leaves. -/
def Sorts (text : String) (names : List String) : Prop :=
  ∃ d, Spells text d ∧ flattenShape d = .ok names

/-- A name that a text can carry and a shape does not drop. -/
structure IsName (p : String) : Prop where
  token : IsToken p.toList
  notUnit : p ≠ "unit"

theorem isSymbol_of_text {s : String} (h : asInt (.atom s 0) = none) : IsSymbol s := fun _ => h

theorem IsName.sorts {p : String} (h : IsName p) : Sorts p [p] :=
  ⟨_, .atom h.token, by rw [flattenShape, if_neg h.notUnit]⟩

theorem flattenShapes_sorts {kids : List String} {nss : List (List String)}
    (h : List.Forall₂ Sorts kids nss) :
    ∃ ds, List.Forall₂ Spells kids ds ∧ flattenShapes ds = .ok nss.flatten := by
  induction h with
  | nil => exact ⟨[], .nil, rfl⟩
  | cons hk _ ih =>
    obtain ⟨d, hd, hflat⟩ := hk
    obtain ⟨ds, hds, hflats⟩ := ih
    refine ⟨d :: ds, .cons hd hds, ?_⟩
    rw [flattenShapes, hflat, hflats]
    rfl

theorem isToken_spine : IsToken "spine".toList := isToken_of_text (by decide)

theorem spine_sorts {kids : List String} {nss : List (List String)}
    (h : List.Forall₂ Sorts kids nss) : Sorts (form "spine" kids) nss.flatten := by
  obtain ⟨ds, hds, hflat⟩ := flattenShapes_sorts h
  refine ⟨_, Spells.form isToken_spine hds, ?_⟩
  rw [flattenShape]
  simp [Datum.isAtom, Datum.text, hflat]

theorem bracket_sorts {kids : List String} {nss : List (List String)}
    (h : List.Forall₂ Sorts kids nss) (hne : kids ≠ []) : Sorts (bracket kids) nss.flatten := by
  cases h with
  | nil => exact absurd rfl hne
  | @cons k ns ks rest hk hrest =>
    cases hrest with
    | nil => simpa [bracket] using hk
    | cons hk' hrest => exact spine_sorts (.cons hk (.cons hk' hrest))

/-- The sort of a unit: nothing if it lists no place. -/
def SortOf (text : String) (names : List String) : Prop :=
  text = "" ∧ names = [] ∨ text ≠ "" ∧ Sorts text names

theorem forall₂_sorts {ps : List String} (h : ∀ p ∈ ps, IsName p) :
    List.Forall₂ Sorts ps (ps.map fun p => [p]) := by
  rw [List.forall₂_map_right_iff, List.forall₂_same]
  exact fun p hp => (h p hp).sorts

theorem flatten_singletons (ps : List String) : (ps.map fun p => [p]).flatten = ps := by
  induction ps with
  | nil => rfl
  | cons p ps ih => simp [ih]

theorem filter_sorts {texts : List String} {nss : List (List String)}
    (h : List.Forall₂ SortOf texts nss) :
    ∃ kept, List.Forall₂ Sorts (texts.filter (· ≠ "")) kept ∧ kept.flatten = nss.flatten := by
  induction h with
  | nil => exact ⟨[], .nil, rfl⟩
  | @cons text names texts nss ht _ ih =>
    obtain ⟨kept, hkept, hflat⟩ := ih
    rcases ht with ⟨rfl, rfl⟩ | ⟨hne, hs⟩
    · exact ⟨kept, by simpa using hkept, by simpa using hflat⟩
    · refine ⟨names :: kept, ?_, by simp [hflat]⟩
      rw [List.filter_cons_of_pos (by simpa using hne)]
      exact .cons hs hkept

theorem bracket_sortOf {kids : List String} {nss : List (List String)}
    (h : List.Forall₂ Sorts kids nss) : SortOf (bracket kids) nss.flatten := by
  by_cases hne : kids = []
  · subst hne
    cases h
    exact .inl ⟨rfl, rfl⟩
  · obtain ⟨d, hd, hflat⟩ := bracket_sorts h hne
    exact .inr ⟨Spells.ne_empty hd, d, hd, hflat⟩

theorem mapM_some_iff {α β : Type} {f : α → Option β} : ∀ {xs : List α} {ys : List β},
    xs.mapM f = some ys ↔ List.Forall₂ (fun x y => f x = some y) xs ys := by
  intro xs
  induction xs with
  | nil =>
    intro ys
    cases ys <;> simp
  | cons x xs ih =>
    intro ys
    rw [List.mapM_cons]
    cases ys with
    | nil => cases f x <;> simp [Option.bind_eq_some_iff]
    | cons y ys =>
      rw [List.forall₂_cons, ← ih]
      cases f x <;> simp [Option.bind_eq_some_iff, and_comm]

theorem mapM_forall₂ {α β γ : Type} {f : α → Option β} {g : α → Option γ} {P : β → Prop}
    {Q : γ → β → Prop} (h : ∀ x y, f x = some y → P y → ∃ z, g x = some z ∧ Q z y)
    {xs : List α} {ys : List β} (hf : xs.mapM f = some ys) (hP : ∀ y ∈ ys, P y) :
    ∃ zs, xs.mapM g = some zs ∧ List.Forall₂ Q zs ys := by
  have hrel := mapM_some_iff.mp hf
  clear hf
  induction hrel with
  | nil => exact ⟨[], rfl, .nil⟩
  | cons hx _ ih =>
    obtain ⟨hy, hys⟩ := List.forall_mem_cons.mp hP
    obtain ⟨z, hz, hq⟩ := h _ _ hx hy
    obtain ⟨zs, hzs, hqs⟩ := ih hys
    exact ⟨z :: zs, mapM_some_iff.mpr (.cons hz (mapM_some_iff.mp hzs)), .cons hq hqs⟩

/-- The printed sort of a unit lists what the unit unfolds to. -/
theorem sortOf_spec {t : UnitTree} {extra : List String} : ∀ {fuel : Nat} {uid : String}
    {isRoot : Bool} {names : List String}, leavesOf t extra fuel uid isRoot = some names →
    (∀ p ∈ names, IsName p) →
    ∃ text, sortOf t extra fuel uid isRoot = some text ∧ SortOf text names := by
  intro fuel
  induction fuel with
  | zero =>
    intro uid isRoot names h
    cases h
  | succ fuel ih =>
    intro uid isRoot names h hnames
    rw [leavesOf] at h
    rw [sortOf]
    cases hu : t.units.lookup uid with
    | none =>
      rw [hu] at h
      cases h
      exact ⟨"", rfl, .inl ⟨rfl, rfl⟩⟩
    | some u =>
      rw [hu] at h
      obtain ⟨nss, hnss, h⟩ := Option.bind_eq_some_iff.mp h
      cases h
      have hall : ∀ p ∈ u.places ++ nss.flatten ++ (if isRoot then extra else []), IsName p :=
        hnames
      simp only [List.append_assoc, List.forall_mem_append] at hall
      obtain ⟨hplaces, hsubs, hextra⟩ := hall
      obtain ⟨texts, htexts, hsorts⟩ := mapM_forall₂ (P := fun ns => ∀ p ∈ ns, IsName p)
        (fun s ns hs hns => ih hs hns) hnss fun ns hns p hp =>
          hsubs p (List.mem_flatten_of_mem hns hp)
      obtain ⟨kept, hkept, hflat⟩ := filter_sorts hsorts
      have hkids := List.rel_append (List.rel_append (forall₂_sorts hplaces) hkept)
        (forall₂_sorts hextra)
      have hsort := bracket_sortOf hkids
      rw [List.flatten_append, List.flatten_append, flatten_singletons, flatten_singletons,
        hflat] at hsort
      refine ⟨_, ?_, hsort⟩
      simp only [htexts]
      rfl

theorem leavesOf_extra {t : UnitTree} (extra : List String) : ∀ {fuel : Nat} {uid : String},
    leavesOf t extra fuel uid false = leavesOf t [] fuel uid false := by
  intro fuel
  induction fuel with
  | zero => intro uid; rfl
  | succ fuel ih =>
    intro uid
    rw [leavesOf, leavesOf]
    simp only [ih, Bool.false_eq_true, if_false]

/-- The orphans stand behind the places of the tree. -/
theorem leavesOf_root {t : UnitTree} (extra : List String) {names : List String} {fuel : Nat}
    {uid : String}
    (hu : (t.units.lookup uid).isSome) (h : leavesOf t [] fuel uid true = some names) :
    leavesOf t extra fuel uid true = some (names ++ extra) := by
  cases fuel with
  | zero => cases h
  | succ fuel =>
    rw [leavesOf] at h ⊢
    obtain ⟨u, hu⟩ := Option.isSome_iff_exists.mp hu
    rw [hu] at h ⊢
    simp only [leavesOf_extra extra] at h ⊢
    obtain ⟨nss, hnss, h⟩ := Option.bind_eq_some_iff.mp h
    cases h
    simp [hnss]

section Net

variable {net : SparsePetriNet} {units : UnitTree} {opts : EmitOptions}

/-- The names can be printed and read back, no two places share one. -/
structure SparsePetriNet.Named (net : SparsePetriNet) : Prop where
  nodup : net.pnames.Nodup
  place : ∀ p ∈ net.pnames, IsName p
  symbol : ∀ p ∈ net.pnames, IsSymbol p
  transition : ∀ t ∈ net.tnames, IsToken t.toList
  line : '\n' ∉ net.name.toList

theorem SparsePetriNet.Named.names {net : SparsePetriNet} (h : net.Named) :
    ∀ p ∈ net.pnames, IsName p ∧ IsSymbol p := fun p hp => ⟨h.place p hp, h.symbol p hp⟩

theorem shuttle_named : shuttle.Named where
  nodup := by decide
  place := by
    simp only [shuttle, List.forall_mem_cons, List.not_mem_nil, false_implies, implies_true,
      and_true]
    exact ⟨⟨isToken_of_text (by decide), by decide⟩, ⟨isToken_of_text (by decide), by decide⟩⟩
  symbol := by
    simp only [shuttle, List.forall_mem_cons, List.not_mem_nil, false_implies, implies_true,
      and_true]
    exact ⟨isSymbol_of_text (by decide +kernel), isSymbol_of_text (by decide +kernel)⟩
  transition := List.forall_mem_singleton.mpr (isToken_of_text (by decide))
  line := by decide

theorem perm_orphans {names : List String} (hnd : net.pnames.Nodup) (hnames : names.Nodup)
    (hin : ∀ p ∈ names, p ∈ net.pnames) (hall : ∀ u ∈ units.units, ∀ p ∈ u.2.places, p ∈ names)
    (hown : ∀ p ∈ names, ∃ u ∈ units.units, p ∈ u.2.places) :
    (names ++ orphans net units).Perm net.pnames := by
  have hmem : ∀ p, p ∈ orphans net units ↔ p ∈ net.pnames ∧ p ∉ names := by
    intro p
    have hcov : (units.units.any fun u => u.2.places.contains p) = true ↔ p ∈ names := by
      simp only [List.any_eq_true, List.contains_iff_mem]
      exact ⟨fun ⟨u, hu, hp⟩ => hall u hu p hp, hown p⟩
    rw [orphans, List.mem_filter, ← hcov]
    simp
  have hdisj : names.Disjoint (orphans net units) := fun p hp ho => ((hmem p).mp ho).2 hp
  refine (List.perm_ext_iff_of_nodup ?_ hnd).mpr fun p => ?_
  · exact List.nodup_append'.mpr ⟨hnames, hnd.filter _, hdisj⟩
  · rw [List.mem_append, hmem]
    have := hin p
    tauto

/-- What the tree unfolds to is in a unit of it. -/
theorem leavesOf_mem {t : UnitTree} : ∀ {fuel : Nat} {uid : String} {isRoot : Bool}
    {names : List String}, leavesOf t [] fuel uid isRoot = some names →
    ∀ p ∈ names, ∃ u ∈ t.units, p ∈ u.2.places := by
  intro fuel
  induction fuel with
  | zero => intro _ _ _ h; cases h
  | succ fuel ih =>
    intro uid isRoot names h p hp
    rw [leavesOf] at h
    cases hu : t.units.lookup uid with
    | none =>
      rw [hu] at h
      cases h
      simp at hp
    | some u =>
      rw [hu] at h
      obtain ⟨nss, hnss, h⟩ := Option.bind_eq_some_iff.mp h
      cases h
      simp only [ite_self, List.append_nil, List.mem_append, List.mem_flatten] at hp
      rcases hp with hp | ⟨ns, hns, hp⟩
      · obtain ⟨before, after, hunits, -⟩ := List.lookup_eq_some_iff.mp hu
        exact ⟨(uid, u), by simp [hunits], hp⟩
      · obtain ⟨s, -, hs⟩ := forall₂_mem_right (mapM_some_iff.mp hnss) hns
        exact ih hs p hp

theorem newline_notMem_toString (k : Nat) : '\n' ∉ (toString k).toList := by
  intro h
  have := (isToken_toString k).2 _ h
  cases this

theorem note_line (k : Nat) : '\n' ∉ (" note: " ++ toString k ++
    " place(s) outside every unit, placed under the root.").toList := by
  simp only [String.toList_append, List.mem_append, not_or]
  exact ⟨⟨by decide, newline_notMem_toString k⟩, by decide⟩

theorem isToken_shape : IsToken "shape".toList := isToken_of_text (by decide)

theorem shape_line {text : String} {d : Datum} {rest : List String} {ds : List Datum}
    (ht : Spells text d) (hr : Lines rest ds) :
    Lines (form "shape" [text] :: rest) (.list [.atom "shape" 0, d] 0 :: ds) :=
  .cons (Spells.form isToken_shape (.cons ht .nil)) hr

/-- The printed shape spells a sort over the places, each once. -/
theorem shapeLines_spec {fuel : Nat} (hn : net.Named) (hne : net.pnames ≠ [])
    (h : ListsPlaces net units opts fuel) :
    ∃ ls d names, shapeLines net units opts fuel = some ls ∧ flattenShape d = .ok names ∧
      names.Perm net.pnames ∧ ∀ rest ds, Lines rest ds →
        Lines (ls ++ rest) (.list [.atom "shape" 0, d] 0 :: ds) := by
  unfold ListsPlaces at h
  unfold shapeLines
  split at h
  · next hform =>
    obtain ⟨d, names, hd, hflat, hperm⟩ := h
    rw [if_pos hform]
    refine ⟨_, d, names, rfl, hflat, hperm, fun rest ds hr => ?_⟩
    exact Lines.comment (by decide) (shape_line hd hr)
  · next hform =>
    rw [if_neg hform]
    split at h
    · next htree =>
      rw [if_pos htree]
      obtain ⟨names, hroot, hnames, hnd, hin, hall⟩ := h
      have hperm : (names ++ orphans net units).Perm net.pnames :=
        perm_orphans hn.nodup hnd hin hall (leavesOf_mem hnames)
      have hnames := leavesOf_root (orphans net units) hroot hnames
      obtain ⟨text, htext, hsort⟩ := sortOf_spec hnames fun p hp =>
        hn.place p (hperm.mem_iff.mp hp)
      rcases hsort with ⟨-, hnil⟩ | ⟨-, d, hd, hflat⟩
      · rw [hnil] at hperm
        exact absurd hperm.nil_eq.symm hne
      · simp only [htext]
        refine ⟨_, d, _, rfl, hflat, hperm, fun rest ds hr => ?_⟩
        split
        · exact shape_line hd hr
        · exact Lines.comment (note_line _) (shape_line hd hr)
    · next htree =>
      rw [if_neg htree]
      obtain ⟨d, hd, hflat⟩ := spine_sorts (forall₂_sorts hn.place)
      refine ⟨_, d, _, rfl, hflat, ?_, fun rest ds hr => ?_⟩
      · rw [flatten_singletons]
      · exact Lines.comment (by decide) (shape_line hd hr)

end Net

end LibHSC.Petri
