import LibHSC.Petri.Engine

/-!
The events of an emitted net fire its transitions. The states the explicit engine
reaches are the markings that firings within the machine range reach.
-/

namespace LibHSC.Petri

open Surface Xpl Lia PetriNets

/-! ## One event -/

/-- The right-hand side the reader makes of a change at a position. -/
def changeExpr (R : ExprIds) (e : Nat × Int) : IExpr :=
  if e.2 > 0 then ((Lia.add R (.var e.1) (.const e.2)).toOption).getD .undef
  else .binary .minus (.var e.1) (.const (-e.2))

/-- The changes of a transition, at their positions. -/
def placed (net : SparsePetriNet) (names : List String) (t : Nat) : List (Nat × Int) :=
  (changes (net.pre t) (net.post t)).map fun e => (position net names e.1, e.2)

def guardExpr (R : ExprIds) (net : SparsePetriNet) (names : List String) (e : Nat × Int) :
    BExpr := compare R .geq (.var (position net names e.1)) (.const e.2)

section Event

variable {R : ExprIds} {net : SparsePetriNet} {opts : EmitOptions} {s : Spec}
  {names : List String} {events : List Datum} {t : Nat}

theorem changeExpr_adds {p : Nat} {c : Int} (hc : InInt32 c) (hne : c ≠ 0) :
    Adds (changeExpr R (p, c)) p c := by
  by_cases hpos : c > 0
  · obtain ⟨e, he, hadds⟩ := add_adds (R := R) (p := p) hc hne
    have heq : changeExpr R (p, c) = e := by
      rw [changeExpr, if_pos hpos, he]
      rfl
    rwa [heq]
  · rw [changeExpr, if_neg hpos]
    exact minus_adds

theorem changes_ok (hw : net.WF) {e : Nat × Int} (h : e ∈ changes (net.pre t) (net.post t)) :
    e.1 < net.pnames.length ∧ InInt32 e.2 ∧ InInt32 (-e.2) ∧ e.2 ≠ 0 := by
  obtain ⟨hne, heq, -⟩ := mem_changes h
  have hpre := (hw.pre_ok t).get (p := e.1)
  have hpost := (hw.post_ok t).get (p := e.1)
  refine ⟨delta_place hw (List.mem_filter.mp h).1, ?_, ?_, hne⟩ <;>
  · rw [heq]
    unfold InInt32 at *
    omega

theorem readBool_guard (h : Emits net opts s names events) (hw : net.WF) (hn : net.Named)
    {d : Datum} {e : Nat × Int} (he : e ∈ (net.pre t).entries) (hd : d.erase = guardForm net e) :
    readBool R s.scope d = .ok (guardExpr R net names e) := by
  obtain ⟨l₁, l₂, l₃, l, rfl⟩ := erase_eq_triple.mp hd
  have hin := placeName_mem ((hw.pre_ok t).place e he)
  exact readBool_compare rfl (hn.symbol _ hin) (h.spec.position (h.perm.mem_iff.mpr hin))
    ((hw.pre_ok t).weight e he).2

theorem readAction_change (h : Emits net opts s names events) (hw : net.WF) {d : Datum}
    {e : Nat × Int} (he : e ∈ changes (net.pre t) (net.post t))
    (hd : d.erase = actionForm net e) :
    readAction R s.scope d = .ok (assignOf (position net names e.1,
      changeExpr R (position net names e.1, e.2))) := by
  obtain ⟨hlt, hc, hc', hne⟩ := changes_ok hw he
  have hin := h.perm.mem_iff.mpr (placeName_mem hlt)
  have hpos := h.spec.position hin
  by_cases hgt : e.2 > 0
  · rw [actionForm, if_pos hgt] at hd
    obtain ⟨l₁, l₂, l₃, l, rfl⟩ := erase_eq_triple.mp hd
    refine readAction_assign rfl (.inr (.inl rfl)) rfl hpos ?_
    obtain ⟨x, hx, -⟩ := add_adds (R := R) (p := position net names e.1) hc hne
    rw [readRhs, readInt_numeral hc]
    simp only [Datum.head, Datum.items, bind, Except.bind, String.reduceEq, if_false, if_true,
      changeExpr, if_pos hgt]
    rw [hx]
    rfl
  · rw [actionForm, if_neg hgt] at hd
    obtain ⟨l₁, l₂, l₃, l, rfl⟩ := erase_eq_triple.mp hd
    refine readAction_assign rfl (.inr (.inr rfl)) rfl hpos ?_
    rw [readRhs, readInt_numeral hc']
    simp only [Datum.head, Datum.items, bind, Except.bind, String.reduceEq, if_false,
      changeExpr, if_neg hgt]
    rfl

theorem placed_nodup (hw : net.WF) (hn : net.Named) (h : Emits net opts s names events) :
    ((placed net names t).map Prod.fst).Nodup := by
  have hmap : (placed net names t).map Prod.fst =
      ((changes (net.pre t) (net.post t)).map Prod.fst).map (position net names) := by
    simp [placed, Function.comp_def]
  rw [hmap]
  refine List.Nodup.map_on (fun x hx y hy hxy => ?_) changes_nodup
  obtain ⟨e, he, rfl⟩ := List.mem_map.mp hx
  obtain ⟨f, hf, rfl⟩ := List.mem_map.mp hy
  have := position_inj hn.nodup h.perm (p := ⟨e.1, (changes_ok hw he).1⟩)
    (q := ⟨f.1, (changes_ok hw hf).1⟩) hxy
  exact congrArg Fin.val this

/-- Guards and assignments of the event of a transition, as the engine reads them. -/
theorem event_reads (h : Emits net opts s names events) (hw : net.WF) (hn : net.Named)
    {f : Datum} {atoms acts : List Datum} (hf : EventOf net t f atoms acts) :
    ReadsTo R s.scope atoms acts ((net.pre t).entries.map (guardExpr R net names))
      ((placed net names t).map fun e => (e.1, changeExpr R e)) where
  guards := by
    rw [List.forall₂_map_right_iff]
    exact (forall₂_and hf.atoms fun e he => he).imp fun d e hd => readBool_guard h hw hn hd.2 hd.1
  acts := by
    refine mapM_forall₂_ok ?_
    rw [placed, List.map_map, List.map_map, List.forall₂_map_right_iff]
    exact (forall₂_and hf.acts fun e he => he).imp fun d e hd => readAction_change h hw hd.2 hd.1
  nodup := by
    have := placed_nodup (t := t) hw hn h
    simpa [Function.comp_def] using this
  alone := by
    intro x hx
    obtain ⟨e, he, rfl⟩ := List.mem_map.mp hx
    obtain ⟨c, hc, rfl⟩ := List.mem_map.mp he
    obtain ⟨-, hr, -, hne⟩ := changes_ok hw hc
    exact (changeExpr_adds hr hne).within

theorem total_placed (h : Emits net opts s names events) (hw : net.WF) (hn : net.Named)
    (p : Fin net.pnames.length) :
    total (position net names p) (placed net names t) = (net.post t).get p - (net.pre t).get p := by
  rw [← changes_total, placed]
  have hall : ∀ es : List (Nat × Int), (∀ e ∈ es, e.1 < net.pnames.length) →
      total (position net names p) (es.map fun e => (position net names e.1, e.2)) =
        total p es := by
    intro es
    induction es with
    | nil => exact fun _ => rfl
    | cons e es ih =>
      intro hes
      obtain ⟨he, hes⟩ := List.forall_mem_cons.mp hes
      have hiff : position net names e.1 = position net names p ↔ e.1 = p := by
        constructor
        · intro heq
          exact congrArg Fin.val (position_inj hn.nodup h.perm (p := ⟨e.1, he⟩) heq)
        · intro heq
          rw [heq]
      simp only [List.map_cons, total, ih hes, hiff]
  exact hall _ fun e he => (changes_ok hw he).1

variable {m : Fin net.pnames.length → Int}

theorem addAll_wordOf (h : Emits net opts s names events) (hw : net.WF) (hn : net.Named)
    {t : Fin net.tnames.length} :
    addAll (placed net names t) (wordOf net names m) = wordOf net names (net.toNet.fire t m) := by
  refine word_ext hn.nodup h.perm (by simp [addAll, wordOf]) (by simp [wordOf]) fun p => ?_
  rw [wordOf_get hn.nodup h.perm, addAll, List.getElem?_mapIdx, wordOf_get hn.nodup h.perm,
    Option.map_some, total_placed h hw hn]
  refine congrArg some ?_
  rw [Net.fire_apply]
  show m p + ((net.post t).get p - (net.pre t).get p) = m p - (net.pre t).get p + (net.post t).get p
  omega

theorem guards_hold (h : Emits net opts s names events) (hw : net.WF) (hn : net.Named)
    (hm : InRange m) {t : Fin net.tnames.length} :
    (∀ b ∈ (net.pre t).entries.map (guardExpr R net names),
      Xpl.evalBool (wordOf net names m) b = .ok .yes) ↔ net.toNet.Enabled t m := by
  rw [SparsePetriNet.enabled_iff fun p => (hm p).1, List.forall_mem_map]
  refine forall₂_congr fun e he => ?_
  have hlt := (hw.pre_ok t).place e he
  have hget := wordOf_get (m := m) hn.nodup h.perm ⟨e.1, hlt⟩
  rw [guardExpr, Xpl.evalBool_compare hget]
  simp [cmpEval, hlt]

/-- The event of a transition fires it, within the machine range. -/
theorem fires_iff (h : Emits net opts s names events) (hw : net.WF) (hn : net.Named)
    {t : Fin net.tnames.length} {f : Datum} (hf : f.erase = eventForm net t) :
    ∃ evt, buildEvent R s.scope (sourceOf f) = .ok evt ∧ ∀ m : Fin net.pnames.length → Int,
      InRange m → ∀ w, Fires evt (wordOf net names m) w ↔
        net.toNet.Enabled t m ∧ InRange (net.toNet.fire t m) ∧
          w = wordOf net names (net.toNet.fire t m) := by
  obtain ⟨atoms, acts, hof⟩ := eventOf_of_erase hf
  obtain ⟨evt, hevt, hfires⟩ := buildEvent_emitted hof.event (event_reads (R := R) h hw hn hof)
  refine ⟨evt, hevt, fun m hm w => ?_⟩
  have hadds : ∀ e ∈ placed net names t, Adds (changeExpr R e) e.1 e.2 := by
    intro e he
    obtain ⟨c, hc, rfl⟩ := List.mem_map.mp he
    obtain ⟨-, hr, -, hne⟩ := changes_ok hw hc
    exact changeExpr_adds hr hne
  have hplace : ∀ e ∈ placed net names t, ∃ p : Fin net.pnames.length,
      e.1 = position net names p := by
    intro e he
    obtain ⟨c, hc, rfl⟩ := List.mem_map.mp he
    exact ⟨⟨c.1, (changes_ok hw hc).1⟩, rfl⟩
  have hvalues : ∀ e ∈ placed net names t, ∃ x, (wordOf net names m)[e.1]? = some x ∧
      InInt32 x := by
    intro e he
    obtain ⟨p, hp⟩ := hplace e he
    exact ⟨m p, by rw [hp, wordOf_get hn.nodup h.perm], (hm p).2⟩
  rw [hfires, guards_hold h hw hn hm,
    runAssigns_adds hadds (placed_nodup hw hn h) hvalues, addAll_wordOf h hw hn]
  refine and_congr_right fun hen => and_congr_left fun _ => ?_
  have hfire : ∀ p, net.toNet.fire t m p =
      m p + total (position net names p) (placed net names t) := by
    intro p
    rw [Net.fire_apply, total_placed h hw hn]
    show m p - (net.pre t).get p + (net.post t).get p = _
    omega
  constructor
  · intro hall p
    refine ⟨?_, ?_⟩
    · rw [Net.fire_apply]
      have hpost := ((hw.post_ok t).get (p := p)).1
      have := hen p
      show 0 ≤ m p - net.toNet.pre t p + (net.post t).get p
      omega
    · rw [hfire]
      by_cases hp : position net names p ∈ (placed net names t).map Prod.fst
      · obtain ⟨e, he, hep⟩ := List.mem_map.mp hp
        have := hall e he (m p) (by rw [hep, wordOf_get hn.nodup h.perm])
        rwa [← hep, total_mem (placed_nodup hw hn h) (j := e.1) (d := e.2) he]
      · rw [total_notMem hp, add_zero]
        exact (hm p).2
  · intro hr e he x hx
    obtain ⟨p, hp⟩ := hplace e he
    rw [hp, wordOf_get hn.nodup h.perm] at hx
    cases hx
    have hp' := (hr p).2
    rwa [hfire, ← hp, total_mem (placed_nodup hw hn h) (j := e.1) (d := e.2) he] at hp'

end Event

/-! ## Runs -/

section Runs

variable {R : ExprIds} {net : SparsePetriNet} {units : UnitTree} {opts : EmitOptions} {s : Spec}
  {names : List String} {events : List Datum}

/-- A firing whose marking the machine can hold. -/
def FiresInRange (net : SparsePetriNet) (m m' : Fin net.pnames.length → Int) : Prop :=
  net.toNet.Step m m' ∧ InRange m'

/-- A transition without an event moves no token. -/
theorem fire_skipped {t : Fin net.tnames.length} (h : (t : Nat) ∉ emitted net opts)
    (m : Fin net.pnames.length → Int) : net.toNet.fire t m = m := by
  have hno : noEffect (delta (net.pre t) (net.post t)) = true := by
    by_contra hno
    refine h (List.mem_filter.mpr ⟨List.mem_range.mpr t.isLt, ?_⟩)
    rw [Bool.not_eq_true] at hno
    simp [hno]
  funext p
  have hp := noEffect_iff.mp hno p
  rw [Net.fire_apply]
  show m p - (net.pre t).get p + (net.post t).get p = m p
  omega

/-- The steps of the emitted system. -/
theorem Emits.next (h : Emits net opts s names events) (hw : net.WF) (hn : net.Named)
    (R : ExprIds) : ∃ x, s.xpl R = .ok x ∧ ∀ m : Fin net.pnames.length → Int, InRange m →
      ∀ w, x.Next (wordOf net names m) w ↔ ∃ t : Fin net.tnames.length,
        (t : Nat) ∈ emitted net opts ∧ net.toNet.Enabled t m ∧ InRange (net.toNet.fire t m) ∧
          w = wordOf net names (net.toNet.fire t m) := by
  have hbuild : ∀ f ∈ events, ∃ evt, buildEvent R s.scope (sourceOf f) = .ok evt ∧
      ∀ w t, Fires evt w t ↔ ∃ evt, buildEvent R s.scope (sourceOf f) = .ok evt ∧
        Fires evt w t := by
    intro f hf
    obtain ⟨t, ht, hft⟩ := forall₂_mem_left h.events hf
    have hlt : t < net.tnames.length := List.mem_range.mp (List.mem_filter.mp ht).1
    obtain ⟨evt, hevt, -⟩ := fires_iff (R := R) h hw hn (t := ⟨t, hlt⟩) hft
    refine ⟨evt, hevt, fun w u => ⟨fun hfires => ⟨evt, hevt, hfires⟩, ?_⟩⟩
    rintro ⟨evt', hevt', hfires⟩
    rw [hevt] at hevt'
    cases hevt'
    exact hfires
  obtain ⟨x, hx, hnext⟩ := h.spec.next hbuild
  refine ⟨x, hx, fun m hm w => ?_⟩
  rw [hnext]
  constructor
  · rintro ⟨f, hf, evt', hevt', hfires⟩
    obtain ⟨t, ht, hft⟩ := forall₂_mem_left h.events hf
    have hlt : t < net.tnames.length := List.mem_range.mp (List.mem_filter.mp ht).1
    obtain ⟨evt, hevt, hiff⟩ := fires_iff (R := R) h hw hn (t := ⟨t, hlt⟩) hft
    rw [hevt] at hevt'
    cases hevt'
    exact ⟨⟨t, hlt⟩, ht, (hiff m hm w).mp hfires⟩
  · rintro ⟨t, ht, hstep⟩
    obtain ⟨f, hf, hft⟩ := forall₂_mem_right h.events ht
    obtain ⟨evt, hevt, hiff⟩ := fires_iff (R := R) h hw hn (t := t) hft
    exact ⟨f, hf, evt, hevt, (hiff m hm w).mpr hstep⟩

theorem initial_inRange (hw : net.WF) : InRange net.initial := fun p => hw.initial p

/-- The states reached are the markings reached, whether or not the self-loops are emitted. -/
theorem Emits.reachable (h : Emits net opts s names events) (hw : net.WF) (hn : net.Named)
    {x : Xpl.Model} (hx : s.xpl R = .ok x) {w : Xpl.Word} :
    Relation.ReflTransGen x.Next (wordOf net names net.initial) w ↔
      ∃ m, Relation.ReflTransGen (FiresInRange net) net.initial m ∧ w = wordOf net names m := by
  obtain ⟨x', hx', hnext⟩ := h.next hw hn R
  rw [hx'] at hx
  cases hx
  constructor
  · intro hrun
    suffices hinv : ∃ m, Relation.ReflTransGen (FiresInRange net) net.initial m ∧ InRange m ∧
        w = wordOf net names m by
      obtain ⟨m, hm, -, hword⟩ := hinv
      exact ⟨m, hm, hword⟩
    induction hrun with
    | refl => exact ⟨_, .refl, initial_inRange hw, rfl⟩
    | tail _ hstep ih =>
      obtain ⟨m, hm, hr, rfl⟩ := ih
      obtain ⟨t, -, hen, hr', rfl⟩ := (hnext m hr _).mp hstep
      exact ⟨_, hm.tail ⟨⟨t, hen, rfl⟩, hr'⟩, hr', rfl⟩
  · rintro ⟨m, hrun, rfl⟩
    suffices hinv : Relation.ReflTransGen x.Next (wordOf net names net.initial)
        (wordOf net names m) ∧ InRange m from hinv.1
    induction hrun with
    | refl => exact ⟨.refl, initial_inRange hw⟩
    | tail _ hstep ih =>
      obtain ⟨⟨t, hen, rfl⟩, hr'⟩ := hstep
      obtain ⟨hrun, hr⟩ := ih
      by_cases ht : (t : Nat) ∈ emitted net opts
      · exact ⟨hrun.tail ((hnext _ hr _).mpr ⟨t, ht, hen, hr', rfl⟩), hr'⟩
      · rw [fire_skipped ht] at hr' ⊢
        exact ⟨hrun, hr'⟩

end Runs

/-! ## One token between two places -/

/-- `there` in a unit below the root. -/
def shuttleUnits : UnitTree :=
  ⟨[("root", ⟨["here"], ["inner"]⟩), ("inner", ⟨["there"], []⟩)], "root", true⟩

def plainOptions : EmitOptions := ⟨2, false, .none, ""⟩

theorem shuttle_lists : ListsPlaces shuttle shuttleUnits plainOptions 2 := by
  unfold ListsPlaces
  rw [if_neg (by decide), if_pos (by decide)]
  exact ⟨["here", "there"], by decide, by decide, by decide, by decide, by decide⟩

/-! ## The emitted text -/

section Text

variable {net : SparsePetriNet} {units : UnitTree} {opts : EmitOptions} {fuel : Nat}

/-- The text is well formed and declares the net: the frontier lists every place once, in
the order of the shape, and the initial state is the initial marking. -/
theorem toSurface_declares (hw : net.WF) (hn : net.Named) (hne : net.pnames ≠ [])
    (hb : InInt32 opts.bound) (h : ListsPlaces net units opts fuel) (R : ExprIds) :
    ∃ lines forms s, toSurface net units opts fuel = some lines ∧
      parse (ofLines lines).toList = .ok forms ∧ Spec.read forms = .ok s ∧
      s.order.Perm net.pnames ∧ s.arrays = [] ∧
      s.seeds R = .ok [wordOf net s.order net.initial] := by
  obtain ⟨lines, forms, s, names, events, hlines, hparse, hread, hemits⟩ :=
    toSurface_read hw hn hne hb h
  have horder := hemits.spec.order
  refine ⟨lines, forms, s, hlines, hparse, hread, ?_, hemits.spec.arrays, ?_⟩
  · rw [horder]
    exact hemits.perm
  · rw [hemits.spec.seeds, hemits.base hw hn.nodup, horder]

theorem toSurface_declares_shuttle :
    ∃ lines forms s, toSurface shuttle shuttleUnits plainOptions 2 = some lines ∧
      parse (ofLines lines).toList = .ok forms ∧ Spec.read forms = .ok s ∧
      s.order.Perm shuttle.pnames ∧ s.arrays = [] ∧
      s.seeds ⟨fun _ => 0, fun _ => 0⟩ = .ok [wordOf shuttle s.order shuttle.initial] :=
  toSurface_declares shuttle_wf shuttle_named (by decide) (by decide) shuttle_lists _

/-- The engine reaches from the seed exactly the markings that firings reach while every
place holds a machine value, with the self-loops emitted or left out. -/
theorem toSurface_reachable (hw : net.WF) (hn : net.Named) (hne : net.pnames ≠ [])
    (hb : InInt32 opts.bound) (h : ListsPlaces net units opts fuel) (R : ExprIds) :
    ∃ lines forms s x, toSurface net units opts fuel = some lines ∧
      parse (ofLines lines).toList = .ok forms ∧ Spec.read forms = .ok s ∧
      s.xpl R = .ok x ∧
      (∀ w, Relation.ReflTransGen x.Next (wordOf net s.order net.initial) w ↔
        ∃ m, Relation.ReflTransGen (FiresInRange net) net.initial m ∧ w = wordOf net s.order m) ∧
      ((∀ m, net.toNet.Reachable net.initial m → InRange m) →
        ∀ m, Relation.ReflTransGen x.Next (wordOf net s.order net.initial)
          (wordOf net s.order m) ↔ net.toNet.Reachable net.initial m) := by
  obtain ⟨lines, forms, s, names, events, hlines, hparse, hread, hemits⟩ :=
    toSurface_read hw hn hne hb h
  obtain ⟨x, hx, -⟩ := hemits.next hw hn R
  have hreach := fun w => hemits.reachable (w := w) hw hn hx
  have horder := hemits.spec.order
  subst horder
  refine ⟨lines, forms, s, x, hlines, hparse, hread, hx, hreach, fun hall m => ?_⟩
  have hsame : ∀ m, Relation.ReflTransGen (FiresInRange net) net.initial m ↔
      net.toNet.Reachable net.initial m := by
    intro m
    constructor
    · exact fun hrun => hrun.lift id fun _ _ hstep => hstep.1
    · intro hrun
      induction hrun with
      | refl => exact .refl
      | tail hrun hstep ih => exact ih.tail ⟨hstep, hall _ (hrun.tail hstep)⟩
  rw [hreach]
  constructor
  · rintro ⟨m', hrun, hword⟩
    rw [wordOf_inj hn.nodup hemits.perm hword]
    exact (hsame m').mp hrun
  · exact fun hrun => ⟨m, (hsame m).mpr hrun, rfl⟩

theorem toSurface_reachable_shuttle :
    ∃ lines forms s x, toSurface shuttle shuttleUnits plainOptions 2 = some lines ∧
      parse (ofLines lines).toList = .ok forms ∧ Spec.read forms = .ok s ∧
      s.xpl ⟨fun _ => 0, fun _ => 0⟩ = .ok x ∧
      (∀ w, Relation.ReflTransGen x.Next (wordOf shuttle s.order shuttle.initial) w ↔
        ∃ m, Relation.ReflTransGen (FiresInRange shuttle) shuttle.initial m ∧
          w = wordOf shuttle s.order m) ∧
      ((∀ m, shuttle.toNet.Reachable shuttle.initial m → InRange m) →
        ∀ m, Relation.ReflTransGen x.Next (wordOf shuttle s.order shuttle.initial)
          (wordOf shuttle s.order m) ↔ shuttle.toNet.Reachable shuttle.initial m) :=
  toSurface_reachable shuttle_wf shuttle_named (by decide) (by decide) shuttle_lists _

end Text

end LibHSC.Petri
