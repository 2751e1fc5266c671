import LibHSC.Surface.DeclareDomains
import LibHSC.Library.Agree

/-!
The pass `(declare-domains)` and its effect on a run. The two runs keep the same frame;
their words agree off the leaves whose lower bound has become another default.
-/

namespace LibHSC.Surface

open Lia Xpl

/-! ## What a redeclaration changes -/

/-- The default of the leaf that a `leaf` form declares. -/
def declaredDefault (f : Datum) : Int :=
  if f.items.length = 4 then (asInt (f.item 2)).getD 0 else 0

namespace Redeclared

variable (x : Redeclared)

/-- The leaves that get new bounds. -/
def names (forms : List Datum) : List String :=
  (forms.filter fun f => decide (f.head = "leaf") && (x.boundsOf f).isSome).map
    fun f => (f.item 1).text

/-- The leaves whose default changes with the lower bound. -/
def changed (forms : List Datum) : List String :=
  (forms.filter fun f => decide (f.head = "leaf") &&
    (x.boundsOf f).any fun b => decide (b.1 ≠ declaredDefault f)).map fun f => (f.item 1).text

end Redeclared

/-- The leaves that the entries of an `init`, a `word` or a `full` list. -/
def listed (entries : List Datum) : List String := entries.map fun e => (e.item 0).text

/-- The forms of a run that read neither the base word nor the declarations' bounds on
their own account. -/
def keepsBase (f : Datum) : Bool :=
  ["array", "shape", "event", "family", "word", "full", "xreach"].contains f.head

/-- Every leaf of `pending` is set by a pair `init` before the base word is read. -/
def InitsCover : List Datum → List String → List String → Prop
  | [], _, pending => pending = []
  | f :: fs, declared, pending =>
    pending = [] ∨
    (f.head = "leaf" ∧ InitsCover fs ((f.item 1).text :: declared) pending) ∨
    (keepsBase f = true ∧ InitsCover fs declared pending) ∨
    (f.head = "init" ∧ f.items.length = 1 ∧ InitsCover fs declared pending) ∨
    (f.head = "init" ∧ (f.item 1).items.length = 2 ∧ ((f.item 1).item 0).isAtom = true ∧
      ((f.item 1).item 0).text ∈ declared ∧
      InitsCover fs declared (pending.filter fun n => decide (n ∉ listed f.items.tail)))

/-! ## The frame -/

/-- A leaf of the frontier is placed where it stands. -/
def Frame.Ok (fr : Frame) : Prop :=
  ∀ (p : Nat) (t : String), fr.order[p]? = some t → fr.leaves.lookup t = some ⟨true, p⟩

theorem sym_text {d : Datum} {name : String} (h : sym d = .ok name) : name = d.text := by
  unfold sym at h
  split at h
  · cases h
    rfl
  · cases h

theorem lookup_map_replace {α : Type} (n : String) (v : α) (m : List (String × α)) (t : String) :
    (m.map fun x => if x.1 = n then (x.1, v) else x).lookup t =
      if t = n then (m.lookup t).map fun _ => v else m.lookup t := by
  induction m with
  | nil => simp
  | cons y m ih =>
    obtain ⟨k, w⟩ := y
    rw [List.map_cons, List.lookup_cons, List.lookup_cons, ih]
    by_cases hk : k = n
    · rw [if_pos hk]
      by_cases ht : t = k
      · simp [ht, hk]
      · simp [beq_eq_false_iff_ne.mpr ht]
    · rw [if_neg hk]
      by_cases ht : t = k
      · simp [ht, hk]
      · simp [beq_eq_false_iff_ne.mpr ht]

namespace Frame

variable {fr fr' : Frame}

theorem placeLeaf_ok {d : Datum} (hok : fr.Ok) (h : fr.placeLeaf d = .ok fr') : fr'.Ok := by
  unfold placeLeaf at h
  split at h
  · cases h
    exact hok
  · cases hl : fr.leaves.lookup d.text with
    | none =>
      rw [hl] at h
      cases h
    | some pl =>
      rw [hl] at h
      dsimp only at h
      split at h
      · cases h
      · next hpl =>
        cases h
        intro p t hp
        rw [lookup_map_replace]
        rw [List.getElem?_append] at hp
        by_cases hlt : p < fr.order.length
        · rw [if_pos hlt] at hp
          have ht : t ≠ d.text := by
            rintro rfl
            rw [hok p _ hp] at hl
            cases hl
            exact hpl rfl
          rw [if_neg ht]
          exact hok p t hp
        · rw [if_neg hlt] at hp
          obtain ⟨hz, hd⟩ : p - fr.order.length = 0 ∧ d.text = t := by
            cases hk : p - fr.order.length with
            | zero =>
              rw [hk] at hp
              exact ⟨rfl, by simpa using hp⟩
            | succ k =>
              rw [hk] at hp
              simp at hp
          rw [if_pos hd.symm, ← hd, hl, Option.map_some, show p = fr.order.length by omega]

mutual

theorem buildSort_ok : ∀ (d : Datum) {fr fr' : Frame}, fr.Ok → buildSort fr d = .ok fr' → fr'.Ok
  | .atom text line, fr, fr', hok, h => placeLeaf_ok hok (by simpa [buildSort] using h)
  | .list [] line, fr, fr', hok, h => by simp [buildSort, refuseForm] at h
  | .list (hd :: ds) line, fr, fr', hok, h => by
    unfold buildSort at h
    dsimp only at h
    split at h
    · split at h
      · cases h
      · exact buildSorts_ok ds hok h
    · split at h
      · exact buildSorts_ok ds hok h
      · split at h
        · split at h
          · cases h
          · exact buildSorts_ok ds hok h
        · cases h

theorem buildSorts_ok : ∀ (ds : List Datum) {fr fr' : Frame}, fr.Ok →
    buildSorts fr ds = .ok fr' → fr'.Ok
  | [], fr, fr', hok, h => by
    cases h
    exact hok
  | d :: ds, fr, fr', hok, h => by
    unfold buildSorts at h
    obtain ⟨fr₁, h₁, h⟩ := bind_eq_ok.mp h
    exact buildSorts_ok ds (buildSort_ok d hok h₁) h

end

theorem doShape_ok {f : Datum} (h : fr.doShape f = .ok fr') : fr'.Ok ∧ fr.top = none := by
  unfold doShape at h
  split at h
  · cases h
  · next htop =>
    obtain ⟨d, -, h⟩ := bind_eq_ok.mp h
    obtain ⟨built, hb, h⟩ := bind_eq_ok.mp h
    have hok : built.Ok := buildSort_ok d (fun p t hp => by simp at hp) hb
    split at h
    · cases h
    · cases h
      exact ⟨hok, by simpa using htop⟩

theorem placeLeaf_known {d : Datum} (h : fr.placeLeaf d = .ok fr') (n : String) :
    (fr'.leaves.lookup n).isSome = (fr.leaves.lookup n).isSome := by
  unfold placeLeaf at h
  split at h
  · cases h
    rfl
  · split at h
    · cases h
    · split at h
      · cases h
      · cases h
        rw [lookup_map_replace]
        split
        · rw [Option.isSome_map]
        · rfl

mutual

theorem buildSort_known : ∀ (d : Datum) {fr fr' : Frame}, buildSort fr d = .ok fr' → ∀ n,
    (fr'.leaves.lookup n).isSome = (fr.leaves.lookup n).isSome
  | .atom text line, fr, fr', h, n => placeLeaf_known (by simpa [buildSort] using h) n
  | .list [] line, fr, fr', h, n => by simp [buildSort, refuseForm] at h
  | .list (hd :: ds) line, fr, fr', h, n => by
    unfold buildSort at h
    dsimp only at h
    split at h
    · split at h
      · cases h
      · exact buildSorts_known ds h n
    · split at h
      · exact buildSorts_known ds h n
      · split at h
        · split at h
          · cases h
          · exact buildSorts_known ds h n
        · cases h

theorem buildSorts_known : ∀ (ds : List Datum) {fr fr' : Frame}, buildSorts fr ds = .ok fr' → ∀ n,
    (fr'.leaves.lookup n).isSome = (fr.leaves.lookup n).isSome
  | [], fr, fr', h, n => by
    cases h
    rfl
  | d :: ds, fr, fr', h, n => by
    unfold buildSorts at h
    obtain ⟨fr₁, h₁, h⟩ := bind_eq_ok.mp h
    exact (buildSorts_known ds h n).trans (buildSort_known d h₁ n)

end

theorem doShape_known {f : Datum} (h : fr.doShape f = .ok fr') : fr'.top.isSome = true ∧
    ∀ n, (fr'.leaves.lookup n).isSome = (fr.leaves.lookup n).isSome := by
  unfold doShape at h
  split at h
  · cases h
  · obtain ⟨d, -, h⟩ := bind_eq_ok.mp h
    obtain ⟨built, hb, h⟩ := bind_eq_ok.mp h
    split at h
    · cases h
    · cases h
      exact ⟨rfl, fun n => buildSort_known d hb n⟩

theorem doArray_keeps {f : Datum} (h : fr.doArray f = .ok fr') :
    fr'.leaves = fr.leaves ∧ fr'.order = fr.order ∧ fr'.top = fr.top := by
  unfold doArray at h
  obtain ⟨d, -, h⟩ := bind_eq_ok.mp h
  obtain ⟨name, -, h⟩ := bind_eq_ok.mp h
  split at h
  · cases h
  · split at h
    · cases h
    · obtain ⟨cells, -, h⟩ := bind_eq_ok.mp h
      cases h
      exact ⟨rfl, rfl, rfl⟩

theorem requireLeaf_place {d : Datum} {pl : Place} (hok : fr.Ok) (h : fr.requireLeaf d = .ok pl) :
    ∀ p : Nat, fr.order[p]? = some d.text → p = pl.index := by
  intro p hp
  unfold requireLeaf at h
  obtain ⟨name, hname, h⟩ := bind_eq_ok.mp h
  rw [sym_text hname, hok p _ hp] at h
  dsimp only at h
  split at h
  · cases h
  · cases h
    rfl

theorem filter_notMem_cons {names : List String} {t : String} {ts : List String} :
    (names.filter fun n => decide (n ≠ t)).filter (fun n => decide (n ∉ ts)) =
      names.filter fun n => decide (n ∉ t :: ts) := by
  rw [List.filter_filter]
  refine List.filter_congr fun n _ => ?_
  by_cases hn : n = t <;> by_cases hts : n ∈ ts <;> simp [hn, hts]

/-- Pairs written over two words: what they list is the same in both. -/
theorem setPairs_agree {message : String} (hok : fr.Ok) : ∀ {pairs : List Datum}
    {names : List String} {w w' : Xpl.Word}, AgreeOff fr.order names w w' →
    LiftRel (AgreeOff fr.order (names.filter fun n => decide (n ∉ listed pairs)))
      (fr.setPairs message pairs w) (fr.setPairs message pairs w') := by
  intro pairs
  induction pairs with
  | nil =>
    intro names w w' h
    refine .ok (h.mono fun n hn => ?_)
    simpa [listed] using hn
  | cons pair pairs ih =>
    intro names w w' h
    unfold setPairs
    split
    · exact .error _
    · refine LiftRel.bind_same fun pl hpl => LiftRel.bind_same fun v _ => ?_
      have hset := h.set (v := v) (requireLeaf_place hok hpl)
      have hrest := ih hset
      rwa [filter_notMem_cons] at hrest

end Frame

/-! ## The declarations -/

/-- The declarations of the two runs: one frame, bounds that differ on `redecl` only,
defaults on `changed` only, base words on `pending` only. -/
structure SimDecls (changed redecl pending : List String) (d d' : Decls) : Prop where
  frame : d'.frame = d.frame
  ok : d.frame.Ok
  keys : ∀ t, (d'.bounds.lookup t).isSome = (d.bounds.lookup t).isSome
  bound : ∀ t, t ∉ redecl → d.boundOf t = d'.boundOf t
  default : ∀ t, t ∉ changed → d.defaultOf t = d'.defaultOf t
  defaults : AgreeOff d.frame.order changed d.defaults d'.defaults
  init : AgreeOff d.frame.order pending d.init d'.init

/-- The default a bound gives. -/
def boundDefault (b : Option (Int × Int)) : Int := (b.map Prod.fst).getD 0

section Sim

variable {changed redecl pending : List String} {d d' : Decls}

theorem boundOf_append {name : String} {b : Option (Int × Int)} (t : String) (fr : Frame)
    (w u : Xpl.Word) : (Decls.mk fr (d.bounds ++ [(name, b)]) w u).boundOf t =
      if (d.bounds.lookup t).isSome then d.boundOf t else if t = name then b else none := by
  unfold Decls.boundOf
  rw [List.lookup_append]
  cases hl : d.bounds.lookup t with
  | some o => simp
  | none =>
    by_cases ht : t = name
    · simp [ht]
    · simp [ht, List.lookup_cons, beq_eq_false_iff_ne.mpr ht]

/-- One more leaf, with a bound of its own in each run. -/
theorem SimDecls.append (h : SimDecls changed redecl pending d d') {name : String}
    {b b' : Option (Int × Int)} (hb : name ∉ redecl → b = b')
    (hd : name ∉ changed → boundDefault b = boundDefault b') :
    SimDecls changed redecl pending
      { d with
        frame := { d.frame with leaves := d.frame.leaves ++ [(name, ⟨false, 0⟩)] }
        bounds := d.bounds ++ [(name, b)] }
      { d' with
        frame := { d'.frame with leaves := d'.frame.leaves ++ [(name, ⟨false, 0⟩)] }
        bounds := d'.bounds ++ [(name, b')] } where
  frame := by
    dsimp only
    rw [h.frame]
  ok := fun p t hp => by
    dsimp only
    rw [List.lookup_append, h.ok p t hp]
    rfl
  keys := fun t => by
    dsimp only
    rw [List.lookup_append, List.lookup_append, Option.isSome_or, Option.isSome_or, h.keys t]
    by_cases ht : t = name
    · simp [ht]
    · simp [List.lookup_cons, beq_eq_false_iff_ne.mpr ht]
  bound := fun t ht => by
    rw [boundOf_append, boundOf_append, h.keys t]
    split
    · exact h.bound t ht
    · split
      · next hn => exact hb (hn ▸ ht)
      · rfl
  default := fun t ht => by
    unfold Decls.defaultOf
    rw [boundOf_append, boundOf_append, h.keys t]
    split
    · exact h.default t ht
    · split
      · next hn => exact hd (hn ▸ ht)
      · rfl
  defaults := h.defaults
  init := h.init

theorem SimDecls.doShape {f : Datum} (h : SimDecls changed redecl pending d d')
    (hp : d.frame.top = none → pending = changed) :
    LiftRel (SimDecls changed redecl pending) (d.doShape f) (d'.doShape f) := by
  unfold Decls.doShape
  rw [h.frame]
  refine LiftRel.bind_same fun fr hfr => .ok ?_
  obtain ⟨hok, htop⟩ := Frame.doShape_ok hfr
  have hmap : AgreeOff fr.order changed (fr.order.map d.defaultOf) (fr.order.map d'.defaultOf) :=
    .map h.default
  exact ⟨rfl, hok, h.keys, h.bound, h.default, hmap, (hp htop) ▸ hmap⟩

theorem SimDecls.doArray {f : Datum} (h : SimDecls changed redecl pending d d') :
    LiftRel (SimDecls changed redecl pending) (d.doArray f) (d'.doArray f) := by
  unfold Decls.doArray
  rw [h.frame]
  refine LiftRel.bind_same fun fr hfr => .ok ?_
  obtain ⟨hl, ho, -⟩ := Frame.doArray_keeps hfr
  refine ⟨rfl, ?_, h.keys, h.bound, h.default, ?_, ?_⟩
  · intro p t hp
    dsimp only at hp ⊢
    rw [ho] at hp
    rw [hl]
    exact h.ok p t hp
  · dsimp only
    rw [ho]
    exact h.defaults
  · dsimp only
    rw [ho]
    exact h.init

theorem SimDecls.setInit {pairs : List Datum} (h : SimDecls changed redecl pending d d') :
    LiftRel (SimDecls changed redecl (pending.filter fun n => decide (n ∉ listed pairs)))
      (d.setInit pairs) (d'.setInit pairs) := by
  unfold Decls.setInit
  rw [h.frame]
  refine LiftRel.bind (Frame.setPairs_agree h.ok h.init) fun w w' hw => .ok ?_
  exact ⟨rfl, h.ok, h.keys, h.bound, h.default, h.defaults, hw⟩

theorem filter_listed_nil {names entries : List String} (h : ∀ n ∈ names, n ∈ entries) :
    (names.filter fun n => decide (n ∉ entries)) = [] := by
  rw [List.filter_eq_nil_iff]
  intro n hn
  simpa using h n hn

theorem SimDecls.wordOf {f : Datum} (h : SimDecls changed redecl pending d d')
    (hf : ∀ n ∈ changed, n ∈ listed (f.items.drop 2)) : d.wordOf f = d'.wordOf f := by
  unfold Decls.wordOf
  rw [h.frame]
  split
  · rfl
  · refine LiftRel.eq (LiftRel.bind_same fun _ _ => LiftRel.bind_same fun _ _ => ?_)
    refine (Frame.setPairs_agree h.ok h.defaults).mono fun w w' hw => ?_
    rw [filter_listed_nil hf] at hw
    exact hw.eq

theorem SimDecls.setRanges (h : SimDecls changed redecl pending d d') : ∀ {entries : List Datum}
    {names : List String} {w w' : List (Int × Int)}, AgreeOff d.frame.order names w w' →
    LiftRel (AgreeOff d.frame.order (names.filter fun n => decide (n ∉ listed entries)))
      (d.setRanges entries w) (d'.setRanges entries w') := by
  intro entries
  induction entries with
  | nil =>
    intro names w w' hw
    refine .ok (hw.mono fun n hn => ?_)
    simpa [listed] using hn
  | cons t entries ih =>
    intro names w w' hw
    unfold Decls.setRanges
    split
    · exact .error _
    · refine LiftRel.bind_same fun name hname => ?_
      rw [h.frame]
      cases hl : d.frame.leaves.lookup name with
      | none => exact .error _
      | some pl =>
        dsimp only
        split
        · exact .error _
        · split
          · next lo hi _ _ =>
            have hplace : ∀ p : Nat, d.frame.order[p]? = some (t.item 0).text → p = pl.index := by
              intro p hp
              rw [sym_text hname, h.ok p _ hp] at hl
              cases hl
              rfl
            have hrest := ih (hw.set (v := (int32 lo, int32 hi)) hplace)
            rwa [Frame.filter_notMem_cons] at hrest
          · exact .error _

theorem SimDecls.boxOf {f : Datum} (h : SimDecls changed redecl pending d d')
    (hf : ∀ n ∈ redecl, n ∈ listed (f.items.drop 2)) : d.boxOf f = d'.boxOf f := by
  have hrange : AgreeOff d.frame.order redecl (d.frame.order.map d.rangeOf)
      (d.frame.order.map d'.rangeOf) := by
    refine .map fun t ht => ?_
    unfold Decls.rangeOf
    rw [h.bound t ht]
  unfold Decls.boxOf
  rw [h.frame]
  split
  · rfl
  · refine LiftRel.eq (LiftRel.bind_same fun _ _ => LiftRel.bind_same fun _ _ => ?_)
    refine LiftRel.bind (h.setRanges hrange) fun w w' hw => ?_
    rw [filter_listed_nil hf] at hw
    rw [hw.eq]
    exact .refl

end Sim

/-! ## A leaf form -/

theorem int32_inInt32 (v : Int) : InInt32 (int32 v) := by
  unfold int32 InInt32
  omega

theorem hull_inInt32 {r : DomainReport} {b : Int × Int} (h : hull r = some b) :
    InInt32 b.1 ∧ InInt32 b.2 := by
  unfold hull at h
  split at h
  · split at h
    · cases h
    · cases h
      exact ⟨int32_inInt32 _, int32_inInt32 _⟩
  · cases h
    exact ⟨int32_inInt32 _, int32_inInt32 _⟩
  · cases h

namespace Redeclared

/-- The new bounds are values of 32 bits. -/
def InRange (x : Redeclared) : Prop :=
  (∀ y ∈ x.fresh, InInt32 y.2.1 ∧ InInt32 y.2.2) ∧
    ∀ y ∈ x.tighter, InInt32 y.2.2.1 ∧ InInt32 y.2.2.2

theorem add_inRange {u : UnitDomain} {x : Redeclared} (name : String) (h : x.InRange) :
    (add u x name).InRange := by
  unfold add
  split
  · next b _ hb =>
    refine ⟨fun y hy => ?_, h.2⟩
    rcases mem_mapInsert hy with rfl | hy
    · exact hull_inInt32 hb
    · exact h.1 y hy
  · exact h
  · next old new _ hb =>
    split
    · refine ⟨h.1, fun y hy => ?_⟩
      rcases mem_mapInsert hy with rfl | hy
      · exact hull_inInt32 hb
      · exact h.2 y hy
    · exact h
  · exact h

theorem ofUnits_inRange (cells : List (String × List String)) (units : List UnitDomain) :
    (ofUnits cells units).InRange := by
  unfold ofUnits
  have hadd : ∀ (u : UnitDomain) (names : List String) (x : Redeclared), x.InRange →
      (names.foldl (add u) x).InRange := by
    intro u names
    induction names with
    | nil => exact fun x hx => hx
    | cons name names ih => exact fun x hx => ih _ (add_inRange name hx)
  have hall : ∀ (units : List UnitDomain) (x : Redeclared), x.InRange →
      (units.foldl (fun x u => (targets cells u).foldl (add u) x) x).InRange := by
    intro units
    induction units with
    | nil => exact fun x hx => hx
    | cons u units ih => exact fun x hx => ih _ (hadd u _ x hx)
  exact hall units _ ⟨nofun, nofun⟩

variable {x : Redeclared} {f : Datum} {b : Int × Int}

theorem mem_of_lookup {α : Type} {m : List (String × α)} {k : String} {v : α}
    (h : m.lookup k = some v) : (k, v) ∈ m := by
  obtain ⟨before, after, hm, -⟩ := List.lookup_eq_some_iff.mp h
  rw [hm]
  exact List.mem_append_right _ List.mem_cons_self

theorem boundsOf_inRange (hx : x.InRange) (h : x.boundsOf f = some b) :
    InInt32 b.1 ∧ InInt32 b.2 := by
  unfold boundsOf at h
  split at h
  · exact hx.1 _ (mem_of_lookup h)
  · split at h
    · obtain ⟨y, hy, rfl⟩ := Option.map_eq_some_iff.mp h
      exact hx.2 _ (mem_of_lookup hy)
    · cases h

theorem boundsOf_length (h : x.boundsOf f = some b) : f.items.length = 2 ∨ f.items.length = 4 := by
  unfold boundsOf at h
  split at h
  · exact .inl ‹_›
  · split at h
    · exact .inr ‹_›
    · cases h

end Redeclared

theorem onForm_head (x : Redeclared) (f : Datum) : (x.onForm f).head = f.head := by
  unfold Redeclared.onForm
  split
  · next hleaf =>
    split
    · unfold Datum.head Redeclared.redeclare Datum.item
      cases hi : f.items with
      | nil =>
        rw [Datum.head, hi] at hleaf
        simp at hleaf
      | cons a as => cases a <;> rfl
    · rfl
  · rfl

/-- The domain of a redeclared leaf is not empty, neither the old one nor the new. -/
def FullDomain (f : Datum) (b : Int × Int) : Prop :=
  b.1 < b.2 ∧ (f.items.length = 4 →
    ∃ lo hi, asInt (f.item 2) = some lo ∧ asInt (f.item 3) = some hi ∧ lo < hi)

theorem needInt_of_asInt {d : Datum} {v : Int} (h : asInt d = some v) : needInt d = .ok v := by
  have hatom : d.isAtom = true := by
    cases ha : d.isAtom with
    | true => rfl
    | false =>
      unfold asInt at h
      rw [ha] at h
      cases h
  unfold needInt
  rw [hatom, h]
  rfl

theorem arg_of_lt {f : Datum} {i : Nat} {what : String} (h : i < f.items.length) :
    arg f i what = .ok (f.item i) := by
  unfold arg Datum.item
  rw [List.getElem?_eq_getElem h, List.getD_eq_getElem _ _ h]

theorem readBound_of_asInt {f : Datum} {lo hi : Int} (hlen : f.items.length = 4)
    (hlo : asInt (f.item 2) = some lo) (hhi : asInt (f.item 3) = some hi) (hlt : lo < hi) :
    Decls.readBound f = .ok (some (lo, hi)) := by
  unfold Decls.readBound
  rw [if_pos (by omega), arg_of_lt (by omega), arg_of_lt (by omega)]
  show (needInt (f.item 2) >>= _) = _
  rw [needInt_of_asInt hlo]
  show (needInt (f.item 3) >>= _) = _
  rw [needInt_of_asInt hhi]
  show (if hi ≤ lo then _ else _) = _
  rw [if_neg (by omega)]
  rfl

section Leaf

variable {x : Redeclared} {forms : List Datum} {f : Datum} {b : Int × Int}

theorem readBound_redeclare (hx : x.InRange) (hb : x.boundsOf f = some b) (hlt : b.1 < b.2) :
    Decls.readBound (Redeclared.redeclare f b) = .ok (some b) := by
  obtain ⟨h₁, h₂⟩ := Redeclared.boundsOf_inRange hx hb
  exact readBound_of_asInt rfl (asInt_toString h₁ _) (asInt_toString h₂ _) hlt

/-- The bound of the form as it was, and the default it gives. -/
theorem readBound_old (hb : x.boundsOf f = some b) (hfull : FullDomain f b) :
    ∃ old, Decls.readBound f = .ok old ∧ boundDefault old = declaredDefault f := by
  rcases Redeclared.boundsOf_length hb with hlen | hlen
  · refine ⟨none, ?_, ?_⟩
    · rw [Decls.readBound, if_neg (by omega)]
    · rw [declaredDefault, if_neg (by omega)]
      rfl
  · obtain ⟨lo, hi, hlo, hhi, hlt⟩ := hfull.2 hlen
    refine ⟨some (lo, hi), readBound_of_asInt hlen hlo hhi hlt, ?_⟩
    rw [declaredDefault, if_pos hlen, hlo]
    rfl

theorem mem_names (hf : f ∈ forms) (hleaf : f.head = "leaf") (hb : x.boundsOf f = some b) :
    (f.item 1).text ∈ x.names forms :=
  List.mem_map.mpr ⟨f, List.mem_filter.mpr ⟨hf, by simp [hleaf, hb]⟩, rfl⟩

theorem mem_changed (hf : f ∈ forms) (hleaf : f.head = "leaf") (hb : x.boundsOf f = some b)
    (hne : b.1 ≠ declaredDefault f) : (f.item 1).text ∈ x.changed forms :=
  List.mem_map.mpr ⟨f, List.mem_filter.mpr ⟨hf, by simp [hleaf, hb, hne]⟩, rfl⟩

theorem doLeaf_sim {pending : List String} {d d' : Decls}
    (h : SimDecls (x.changed forms) (x.names forms) pending d d') (hx : x.InRange)
    (hf : f ∈ forms) (hleaf : f.head = "leaf")
    (hfull : ∀ b, x.boundsOf f = some b → FullDomain f b) :
    LiftRel (SimDecls (x.changed forms) (x.names forms) pending) (d.doLeaf f)
      (d'.doLeaf (x.onForm f)) := by
  unfold Redeclared.onForm
  rw [if_pos hleaf]
  cases hb : x.boundsOf f with
  | none =>
    unfold Decls.doLeaf
    refine LiftRel.bind_same fun _ _ => LiftRel.bind_same fun name _ => ?_
    rw [h.frame]
    split
    · exact .error _
    · exact LiftRel.bind_same fun bound _ => .ok (h.append (fun _ => rfl) fun _ => rfl)
  | some b =>
    obtain ⟨old, hold, hdef⟩ := readBound_old hb (hfull b hb)
    have harg : arg (Redeclared.redeclare f b) 1 "leaf name" = arg f 1 "leaf name" := by
      have hlen : 1 < f.items.length := by
        rcases Redeclared.boundsOf_length hb with hlen | hlen <;> omega
      rw [arg_of_lt hlen]
      rfl
    unfold Decls.doLeaf
    rw [harg]
    refine LiftRel.bind_same fun d₁ hd₁ => LiftRel.bind_same fun name hname => ?_
    have hn : name = (f.item 1).text := by
      have hlen : 1 < f.items.length := by
        rcases Redeclared.boundsOf_length hb with hlen | hlen <;> omega
      rw [arg_of_lt hlen] at hd₁
      cases hd₁
      exact sym_text hname
    rw [h.frame]
    split
    · exact .error _
    · rw [hold, readBound_redeclare hx hb (hfull b hb).1]
      refine .ok (h.append (fun hnot => ?_) fun hnot => ?_)
      · exact absurd (hn ▸ mem_names hf hleaf hb) hnot
      · rw [hdef]
        by_contra hne
        exact hnot (hn ▸ mem_changed hf hleaf hb (Ne.symm hne))

end Leaf

/-! ## One form of the translator -/

/-- Where the pass makes no difference to a run. -/
structure Redeclared.Insensitive (x : Redeclared) (forms : List Datum) : Prop where
  domains : ∀ f ∈ forms, f.head = "leaf" → ∀ b, x.boundsOf f = some b → FullDomain f b
  words : ∀ f ∈ forms, f.head = "word" → ∀ n ∈ x.changed forms, n ∈ listed (f.items.drop 2)
  boxes : ∀ f ∈ forms, f.head = "full" → ∀ n ∈ x.names forms, n ∈ listed (f.items.drop 2)
  inits : InitsCover forms [] (x.changed forms)

theorem initsCover_nil : ∀ {fs : List Datum} {declared : List String}, InitsCover fs declared []
  | [], _ => rfl
  | _ :: _, _ => .inl rfl

theorem initsCover_keeps {f : Datum} {fs : List Datum} {declared pending : List String}
    (h : InitsCover (f :: fs) declared pending) (hl : f.head ≠ "leaf") (hi : f.head ≠ "init") :
    InitsCover fs declared pending := by
  rcases h with rfl | ⟨hf, -⟩ | ⟨-, h⟩ | ⟨hf, -⟩ | ⟨hf, -⟩
  · exact initsCover_nil
  · exact absurd hf hl
  · exact h
  · exact absurd hf hi
  · exact absurd hf hi

section Translator

variable {Q : Type} (P : Queries Q) {x : Redeclared} {forms : List Datum}

/-- The translators of the two runs, with the leaves declared so far and the leaves
whose base value may differ. -/
structure SimTranslator (x : Redeclared) (forms : List Datum) (declared pending : List String)
    (t t' : Decls × Q) : Prop where
  decls : SimDecls (x.changed forms) (x.names forms) pending t.1 t'.1
  queries : t'.2 = t.2
  unshaped : t.1.frame.top = none → pending = x.changed forms
  known : ∀ n ∈ declared, (t.1.frame.leaves.lookup n).isSome = true

/-- The same text and exception, and related states unless something is thrown. -/
def StepSim (R : Decls × Q → Decls × Q → Prop) (a b : (Decls × Q) × String × Option Thrown) :
    Prop :=
  a.2 = b.2 ∧ (a.2.2 = none → R a.1 b.1)

theorem declare_sim {R : Decls × Q → Decls × Q → Prop} {P' : Decls → Decls → Prop}
    {t t' : Decls × Q} {y y' : Except Thrown Decls} (h : LiftRel P' y y')
    (hR : ∀ d d', y = .ok d → P' d d' → R (d, t.2) (d', t'.2)) :
    StepSim R (declare t y) (declare t' y') := by
  cases h with
  | error e => exact ⟨rfl, nofun⟩
  | ok hab => exact ⟨rfl, fun _ => hR _ _ rfl hab⟩

theorem doLeaf_frame {d d' : Decls} {f : Datum} (h : d.doLeaf f = .ok d') :
    d'.frame = { d.frame with leaves := d.frame.leaves ++ [((f.item 1).text, ⟨false, 0⟩)] } := by
  unfold Decls.doLeaf at h
  obtain ⟨a, ha, h⟩ := bind_eq_ok.mp h
  obtain ⟨name, hname, h⟩ := bind_eq_ok.mp h
  have hitem : a = f.item 1 := by
    unfold arg at ha
    unfold Datum.item
    split at ha
    · next hd =>
      cases ha
      rw [List.getD_eq_getElem?_getD, hd]
      rfl
    · cases ha
  rw [sym_text hname, hitem] at h
  split at h
  · cases h
  · obtain ⟨bound, -, h⟩ := bind_eq_ok.mp h
    cases h
    rfl

theorem isSome_lookup_append {m : List (String × Place)} {n name : String} {pl : Place}
    (h : (m.lookup n).isSome = true ∨ n = name) :
    ((m ++ [(name, pl)]).lookup n).isSome = true := by
  rw [List.lookup_append, Option.isSome_or]
  rcases h with h | rfl
  · rw [h]
    rfl
  · simp

theorem simDecls_init_eq {changed redecl : List String} {d d' : Decls}
    (h : SimDecls changed redecl [] d d') : d.init = d'.init := h.init.eq

variable {t t' : Decls × Q} {declared pending : List String} {f : Datum} {fs : List Datum}

theorem doInit_sim (h : SimTranslator x forms declared pending t t')
    (hc : InitsCover (f :: fs) declared pending) (hf : f.head = "init") :
    ∃ pending', InitsCover fs declared pending' ∧
      StepSim (SimTranslator x forms declared pending') (doInit P t f) (doInit P t' f) := by
  have hframe := h.decls.frame
  have hq := h.queries
  unfold doInit
  rw [hframe, hq]
  by_cases htop : t.1.frame.top.isNone = true
  · refine ⟨[], initsCover_nil, ?_⟩
    rw [if_pos htop, if_pos htop]
    exact ⟨rfl, fun he => by cases he⟩
  · rw [if_neg htop, if_neg htop]
    by_cases hone : f.items.length = 1
    · refine ⟨pending, ?_, ?_⟩
      · rcases hc with rfl | ⟨hl, -⟩ | ⟨hk, -⟩ | ⟨-, -, hc⟩ | ⟨-, hitem, -⟩
        · exact initsCover_nil
        · rw [hf] at hl
          simp at hl
        · rw [keepsBase, hf] at hk
          simp at hk
        · exact hc
        · have hnone : f.item 1 = .atom "" 0 := by
            unfold Datum.item
            rw [List.getD_eq_default _ _ (by omega)]
          rw [hnone] at hitem
          simp [Datum.items] at hitem
      · rw [if_pos hone, if_pos hone]
        exact ⟨rfl, fun _ => h⟩
    · rw [if_neg hone, if_neg hone]
      by_cases hpairs : t.1.frame.isPairs f = true
      · refine ⟨pending.filter fun n => decide (n ∉ listed f.items.tail), ?_, ?_⟩
        · rcases hc with rfl | ⟨hl, -⟩ | ⟨hk, -⟩ | ⟨-, hlen, -⟩ | ⟨-, -, -, -, hc⟩
          · exact initsCover_nil
          · rw [hf] at hl
            simp at hl
          · rw [keepsBase, hf] at hk
            simp at hk
          · exact absurd hlen hone
          · exact hc
        · rw [if_pos hpairs, if_pos hpairs]
          split
          · exact ⟨rfl, fun he => by cases he⟩
          · refine declare_sim h.decls.setInit fun d d' hd hdd' => ?_
            unfold Decls.setInit at hd
            obtain ⟨w, -, hd⟩ := bind_eq_ok.mp hd
            cases hd
            refine ⟨hdd', hq, fun hn => ?_, h.known⟩
            rw [show t.1.frame.top = none from hn] at htop
            exact absurd rfl htop
      · have hnil : pending = [] := by
          rcases hc with rfl | ⟨hl, -⟩ | ⟨hk, -⟩ | ⟨-, hlen, -⟩ | ⟨-, hlen, hatom, hmem, -⟩
          · rfl
          · rw [hf] at hl
            simp at hl
          · rw [keepsBase, hf] at hk
            simp at hk
          · exact absurd hlen hone
          · refine absurd ?_ hpairs
            rw [Frame.isPairs, hlen, hatom, h.known _ hmem]
            rfl
        subst hnil
        refine ⟨[], initsCover_nil, ?_⟩
        rw [if_neg hpairs, if_neg hpairs, simDecls_init_eq h.decls]
        exact ⟨rfl, fun _ => ⟨h.decls, rfl, h.unshaped, h.known⟩⟩

/-- One form, as it was and as the pass leaves it. -/
theorem translate_sim (hx : x.InRange) (hins : x.Insensitive forms) (hf : f ∈ forms)
    (hxreach : f.head ≠ "xreach") (h : SimTranslator x forms declared pending t t')
    (hc : InitsCover (f :: fs) declared pending) :
    ∃ declared' pending', InitsCover fs declared' pending' ∧
      StepSim (SimTranslator x forms declared' pending') (translate P t f)
        (translate P t' (x.onForm f)) := by
  by_cases hleaf : f.head = "leaf"
  · have hhead : (x.onForm f).head = "leaf" := (onForm_head x f).trans hleaf
    unfold translate
    rw [if_pos hleaf, if_pos hhead]
    have hsim := doLeaf_sim h.decls hx hf hleaf (hins.domains f hf hleaf)
    rcases hc with rfl | ⟨-, hc⟩ | ⟨hk, -⟩ | ⟨hi, -⟩ | ⟨hi, -⟩
    · refine ⟨declared, [], initsCover_nil, declare_sim hsim fun d d' hd hdd' => ?_⟩
      refine ⟨hdd', h.queries, fun hn => h.unshaped ?_, fun n hn => ?_⟩
      · rw [doLeaf_frame hd] at hn
        exact hn
      · rw [doLeaf_frame hd]
        exact isSome_lookup_append (.inl (h.known n hn))
    · refine ⟨_, _, hc, declare_sim hsim fun d d' hd hdd' => ?_⟩
      refine ⟨hdd', h.queries, fun hn => h.unshaped ?_, fun n hn => ?_⟩
      · rw [doLeaf_frame hd] at hn
        exact hn
      · rw [doLeaf_frame hd]
        rcases List.mem_cons.mp hn with rfl | hn
        · exact isSome_lookup_append (.inr rfl)
        · exact isSome_lookup_append (.inl (h.known n hn))
    · rw [keepsBase, hleaf] at hk
      simp at hk
    · rw [hleaf] at hi
      simp at hi
    · rw [hleaf] at hi
      simp at hi
  · have hsame : x.onForm f = f := by
      unfold Redeclared.onForm
      rw [if_neg hleaf]
    rw [hsame]
    by_cases hinit : f.head = "init"
    · obtain ⟨pending', hc', hstep⟩ := doInit_sim P h hc hinit
      refine ⟨declared, pending', hc', ?_⟩
      unfold translate
      simpa [hinit] using hstep
    · refine ⟨declared, pending, initsCover_keeps hc hleaf hinit, ?_⟩
      have hframe := h.decls.frame
      have hq := h.queries
      unfold translate
      rw [if_neg hleaf, if_neg hleaf]
      split
      · refine declare_sim h.decls.doArray fun d d' hd hdd' => ?_
        unfold Decls.doArray at hd
        obtain ⟨fr, hfr, hd⟩ := bind_eq_ok.mp hd
        cases hd
        obtain ⟨hl, -, htop⟩ := Frame.doArray_keeps hfr
        refine ⟨hdd', hq, fun hn => h.unshaped (htop ▸ hn), fun n hn => ?_⟩
        dsimp only
        rw [hl]
        exact h.known n hn
      · split
        · refine declare_sim (h.decls.doShape h.unshaped) fun d d' hd hdd' => ?_
          unfold Decls.doShape at hd
          obtain ⟨fr, hfr, hd⟩ := bind_eq_ok.mp hd
          cases hd
          obtain ⟨htop, hknown⟩ := Frame.doShape_known hfr
          refine ⟨hdd', hq, fun hn => ?_, fun n hn => (hknown n).trans (h.known n hn)⟩
          rw [show fr.top = none from hn] at htop
          cases htop
        · rw [hframe, hq]
          split
          · exact ⟨rfl, fun _ => ⟨h.decls, rfl, h.unshaped, h.known⟩⟩
          · split
            · next hword =>
              rw [h.decls.wordOf (hins.words f hf hword)]
              split
              · exact ⟨rfl, nofun⟩
              · exact ⟨rfl, fun _ => ⟨h.decls, rfl, h.unshaped, h.known⟩⟩
            · split
              · next hfull =>
                rw [h.decls.boxOf (hins.boxes f hf hfull)]
                split
                · exact ⟨rfl, nofun⟩
                · exact ⟨rfl, fun _ => ⟨h.decls, rfl, h.unshaped, h.known⟩⟩
              · next ha hs he hw hb =>
                -- any other form reads the base word, which is one by now
                have hnil : pending = [] := by
                  rcases hc with rfl | ⟨hl, -⟩ | ⟨hk, -⟩ | ⟨hi, -⟩ | ⟨hi, -⟩
                  · rfl
                  · exact absurd hl hleaf
                  · rw [keepsBase] at hk
                    simp only [not_or] at he
                    simp [ha, hs, he.1, he.2, hw, hb, hxreach] at hk
                  · exact absurd hi hinit
                  · exact absurd hi hinit
                subst hnil
                rw [simDecls_init_eq h.decls]
                exact ⟨rfl, fun _ => ⟨h.decls, rfl, h.unshaped, h.known⟩⟩

end Translator

end LibHSC.Surface
