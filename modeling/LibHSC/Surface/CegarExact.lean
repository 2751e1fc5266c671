import LibHSC.Surface.CegarEvent
import LibHSC.Cegar.Profile
import LibHSC.Xpl.Engine
import Mathlib.Data.List.Sections

/-!
The bridge is exact: the product of the leaves it builds and the explicit engine
on the same specification have the same reachable valuations and the same steps,
and the monitor is the tuple of the property leaves, bad where every atom holds.
-/

namespace LibHSC.Surface

open Lia Xpl

/-! ## Domains and graphs -/

/-- The values of a declared window, each once, the seed's first. -/
structure Domain.Over (dom : Domain) (v₀ : Int) : Prop where
  nodup : dom.valueOf.Nodup
  mem : ∀ v, v ∈ dom.valueOf ↔ dom.lo ≤ v ∧ v < dom.hi
  first : dom.valueOf[0]? = some v₀

theorem mem_valuesOf {lo hi v : Int} : v ∈ Xpl.valuesOf lo hi ↔ lo ≤ v ∧ v < hi := by
  unfold Xpl.valuesOf
  rw [List.mem_map]
  constructor
  · rintro ⟨k, hk, rfl⟩
    have := List.mem_range.mp hk
    omega
  · rintro ⟨h1, h2⟩
    exact ⟨(v - lo).toNat, List.mem_range.mpr (by omega), by omega⟩

theorem nodup_valuesOf (lo hi : Int) : (Xpl.valuesOf lo hi).Nodup := by
  refine List.Nodup.map (fun a b h => ?_) List.nodup_range
  simpa using h

theorem buildDomain_over {s : Spec} {seed : Xpl.Word} {p : Nat} {dom : Domain}
    (h : buildDomain s seed p = .ok dom) : dom.Over (seed.getD p 0) := by
  unfold buildDomain at h
  split at h
  · cases h
  · next lo hi _ =>
    dsimp only at h
    split at h
    · cases h
    · next hin =>
      cases h
      refine ⟨?_, fun v => ?_, rfl⟩
      · refine List.nodup_cons.mpr ⟨by simp, (nodup_valuesOf lo hi).filter _⟩
      · rw [List.mem_cons, List.mem_filter, mem_valuesOf]
        simp only [decide_eq_true_eq]
        constructor
        · rintro (rfl | h)
          · omega
          · exact h.1
        · intro h
          by_cases hv : v = seed.getD p 0
          · exact .inl hv
          · exact .inr ⟨h, hv⟩

theorem Domain.Over.getElem?_iff {dom : Domain} {v₀ v : Int} (hdom : dom.Over v₀)
    (hv : v ∈ dom.valueOf) {q : Nat} : dom.valueOf[q]? = some v ↔ q = dom.valueOf.idxOf v := by
  have hlt := List.idxOf_lt_length_of_mem hv
  have hidx : dom.valueOf[dom.valueOf.idxOf v]? = some v := by
    rw [List.getElem?_eq_getElem hlt, List.getElem_idxOf]
  constructor
  · intro h
    have hq := (List.getElem?_eq_some_iff.mp h).1
    exact (List.getElem?_inj hq hdom.nodup).mp (h.trans hidx.symm)
  · rintro rfl
    exact hidx

section Graph

variable {ev : LocalEvent} {p : Nat} {dom : Domain} {seed : Xpl.Word} {v₀ : Int}

theorem guardsHold_spec {env : Xpl.Word} {bs : List BExpr} : ∀ {r : Bool},
    guardsHold ev env bs = .ok r →
    (r = true ↔ ∀ b ∈ bs, Xpl.evalBool env b = .ok .yes) := by
  induction bs with
  | nil =>
    intro r h
    cases h
    simp
  | cons b bs ih =>
    intro r h
    rw [guardsHold] at h
    rw [List.forall_mem_cons]
    split at h
    · cases h
    · cases h
    · next hno =>
      cases h
      simp [hno]
    · next hyes =>
      rw [ih h, hyes]
      simp

theorem LocalMove.unique {v u u' : Int} (h : LocalMove ev seed p v u)
    (h' : LocalMove ev seed p v u') : u = u' := by
  have hacts := h.acts
  rw [h'.acts] at hacts
  exact (Except.ok.inj hacts).symm

/-- Either a guard of the leaf fails, or the move of the leaf stays in the domain. -/
theorem localStep_cases (hdom : dom.Over v₀) {v : Int} (hv : v ∈ dom.valueOf) {o : Option Nat}
    (h : localStep ev p dom seed v = .ok o) :
    (o = none ∧ ∀ u, ¬ LocalMove ev seed p v u) ∨
      ∃ u ∈ dom.valueOf, o = some (dom.valueOf.idxOf u) ∧ LocalMove ev seed p v u := by
  obtain ⟨r, hr, h⟩ := bind_eq_ok.mp h
  have hguards := guardsHold_spec hr
  cases r with
  | false =>
    cases h
    exact .inl ⟨rfl, fun u hmove => absurd (hguards.mpr hmove.guards) (by simp)⟩
  | true =>
    rw [if_pos rfl] at h
    obtain ⟨u, hu, h⟩ := bind_eq_ok.mp h
    split at h
    · cases h
    · next hin =>
      cases h
      refine .inr ⟨u, ?_, rfl, hguards.mp rfl, hu⟩
      by_cases hacts : ev.actsAt p = []
      · rw [hacts] at hu
        cases hu
        exact hv
      · refine (hdom.mem u).mpr ?_
        have := not_and.mp hin hacts
        omega

/-- The successor in a local graph is the move of the leaf, and no move leaves the domain. -/
theorem localStep_spec (hdom : dom.Over v₀) {v : Int} (hv : v ∈ dom.valueOf) {o : Option Nat}
    (h : localStep ev p dom seed v = .ok o) (v' : Int) :
    LocalMove ev seed p v v' ↔ ∃ q', o = some q' ∧ dom.valueOf[q']? = some v' := by
  rcases localStep_cases hdom hv h with ⟨rfl, hnone⟩ | ⟨u, hu, rfl, hmove⟩
  · exact iff_of_false (hnone v') (by simp)
  · have hidx := (hdom.getElem?_iff hu).mpr rfl
    constructor
    · intro hmove'
      exact ⟨_, rfl, hmove.unique hmove' ▸ hidx⟩
    · rintro ⟨q', hq', hv'⟩
      cases hq'
      rw [hidx] at hv'
      exact Option.some.inj hv' ▸ hmove

/-- A graph over the whole domain, whose edges are the moves of the leaf. -/
structure GraphOf (ev : LocalEvent) (seed : Xpl.Word) (p : Nat) (dom : Domain)
    (g : List (Option Nat)) : Prop where
  edge : ∀ q v, dom.valueOf[q]? = some v → ∀ v', LocalMove ev seed p v v' ↔
    ∃ q', g.getD q none = some q' ∧ dom.valueOf[q']? = some v'
  target : ∀ q, some q ∈ g → q < dom.valueOf.length

theorem localGraph_spec (hdom : dom.Over v₀) {g : List (Option Nat)}
    (h : localGraph ev p dom seed = .ok g) : GraphOf ev seed p dom g := by
  have hall := mapM_eq_ok h
  refine ⟨fun q v hq => ?_, fun q hq => ?_⟩
  · have hlt := (List.getElem?_eq_some_iff.mp hq).1
    have hlt' : q < g.length := hall.length_eq ▸ hlt
    have hstep := (List.forall₂_iff_get.mp hall).2 q hlt hlt'
    have hv : dom.valueOf.get ⟨q, hlt⟩ = v := (List.getElem?_eq_some_iff.mp hq).2
    rw [hv] at hstep
    have hget : g.getD q none = g.get ⟨q, hlt'⟩ := by simp [hlt']
    rw [hget]
    exact localStep_spec hdom (List.mem_of_getElem? hq) hstep
  · obtain ⟨v, hv, hstep⟩ := forall₂_mem_right hall hq
    rcases localStep_cases hdom hv hstep with ⟨h, -⟩ | ⟨u, hu, h, -⟩
    · cases h
    · cases h
      exact List.idxOf_lt_length_of_mem hu

end Graph

/-! ## The compiled events -/

/-- The fallback of a position outside the frontier. -/
def domainAt (doms : List Domain) (p : Nat) : Domain := doms.getD p ⟨0, 0, []⟩

/-- The graphs of an event, one for each leaf it touches. -/
structure Compiled (seed : Xpl.Word) (doms : List Domain) (ev : LocalEvent) (eg : EvGraphs) :
    Prop where
  leaves : eg.perLeaf.map Prod.fst = ev.touched
  graphs : ∀ x ∈ eg.perLeaf, GraphOf ev seed x.1 (domainAt doms x.1) x.2

/-- The domains of the leaves, over the values of the seed. -/
def Domains (seed : Xpl.Word) (doms : List Domain) : Prop :=
  ∀ p < seed.length, (domainAt doms p).Over (seed.getD p 0)

theorem LocalEvent.mem_touched {ev : LocalEvent} {p : Nat} :
    p ∈ ev.touched ↔ p ∈ ev.guards.map Prod.fst ∨ p ∈ ev.acts.map Prod.fst := by
  rw [LocalEvent.touched, mem_sortPositions, List.mem_append]

theorem Mirrors.touched_lt {n : Nat} {ev : LocalEvent} {guard : BExpr} {kids : List Xpl.Term}
    (hm : Mirrors n ev guard kids) {p : Nat} (hp : p ∈ ev.touched) : p < n := by
  rcases LocalEvent.mem_touched.mp hp with h | h
  · obtain ⟨x, hx, rfl⟩ := List.mem_map.mp h
    exact (hm.guards x hx).1
  · obtain ⟨x, hx, rfl⟩ := List.mem_map.mp h
    exact (hm.acts x hx).1

theorem graphsOf_compiled {seed : Xpl.Word} {doms : List Domain} (hdoms : Domains seed doms)
    {ev : LocalEvent} (hev : ∀ p ∈ ev.touched, p < seed.length) {eg : EvGraphs}
    (h : graphsOf seed doms ev = .ok eg) : Compiled seed doms ev eg := by
  obtain ⟨perLeaf, hper, h⟩ := bind_eq_ok.mp h
  cases h
  have hall := mapM_eq_ok hper
  have hpair : List.Forall₂ (fun p x => x.1 = p ∧
      localGraph ev p (domainAt doms p) seed = .ok x.2) ev.touched perLeaf := by
    refine hall.imp fun p x hx => ?_
    obtain ⟨g, hg, hx⟩ := bind_eq_ok.mp hx
    cases hx
    exact ⟨rfl, hg⟩
  refine ⟨?_, fun x hx => ?_⟩
  · have hfst : List.Forall₂ (· = ·) (perLeaf.map Prod.fst) ev.touched := by
      rw [List.forall₂_map_left_iff]
      exact hpair.flip.imp fun x p h => h.1
    rwa [List.forall₂_eq_eq_eq] at hfst
  · obtain ⟨p, hp, rfl, hg⟩ := forall₂_mem_right hpair hx
    exact localGraph_spec (hdoms _ (hev _ hp)) hg

section Compile

variable {R : ExprIds} {s : Spec} {seed : Xpl.Word} {doms : List Domain}

/-- Every event is read; one that is not dead has its graphs, and there are no others. -/
theorem compileEvents_spec (hdoms : Domains seed doms)
    (htouched : ∀ src ev, readEvent R s.scope seed src = .ok ev → ∀ p ∈ ev.touched,
      p < seed.length) : ∀ {srcs : List Source} {compiled : List EvGraphs},
    compileEvents R s seed doms srcs = .ok compiled →
    (∀ src ∈ srcs, ∃ ev, readEvent R s.scope seed src = .ok ev ∧
      (ev.dead = false → ∃ eg ∈ compiled, Compiled seed doms ev eg)) ∧
    ∀ eg ∈ compiled, ∃ src ∈ srcs, ∃ ev, readEvent R s.scope seed src = .ok ev ∧
      ev.dead = false ∧ Compiled seed doms ev eg := by
  intro srcs
  induction srcs with
  | nil =>
    intro compiled h
    cases h
    simp
  | cons src srcs ih =>
    intro compiled h
    rw [compileEvents] at h
    obtain ⟨ev, hev, h⟩ := bind_eq_ok.mp h
    split at h
    · next hdead =>
      obtain ⟨h1, h2⟩ := ih h
      refine ⟨List.forall_mem_cons.mpr ⟨⟨ev, hev, fun h => ?_⟩, h1⟩, fun eg heg => ?_⟩
      · rw [hdead] at h
        cases h
      · obtain ⟨src', hsrc', h2⟩ := h2 eg heg
        exact ⟨src', List.mem_cons_of_mem _ hsrc', h2⟩
    · next hdead =>
      obtain ⟨eg, heg, h⟩ := bind_eq_ok.mp h
      obtain ⟨rest, hrest, h⟩ := bind_eq_ok.mp h
      cases h
      obtain ⟨h1, h2⟩ := ih hrest
      have hc := graphsOf_compiled hdoms (htouched src ev hev) heg
      refine ⟨List.forall_mem_cons.mpr ⟨⟨ev, hev, fun _ => ⟨eg, by simp, hc⟩⟩,
        fun src' hsrc' => ?_⟩, fun eg' heg' => ?_⟩
      · obtain ⟨ev', hev', hlive⟩ := h1 src' hsrc'
        refine ⟨ev', hev', fun hd => ?_⟩
        obtain ⟨eg', heg', hc'⟩ := hlive hd
        exact ⟨eg', List.mem_cons_of_mem _ heg', hc'⟩
      · rcases List.mem_cons.mp heg' with rfl | heg'
        · exact ⟨src, by simp, ev, hev, by simpa using hdead, hc⟩
        · obtain ⟨src', hsrc', h2⟩ := h2 eg' heg'
          exact ⟨src', List.mem_cons_of_mem _ hsrc', h2⟩

end Compile

/-! ## The leaves -/

section Leaf

variable {compiled : List EvGraphs} {p : Nat} {dom : Domain}

theorem mem_lettersOf {g : List (Option Nat)} :
    g ∈ lettersOf compiled p ↔ ∃ eg ∈ compiled, (p, g) ∈ eg.perLeaf := by
  rw [lettersOf, (List.perm_insertionSort _ _).mem_iff, List.mem_dedup, List.mem_filterMap]
  constructor
  · rintro ⟨⟨p', g'⟩, hx, h⟩
    split at h
    · next hp =>
      cases h
      obtain ⟨eg, heg, hx⟩ := List.mem_flatMap.mp hx
      exact ⟨eg, heg, hp ▸ hx⟩
    · cases h
  · rintro ⟨eg, heg, hx⟩
    exact ⟨(p, g), List.mem_flatMap.mpr ⟨eg, heg, hx⟩, if_pos rfl⟩

/-- The graphs that have a letter, in the order in which they are written. -/
theorem columnOf_snoc (letters : List (List (Option Nat))) (g : List (Option Nat)) (a : Nat) :
    columnOf (letters ++ [g]) a = if letter letters.length = a then g else columnOf letters a := by
  unfold columnOf
  rw [List.zipIdx_append, List.filterMap_append]
  split
  · next ha => simp [ha]
  · next ha => simp [ha]

/-- While the ranks are letters, each graph has a column of its own. -/
theorem columnOf_getElem {letters : List (List (Option Nat))} (hfew : letters.length ≤ 65536)
    {a : Nat} (ha : a < letters.length) : columnOf letters a = letters[a] := by
  induction letters using List.reverseRecOn with
  | nil => cases ha
  | append_singleton letters g ih =>
    rw [List.length_append, List.length_singleton] at hfew ha
    have hletter : letter letters.length = letters.length := Nat.mod_eq_of_lt (by omega)
    rw [columnOf_snoc, hletter]
    split
    · next heq =>
      subst heq
      simp
    · next hne =>
      have hlt : a < letters.length := by omega
      rw [ih (by omega) hlt, List.getElem_append_left hlt]

/-- A letter steps by what its column keeps. -/
theorem buildLeaf_step_column {q a : Nat} (hq : q < dom.valueOf.length)
    (ha : a < (lettersOf compiled p).length) :
    (buildLeaf compiled p dom).step q a = (columnOf (lettersOf compiled p) a).getD q none := by
  unfold Cegar.Lts.step Cegar.entry
  show (((List.range dom.valueOf.length).flatMap fun st =>
    (List.range (lettersOf compiled p).length).map fun a =>
      (columnOf (lettersOf compiled p) a).getD st none)[q
        * (lettersOf compiled p).length + a]?).join
      = _
  rw [Refinement.getElem?_flatMap_rows (by simp) _ ha, List.getElem?_range hq]
  rw [Option.bind_some, List.getElem?_map, List.getElem?_range ha]
  rfl

/-- The letter of a graph steps by the graph. -/
theorem buildLeaf_step (hfew : (lettersOf compiled p).length ≤ 65536) {g : List (Option Nat)}
    (hg : g ∈ lettersOf compiled p) {q : Nat} (hq : q < dom.valueOf.length) :
    (buildLeaf compiled p dom).step q (letter ((lettersOf compiled p).idxOf g)) =
      g.getD q none := by
  have hlt := List.idxOf_lt_length_of_mem hg
  have hletter : letter ((lettersOf compiled p).idxOf g) = (lettersOf compiled p).idxOf g :=
    Nat.mod_eq_of_lt (by omega)
  rw [hletter, buildLeaf_step_column hq hlt, columnOf_getElem hfew hlt, List.getElem_idxOf]

theorem mem_columnOf {letters : List (List (Option Nat))} {a : Nat} {o : Option Nat}
    (h : o ∈ columnOf letters a) : ∃ g ∈ letters, o ∈ g := by
  induction letters using List.reverseRecOn with
  | nil => cases h
  | append_singleton letters g ih =>
    rw [columnOf_snoc] at h
    split at h
    · exact ⟨g, List.mem_append_right _ (List.mem_singleton.mpr rfl), h⟩
    · obtain ⟨g', hg', ho⟩ := ih h
      exact ⟨g', List.mem_append_left _ hg', ho⟩

theorem buildLeaf_wf {v₀ : Int} (hdom : dom.Over v₀)
    (htarget : ∀ g ∈ lettersOf compiled p, ∀ q, some q ∈ g → q < dom.valueOf.length) :
    (buildLeaf compiled p dom).WF where
  pos := (List.getElem?_eq_some_iff.mp hdom.first).1
  size := by
    show List.length (List.flatMap _ _) = _
    rw [Refinement.length_flatMap_rows (fun _ => List.length_map _), List.length_range,
      List.length_range]
    rfl
  target := by
    intro q hq
    obtain ⟨st, -, hq⟩ := List.mem_flatMap.mp hq
    obtain ⟨a, -, hq⟩ := List.mem_map.mp hq
    have hmem : some q ∈ columnOf (lettersOf compiled p) a := by
      rw [List.getD_eq_getElem?_getD] at hq
      cases hst : (columnOf (lettersOf compiled p) a)[st]? with
      | none =>
        rw [hst] at hq
        cases hq
      | some o =>
        rw [hst] at hq
        exact hq ▸ List.mem_of_getElem? hst
    obtain ⟨g, hg, hmem⟩ := mem_columnOf hmem
    exact htarget g hg q hmem
  values := rfl

end Leaf

/-! ## The product -/

theorem letterFor_of_mem {name : String} {support : List (Nat × Nat)} {i a : Nat}
    (hnd : (support.map Prod.fst).Nodup) (h : (i, a) ∈ support) :
    Cegar.Event.letterFor ⟨name, support⟩ i = some a := by
  induction support with
  | nil => cases h
  | cons x support ih =>
    obtain ⟨l, b⟩ := x
    obtain ⟨hl, hnd⟩ := List.nodup_cons.mp hnd
    rw [Cegar.Event.letterFor_cons]
    rcases List.mem_cons.mp h with h | h
    · cases h
      rw [if_pos rfl]
    · rw [if_neg, ih hnd h]
      rintro rfl
      exact hl (List.mem_map.mpr ⟨_, h, rfl⟩)

theorem nodup_sortPositions (ps : List Nat) : (sortPositions ps).Nodup :=
  (List.perm_insertionSort _ _).nodup_iff.mpr ps.nodup_dedup

theorem sortPositions_lt (ps : List Nat) : (sortPositions ps).Pairwise (· < ·) := by
  have hle : (sortPositions ps).Pairwise (· ≤ ·) := List.pairwise_insertionSort _ _
  exact (hle.and (nodup_sortPositions ps)).imp fun h => Nat.lt_of_le_of_ne h.1 h.2

/-- The leaves and the events of a model are the bridge's. -/
structure OfBridge (compiled : List EvGraphs) (doms : List Domain) (n : Nat) (m : Cegar.Model) :
    Prop where
  leaves : m.leaves = (List.range n).map fun p => buildLeaf compiled p (domainAt doms p)
  events : m.events = compiled.map (buildCegarEvent compiled)

section Product

variable {compiled : List EvGraphs} {doms : List Domain} {n : Nat} {m : Cegar.Model}
  (hof : OfBridge compiled doms n m)

include hof

theorem OfBridge.length : m.leaves.length = n := by
  rw [hof.leaves, List.length_map, List.length_range]

theorem OfBridge.leaf {p : Nat} (hp : p < n) :
    m.leaf p = buildLeaf compiled p (domainAt doms p) := by
  rw [Cegar.Model.leaf, hof.leaves]
  simp [hp]

theorem OfBridge.event {e : Nat} {eg : EvGraphs} (he : compiled[e]? = some eg) :
    m.event e = buildCegarEvent compiled eg := by
  rw [Cegar.Model.event, hof.events, List.getD_eq_getElem?_getD, List.getElem?_map, he]
  rfl

variable {seed : Xpl.Word} {ev : LocalEvent} {eg : EvGraphs}

omit hof in
theorem select_eq_nil {α : Type} {p : Nat} {xs : List (Nat × α)} (h : p ∉ xs.map Prod.fst) :
    xs.filterMap (fun x => if x.1 = p then some x.2 else none) = [] := by
  rw [List.filterMap_eq_nil_iff]
  intro x hx
  refine if_neg ?_
  rintro rfl
  exact h (List.mem_map_of_mem hx)

omit hof in
theorem Compiled.nodup (hc : Compiled seed doms ev eg) : (eg.perLeaf.map Prod.fst).Nodup :=
  hc.leaves ▸ nodup_sortPositions _

omit hof in
theorem buildCegarEvent_fst :
    (buildCegarEvent compiled eg).support.map Prod.fst = eg.perLeaf.map Prod.fst := by
  simp [buildCegarEvent]

/-- The leaf's step on the event's letter is the leaf's move; a leaf the event does not
touch stays. -/
theorem OfBridge.move_iff (hc : Compiled seed doms ev eg) {e : Nat} (he : compiled[e]? = some eg)
    {p : Nat} (hp : p < n) (hfew : (lettersOf compiled p).length ≤ 65536) {v₀ : Int}
    (hdom : (domainAt doms p).Over v₀) {q : Nat} {v : Int}
    (hq : (domainAt doms p).valueOf[q]? = some v) (v' : Int) :
    LocalMove ev seed p v v' ↔ ∃ q',
      Explore.run (m.leaf p).step q ((m.event e).letterFor p).toList = some q' ∧
        (domainAt doms p).valueOf[q']? = some v' := by
  have hlt := (List.getElem?_eq_some_iff.mp hq).1
  rw [hof.leaf hp, hof.event he]
  by_cases htouch : p ∈ ev.touched
  · rw [← hc.leaves] at htouch
    obtain ⟨⟨p', g⟩, hx, hp'⟩ := List.mem_map.mp htouch
    obtain rfl : p' = p := hp'
    have hg : g ∈ lettersOf compiled p' := mem_lettersOf.mpr ⟨eg, List.mem_of_getElem? he, hx⟩
    have hletter : (buildCegarEvent compiled eg).letterFor p' =
        some (letter ((lettersOf compiled p').idxOf g)) :=
      letterFor_of_mem (buildCegarEvent_fst ▸ hc.nodup) (List.mem_map.mpr ⟨(p', g), hx, rfl⟩)
    rw [hletter, Option.toList_some, Explore.run_singleton, buildLeaf_step hfew hg hlt]
    exact (hc.graphs _ hx).edge q v hq v'
  · have hnone : (buildCegarEvent compiled eg).letterFor p = none := by
      have hnot : p ∉ (buildCegarEvent compiled eg).support.map Prod.fst := by
        rwa [buildCegarEvent_fst, hc.leaves]
      exact Cegar.letterFor_eq_none hnot
    obtain ⟨hg, ha⟩ := not_or.mp (mt LocalEvent.mem_touched.mpr htouch)
    have hguards : ev.guardsAt p = [] := select_eq_nil hg
    have hacts : ev.actsAt p = [] := select_eq_nil ha
    rw [hnone]
    constructor
    · intro hmove
      have h := hmove.acts
      rw [hacts] at h
      cases h
      exact ⟨q, rfl, hq⟩
    · rintro ⟨q', hq', hv'⟩
      cases hq'
      rw [hq] at hv'
      cases hv'
      exact ⟨by simp [hguards], by rw [hacts]; rfl⟩

theorem OfBridge.leaves_wf (hdoms : ∀ p < n, ∃ v₀, (domainAt doms p).Over v₀)
    (hlive : ∀ eg ∈ compiled, ∃ ev, Compiled seed doms ev eg) : ∀ l ∈ m.leaves, l.WF := by
  intro l hl
  rw [hof.leaves] at hl
  obtain ⟨p, hp, rfl⟩ := List.mem_map.mp hl
  obtain ⟨v₀, hdom⟩ := hdoms p (List.mem_range.mp hp)
  refine buildLeaf_wf hdom fun g hg q hq => ?_
  obtain ⟨eg, heg, hx⟩ := mem_lettersOf.mp hg
  obtain ⟨ev, hc⟩ := hlive eg heg
  exact (hc.graphs _ hx).target q hq

theorem OfBridge.events_wf
    (hlive : ∀ eg ∈ compiled, ∃ ev, Compiled seed doms ev eg ∧ ∀ p ∈ ev.touched, p < n) :
    ∀ e ∈ m.events, e.WF m := by
  intro e he
  rw [hof.events] at he
  obtain ⟨eg, heg, rfl⟩ := List.mem_map.mp he
  obtain ⟨ev, hc, hlt⟩ := hlive eg heg
  have hleaf : ∀ x ∈ eg.perLeaf, x.1 < n :=
    fun x hx => hlt _ (hc.leaves ▸ List.mem_map_of_mem hx)
  refine ⟨buildCegarEvent_fst ▸ hc.nodup, fun x hx => ?_, fun x hx => ?_⟩
  · obtain ⟨y, hy, rfl⟩ := List.mem_map.mp hx
    rw [hof.length]
    exact hleaf y hy
  · obtain ⟨y, hy, rfl⟩ := List.mem_map.mp hx
    rw [hof.leaf (hleaf y hy)]
    exact (Nat.mod_le _ _).trans_lt (List.idxOf_lt_length_of_mem (mem_lettersOf.mpr ⟨eg, heg, hy⟩))

end Product

/-! ## The monitor -/

section Monitor

variable {m : Cegar.Model}

/-- Every tuple of states of the property leaves. -/
def tupleSpace (m : Cegar.Model) : List (List Nat) :=
  (m.propLeaves.map fun i => List.range (m.leaf i).nStates).sections

theorem mem_tupleSpace {t : List Nat} :
    t ∈ tupleSpace m ↔ List.Forall₂ (fun q i => q < (m.leaf i).nStates) t m.propLeaves := by
  rw [tupleSpace, List.mem_sections, List.forall₂_map_right_iff]
  simp only [List.mem_range]

theorem leaf_wf (hleaves : ∀ l ∈ m.leaves, l.WF) {i : Nat} (hi : i < m.leaves.length) :
    (m.leaf i).WF := by
  have hget : m.leaf i = m.leaves[i] := by simp [Cegar.Model.leaf, hi]
  rw [hget]
  exact hleaves _ (List.getElem_mem hi)

/-- A step of the property leaves: each runs the letter the event has for it, if any. -/
theorem tupleStep_eq (e : Nat) (t : List Nat) :
    m.tupleStep e t = (m.propLeaves.zip t).mapM fun x =>
      Explore.run (m.leaf x.1).step x.2 ((m.event e).letterFor x.1).toList := by
  unfold Cegar.Model.tupleStep
  congr 1
  funext x
  cases (m.event e).letterFor x.1 with
  | none => rfl
  | some a => rw [Option.toList_some, Explore.run_singleton]

theorem tupleStep_mem (hleaves : ∀ i ∈ m.propLeaves, (m.leaf i).WF) {e : Nat} {t t' : List Nat}
    (ht : t ∈ tupleSpace m) (h : m.tupleStep e t = some t') : t' ∈ tupleSpace m := by
  rw [mem_tupleSpace] at ht ⊢
  rw [tupleStep_eq] at h
  generalize m.propLeaves = ps at ht h hleaves
  induction ht generalizing t' with
  | nil =>
    cases h
    exact .nil
  | cons hq hrest ih =>
    next q i t ps =>
    rw [List.zip_cons_cons, List.mapM_cons] at h
    obtain ⟨q', hq', h⟩ := Option.bind_eq_some_iff.mp h
    obtain ⟨rest, hrest', h⟩ := Option.bind_eq_some_iff.mp h
    cases h
    obtain ⟨hi, hleaves⟩ := List.forall_mem_cons.mp hleaves
    refine .cons ?_ (ih hrest' hleaves)
    cases hl : (m.event e).letterFor i with
    | none =>
      rw [hl] at hq'
      cases hq'
      exact hq
    | some a =>
      rw [hl, Option.toList_some, Explore.run_singleton] at hq'
      exact hi.step_lt hq'

theorem zero_mem_tupleSpace (hleaves : ∀ i ∈ m.propLeaves, (m.leaf i).WF) :
    List.replicate m.propLeaves.length 0 ∈ tupleSpace m := by
  rw [mem_tupleSpace, List.forall₂_iff_get]
  refine ⟨by simp, fun k _ h => ?_⟩
  simpa using (hleaves _ (List.get_mem _ ⟨k, h⟩)).pos

theorem reachTuples_spec (hleaves : ∀ i ∈ m.propLeaves, (m.leaf i).WF)
    {tuples : List (List Nat)} (h : reachTuples m = some tuples) :
    tuples.Nodup ∧ tuples[0]? = some (List.replicate m.propLeaves.length 0) ∧
      ∀ t ∈ tuples, ∀ e < m.events.length, ∀ t', m.tupleStep e t = some t' → t' ∈ tuples := by
  unfold reachTuples at h
  split at h
  · next st hst =>
    cases h
    obtain ⟨hfirst, hclosed⟩ := Explore.explore_complete hst
    have hin := Explore.explore_inside (zero_mem_tupleSpace hleaves)
      (fun t ht e t' h _ => tupleStep_mem hleaves ht h) hst
    refine ⟨hin.1, by rw [List.getElem?_map, hfirst]; rfl, fun t ht e he t' h => ?_⟩
    exact hclosed t ht e (List.mem_range.mpr he) t' h
  · cases h

theorem atomsHold_spec {env : Xpl.Word} {bs : List BExpr} : ∀ {r : Bool}, atomsHold env bs = .ok r →
    (r = true ↔ ∀ b ∈ bs, Xpl.evalBool env b = .ok .yes) := by
  induction bs with
  | nil =>
    intro r h
    cases h
    simp
  | cons b bs ih =>
    intro r h
    rw [atomsHold] at h
    rw [List.forall_mem_cons]
    split at h
    · cases h
    · cases h
    · next hno =>
      cases h
      simp [hno]
    · next hyes =>
      rw [ih h, hyes]
      simp

/-- The built monitor: its states are the tuples of the property leaves, and it is bad where
the atoms hold. -/
structure Monitored (seed : Xpl.Word) (atoms : List BExpr) (m m' : Cegar.Model)
    (tuples : List (List Nat)) : Prop where
  leaves : m'.leaves = m.leaves
  events : m'.events = m.events
  props : m'.propLeaves = m.propLeaves
  count : m'.mon.nEvents = m.events.length
  nodup : tuples.Nodup
  exact : m'.Exact tuples
  table : m'.mon.delta.length = m'.mon.nStates * m'.mon.nEvents ∧
    (∀ q, some q ∈ m'.mon.delta → q < m'.mon.nStates) ∧ m'.mon.bad.length = m'.mon.nStates
  bad : ∀ t tuple, tuples[t]? = some tuple → (m'.mon.isBad t = true ↔
    ∀ b ∈ atoms, Xpl.evalBool (tupleWord seed m tuple) b = .ok .yes)

theorem buildMonitor_spec (hleaves : ∀ i ∈ m.propLeaves, (m.leaf i).WF) {seed : Xpl.Word}
    {atoms : List BExpr} {m' : Cegar.Model} (h : buildMonitor seed m atoms = .ok m') :
    ∃ tuples, Monitored seed atoms m m' tuples := by
  unfold buildMonitor at h
  split at h
  · cases h
  · next tuples htuples =>
    obtain ⟨bad, hbad, h⟩ := bind_eq_ok.mp h
    cases h
    obtain ⟨hnd, hfirst, hclosed⟩ := reachTuples_spec hleaves htuples
    have hbads := mapM_eq_ok hbad
    have hidx : ∀ t' ∈ tuples, tuples[tuples.idxOf t']? = some t' := fun t' ht' => by
      rw [List.getElem?_eq_getElem (List.idxOf_lt_length_of_mem ht'), List.getElem_idxOf]
    refine ⟨tuples, rfl, rfl, rfl, rfl, hnd, ⟨rfl, hfirst, fun t ht e he => ?_⟩,
      ⟨?_, fun q hq => ?_, hbads.length_eq.symm⟩, fun t tuple ht => ?_⟩
    · have hstep : Cegar.entry (tuples.flatMap fun t => (List.range m.events.length).map fun e =>
          (m.tupleStep e t).map fun t' => tuples.idxOf t') m.events.length t e =
          (m.tupleStep e (tuples.getD t [])).map fun t' => tuples.idxOf t' := by
        unfold Cegar.entry
        rw [Refinement.getElem?_flatMap_range (fun t e => (m.tupleStep e t).map fun t' =>
          tuples.idxOf t') tuples he, List.getD_eq_getElem?_getD]
        have hlt : t < tuples.length := ht
        rw [List.getElem?_eq_getElem hlt]
        rfl
      show (Cegar.entry _ _ t e).bind _ = _
      rw [hstep]
      have hmem : tuples.getD t [] ∈ tuples := by
        have hlt : t < tuples.length := ht
        rw [List.getD_eq_getElem?_getD, List.getElem?_eq_getElem hlt]
        exact List.getElem_mem hlt
      show _ = m.tupleStep e (tuples.getD t [])
      cases hnext : m.tupleStep e (tuples.getD t []) with
      | none => rfl
      | some t' => exact hidx t' (hclosed _ hmem e he t' hnext)
    · exact Refinement.length_flatMap_rows (by simp) _
    · obtain ⟨t, ht, hq⟩ := List.mem_flatMap.mp hq
      obtain ⟨e, he, hq⟩ := List.mem_map.mp hq
      obtain ⟨t', ht', rfl⟩ := Option.map_eq_some_iff.mp hq
      exact List.idxOf_lt_length_of_mem (hclosed t ht e (List.mem_range.mp he) t' ht')
    · have hlt := (List.getElem?_eq_some_iff.mp ht).1
      have hlt' : t < bad.length := hbads.length_eq ▸ hlt
      have hat := (List.forall₂_iff_get.mp hbads).2 t hlt hlt'
      have hget : tuples.get ⟨t, hlt⟩ = tuple := (List.getElem?_eq_some_iff.mp ht).2
      rw [hget] at hat
      have hisbad : bad.getD t false = bad.get ⟨t, hlt'⟩ := by simp [hlt']
      show bad.getD t false = true ↔ _
      rw [hisbad]
      exact atomsHold_spec hat

theorem mapM_zip {α β : Type} (f : α → Option β) (h : α × β → Option β) (ps : List α) :
    (ps.mapM f).bind (fun qs => (ps.zip qs).mapM h) =
      ps.mapM fun i => (f i).bind fun q => h (i, q) := by
  induction ps with
  | nil => rfl
  | cons i ps ih =>
    rw [List.mapM_cons, List.mapM_cons, ← ih]
    cases hi : f i with
    | none => rfl
    | some q =>
      cases ps.mapM f with
      | none =>
        cases h (i, q) with
        | none => simp
        | some q' => simp
      | some qs => simp

theorem mapM_eq_some_map {α β : Type} {f : α → Option β} {g : α → β} {ps : List α}
    (h : ∀ i ∈ ps, f i = some (g i)) : ps.mapM f = some (ps.map g) := by
  induction ps with
  | nil => rfl
  | cons i ps ih =>
    obtain ⟨hi, hps⟩ := List.forall_mem_cons.mp h
    rw [List.mapM_cons, hi, ih hps]
    rfl

/-- The monitor's state after a word, read as a tuple, is the tuple of the property leaves'
states after it; there is none where one of them is stuck. By induction on the word, from
its end. -/
theorem monitor_run (hm : m.WF) {tuples : List (List Nat)} (hex : m.Exact tuples) {w : List Nat} :
    (∀ e ∈ w, e ∈ m.eventIds) → (Explore.run m.mon.step 0 w).bind (fun t => tuples[t]?) =
      m.propLeaves.mapM fun i => (m.leaf i).fire (m.project w i) := by
  induction w using List.reverseRecOn with
  | nil =>
    intro _
    have hzero : (m.propLeaves.mapM fun i => (m.leaf i).fire (m.project [] i)) =
        some (m.propLeaves.map fun _ => 0) := mapM_eq_some_map fun _ _ => rfl
    rw [hzero, List.map_const']
    exact hex.first
  | append_singleton w e ih =>
    intro hw
    have hw' : ∀ x ∈ w, x ∈ m.eventIds := fun x hx => hw x (List.mem_append_left _ hx)
    have hfire : (m.propLeaves.mapM fun i => (m.leaf i).fire (m.project (w ++ [e]) i)) =
        (m.propLeaves.mapM fun i => (m.leaf i).fire (m.project w i)).bind (m.tupleStep e) := by
      have hstep : m.tupleStep e = fun qs => (m.propLeaves.zip qs).mapM fun x =>
          Explore.run (m.leaf x.1).step x.2 ((m.event e).letterFor x.1).toList :=
        funext (tupleStep_eq e)
      rw [hstep, mapM_zip]
      congr 1
      funext i
      rw [Cegar.project_snoc, Cegar.Lts.fire_append]
    rw [hfire, ← ih hw', Explore.run_snoc]
    cases hrun : Explore.run m.mon.step 0 w with
    | none => rfl
    | some t =>
      obtain ⟨hlt, tuple, htuple, -⟩ := hex.run hm hw' hrun
      have hnext := hex.step t hlt e (List.mem_range.mp (hw e (by simp)))
      rw [List.getD_eq_getElem?_getD, htuple] at hnext
      show (m.mon.step t e).bind _ = (tuples[t]?).bind _
      rw [hnext, htuple]
      rfl

/-- A run of the concrete product is a run of every leaf; the monitor stands at the tuple of
the property leaves. -/
theorem run_concrete_iff (hm : m.WF) {tuples : List (List Nat)} (hnd : tuples.Nodup)
    (hex : m.Exact tuples) {w st : List Nat} (hw : ∀ e ∈ w, e ∈ m.eventIds)
    (hlen : st.length = m.leaves.length + 1) :
    Explore.run m.concreteStep m.initial w = some st ↔
      tuples[st.getD 0 0]? = some (m.propLeaves.map fun i => st.getD (i + 1) 0) ∧
      ∀ i < m.leaves.length, (m.leaf i).fire (m.project w i) = some (st.getD (i + 1) 0) := by
  have hmon := monitor_run hm hex hw
  have htuple : (∀ i < m.leaves.length,
      (m.leaf i).fire (m.project w i) = some (st.getD (i + 1) 0)) →
      m.propLeaves.mapM (fun i => (m.leaf i).fire (m.project w i)) =
        some (m.propLeaves.map fun i => st.getD (i + 1) 0) :=
    fun h => mapM_eq_some_map fun i hi => h i (hm.props.2 i hi)
  rw [show m.concreteStep = m.productStep (fun l q a => (m.leaf l).step q a) from rfl,
    Cegar.run_product hm hw hlen]
  constructor
  · rintro ⟨h1, h2⟩
    refine ⟨?_, h2⟩
    rw [h1, htuple h2] at hmon
    exact hmon
  · rintro ⟨h1, h2⟩
    refine ⟨?_, h2⟩
    rw [htuple h2] at hmon
    obtain ⟨t, ht, htt⟩ := Option.bind_eq_some_iff.mp hmon
    have hlt := (List.getElem?_eq_some_iff.mp htt).1
    rw [ht, (List.getElem?_inj hlt hnd).mp (htt.trans h1.symm)]

end Monitor

/-! ## The bridge -/

/-- The valuation of a state of the product: every leaf state read through `valueOf`. -/
def valuation (m : Cegar.Model) (st : List Nat) : Xpl.Word :=
  (List.range m.leaves.length).map fun i => (m.leaf i).valueOf.getD (st.getD (i + 1) 0) 0

/-- A compiled event and the event form it comes from. -/
structure Live (R : ExprIds) (s : Spec) (seed : Xpl.Word) (doms : List Domain) (ev : LocalEvent)
    (eg : EvGraphs) : Prop where
  compiled : Compiled seed doms ev eg
  alive : ev.dead = false
  source : ∃ src ∈ s.events, ∃ guard kids,
    buildEvent R s.scope src = .ok ⟨src.name, src.line, rootOf guard kids, guard⟩ ∧
      Mirrors s.order.length ev guard kids

theorem Live.touched_lt {R : ExprIds} {s : Spec} {seed : Xpl.Word} {doms : List Domain}
    {ev : LocalEvent} {eg : EvGraphs} (h : Live R s seed doms ev eg) :
    ∀ p ∈ ev.touched, p < s.order.length := by
  obtain ⟨src, -, guard, kids, -, hm⟩ := h.source
  exact fun p hp => hm.touched_lt hp

/-- What the bridge has established when it builds the monitor. -/
structure Bridged (R : ExprIds) (s : Spec) (seed : Xpl.Word) (doms : List Domain)
    (compiled : List EvGraphs) : Prop where
  length : seed.length = s.order.length
  domains : Domains seed doms
  read : ∀ src ∈ s.events, ∃ ev guard kids,
    buildEvent R s.scope src = .ok ⟨src.name, src.line, rootOf guard kids, guard⟩ ∧
      Mirrors s.order.length ev guard kids ∧
      (ev.dead = false → ∃ eg ∈ compiled, Live R s seed doms ev eg)
  live : ∀ eg ∈ compiled, ∃ ev, Live R s seed doms ev eg

/-- The state of each leaf stands for the value at its position. -/
def Decodes (doms : List Domain) (n : Nat) (st : List Nat) (w : Xpl.Word) : Prop :=
  w.length = n ∧ ∀ p < n, (domainAt doms p).valueOf[st.getD (p + 1) 0]? = some (w.getD p 0)

section Bridge

variable {R : ExprIds} {s : Spec} {seed : Xpl.Word} {doms : List Domain} {compiled : List EvGraphs}

theorem Spec.scope_bounded (s : Spec) : s.scope.Bounded s.order.length := by
  intro t p h
  obtain ⟨l, hl, rfl⟩ := Option.map_eq_some_iff.mp h
  obtain ⟨before, after, hleaves, -⟩ := List.lookup_eq_some_iff.mp hl
  exact s.placed (t, l) (by rw [hleaves]; simp)

theorem compileEvents_bridged (hlen : seed.length = s.order.length) (hdoms : Domains seed doms)
    (h : compileEvents R s seed doms s.events = .ok compiled) :
    Bridged R s seed doms compiled := by
  have hmirror : ∀ src ev, readEvent R s.scope seed src = .ok ev → ∃ guard kids,
      buildEvent R s.scope src = .ok ⟨src.name, src.line, rootOf guard kids, guard⟩ ∧
        Mirrors s.order.length ev guard kids :=
    fun src ev hev => readEvent_mirrors s.scope_bounded hlen hev
  have htouched : ∀ src ev, readEvent R s.scope seed src = .ok ev → ∀ p ∈ ev.touched,
      p < seed.length := by
    intro src ev hev p hp
    obtain ⟨guard, kids, -, hm⟩ := hmirror src ev hev
    exact hlen ▸ hm.touched_lt hp
  obtain ⟨h1, h2⟩ := compileEvents_spec hdoms htouched h
  refine ⟨hlen, hdoms, fun src hsrc => ?_, fun eg heg => ?_⟩
  · obtain ⟨ev, hev, hlive⟩ := h1 src hsrc
    obtain ⟨guard, kids, hb, hm⟩ := hmirror src ev hev
    refine ⟨ev, guard, kids, hb, hm, fun hdead => ?_⟩
    obtain ⟨eg, heg, hc⟩ := hlive hdead
    exact ⟨eg, heg, hc, hdead, src, hsrc, guard, kids, hb, hm⟩
  · obtain ⟨src, hsrc, ev, hev, hdead, hc⟩ := h2 eg heg
    obtain ⟨guard, kids, hb, hm⟩ := hmirror src ev hev
    exact ⟨ev, hc, hdead, src, hsrc, guard, kids, hb, hm⟩

theorem buildXplModel_events {sc : Scope} {n : Nat} {srcs : List Source} {x : Xpl.Model}
    (h : buildXplModel R sc n srcs = .ok x) :
    List.Forall₂ (fun src evt => buildEvent R sc src = .ok evt) srcs x.events := by
  obtain ⟨evts, hevts, h⟩ := bind_eq_ok.mp h
  cases h
  exact mapM_eq_ok hevts

/-- One firing, event by event of the model. -/
theorem next_iff {x : Xpl.Model} {w t : Xpl.Word} :
    x.Next w t ↔ ∃ evt ∈ x.events,
      ∃ bs, Xpl.interp evt.root [⟨w, []⟩] = .ok bs ∧ ∃ b ∈ bs, b.s = t := by
  constructor
  · rintro ⟨e, succs, sc, hfire, hsc, rfl⟩
    unfold fire at hfire
    split at hfire
    · cases hfire
    · next evt hevt =>
      split at hfire
      · next bs hbs =>
        cases hfire
        obtain ⟨b, hb, rfl⟩ := List.mem_map.mp hsc
        exact ⟨evt, List.mem_of_getElem? hevt, bs, hbs, b, hb, rfl⟩
      · cases hfire
  · rintro ⟨evt, hevt, bs, hbs, b, hb, rfl⟩
    obtain ⟨e, he, hget⟩ := List.mem_iff_getElem.mp hevt
    refine ⟨e, bs.map (Branch.successor w), b.successor w, ?_, List.mem_map_of_mem hb, rfl⟩
    unfold fire
    rw [List.getElem?_eq_getElem he, hget]
    dsimp only
    rw [hbs]

variable (hb : Bridged R s seed doms compiled)

include hb

theorem Bridged.exists_xpl : ∃ x, s.xpl R = .ok x := by
  obtain ⟨evts, hevts⟩ := exists_mapM_ok (f := buildEvent R s.scope) (l := s.events)
    fun src hsrc => by
      obtain ⟨ev, guard, kids, h, -⟩ := hb.read src hsrc
      exact ⟨_, h⟩
  refine ⟨⟨s.order.length, evts⟩, ?_⟩
  rw [Spec.xpl, buildXplModel, hevts]
  rfl

/-- One step of the explicit engine is one compiled event, moving every leaf. -/
theorem Bridged.next_iff {x : Xpl.Model} (hx : s.xpl R = .ok x) {w t : Xpl.Word}
    (hw : w.length = s.order.length) :
    x.Next w t ↔ ∃ eg ∈ compiled, ∃ ev, Live R s seed doms ev eg ∧ t.length = s.order.length ∧
      ∀ p < s.order.length, LocalMove ev seed p (w.getD p 0) (t.getD p 0) := by
  have hevents := buildXplModel_events hx
  rw [LibHSC.Surface.next_iff]
  constructor
  · rintro ⟨evt, hevt, hfires⟩
    obtain ⟨src, hsrc, hbuild⟩ := forall₂_mem_right hevents hevt
    obtain ⟨ev, guard, kids, hbuild', hm, hlive⟩ := hb.read src hsrc
    rw [hbuild] at hbuild'
    cases hbuild'
    obtain ⟨hdead, ht, hmoves⟩ := (hm.fires_iff hb.length hw).mp hfires
    obtain ⟨eg, heg, hc⟩ := hlive hdead
    exact ⟨eg, heg, ev, hc, ht, hmoves⟩
  · rintro ⟨eg, heg, ev, hc, ht, hmoves⟩
    obtain ⟨src, hsrc, guard, kids, hbuild, hm⟩ := hc.source
    obtain ⟨evt, hevt, hbuild'⟩ := forall₂_mem_left hevents hsrc
    rw [hbuild] at hbuild'
    cases hbuild'
    exact ⟨_, hevt, (hm.fires_iff hb.length hw).mpr ⟨hc.alive, ht, hmoves⟩⟩

variable {m : Cegar.Model} {tuples : List (List Nat)}
  (hof : OfBridge compiled doms s.order.length m)

include hof

theorem Bridged.leaves_wf : ∀ l ∈ m.leaves, l.WF := by
  have hlive : ∀ eg ∈ compiled, ∃ ev, Compiled seed doms ev eg := by
    intro eg heg
    obtain ⟨ev, hlive⟩ := hb.live eg heg
    exact ⟨ev, hlive.compiled⟩
  exact hof.leaves_wf (fun p hp => ⟨_, hb.domains p (hb.length ▸ hp)⟩) hlive

theorem Bridged.events_wf : ∀ e ∈ m.events, e.WF m := by
  have hlive : ∀ eg ∈ compiled, ∃ ev, Compiled seed doms ev eg ∧
      ∀ p ∈ ev.touched, p < s.order.length := by
    intro eg heg
    obtain ⟨ev, hlive⟩ := hb.live eg heg
    exact ⟨ev, hlive.compiled, hlive.touched_lt⟩
  exact hof.events_wf hlive

omit hb in
theorem OfBridge.getD_valuation (st : List Nat) {p : Nat} (hp : p < s.order.length) :
    (valuation m st).getD p 0 = (domainAt doms p).valueOf.getD (st.getD (p + 1) 0) 0 := by
  simp [valuation, hof.length, hp, hof.leaf hp, buildLeaf]

omit hb hof in
theorem getD_of_getElem? {α : Type} {l : List α} {i : Nat} {a d : α} (h : l[i]? = some a) :
    l.getD i d = a := by
  rw [List.getD_eq_getElem?_getD, h]
  rfl

omit hb in
theorem OfBridge.eq_valuation {st : List Nat} {w : Xpl.Word}
    (h : Decodes doms s.order.length st w) : w = valuation m st := by
  refine word_ext (by simp [valuation, hof.length, h.1]) fun p hp => ?_
  rw [h.1] at hp
  rw [hof.getD_valuation st hp, getD_of_getElem? (h.2 p hp)]

theorem Bridged.valuation_initial : valuation m m.initial = seed := by
  refine (hof.eq_valuation ⟨hb.length, fun p hp => ?_⟩).symm
  have hzero : m.initial.getD (p + 1) 0 = 0 := by
    rw [List.getD_eq_getElem?_getD, Cegar.Model.initial, List.getElem?_replicate]
    split
    · rfl
    · rfl
  rw [hzero]
  exact (hb.domains p (hb.length ▸ hp)).first

variable (hm : m.WF) (hnd : tuples.Nodup) (hex : m.Exact tuples)

include hm hnd hex

omit hb in
/-- A state a word leads to has a value at every leaf. -/
theorem OfBridge.decodes {wd st : List Nat} (hwd : ∀ e ∈ wd, e ∈ m.eventIds)
    (hrun : Explore.run m.concreteStep m.initial wd = some st) :
    Decodes doms s.order.length st (valuation m st) := by
  have hlen : st.length = m.leaves.length + 1 := Cegar.run_length hm hwd hrun
  obtain ⟨-, hfire⟩ := (run_concrete_iff hm hnd hex hwd hlen).mp hrun
  refine ⟨by simp [valuation, hof.length], fun p hp => ?_⟩
  have hp' : p < m.leaves.length := hof.length ▸ hp
  have hlt := (leaf_wf hm.leaves hp').fire_lt (hfire p hp')
  rw [hof.leaf hp] at hlt
  rw [hof.getD_valuation st hp]
  exact getElem?_eq_getD hlt

omit hof hm hnd hex hb in
theorem eventIds_snoc {wd : List Nat} {e : Nat} (hwd : ∀ x ∈ wd, x ∈ m.eventIds)
    (he : e ∈ m.eventIds) : ∀ x ∈ wd ++ [e], x ∈ m.eventIds :=
  List.forall_mem_append.mpr ⟨hwd, List.forall_mem_singleton.mpr he⟩

variable (hfew : ∀ p < s.order.length, (lettersOf compiled p).length ≤ 65536)

include hfew

/-- A step of the product is a step of the explicit engine. -/
theorem Bridged.next_of_step {x : Xpl.Model} (hx : s.xpl R = .ok x) {wd st st' : List Nat} {e : Nat}
    (hwd : ∀ e ∈ wd, e ∈ m.eventIds) (he : e ∈ m.eventIds)
    (hrun : Explore.run m.concreteStep m.initial wd = some st)
    (hstep : m.concreteStep st e = some st') : x.Next (valuation m st) (valuation m st') := by
  have hwd' := eventIds_snoc hwd he
  have hrun' : Explore.run m.concreteStep m.initial (wd ++ [e]) = some st' := by
    rw [Explore.run_snoc, hrun]
    exact hstep
  obtain ⟨-, hfire⟩ :=
    (run_concrete_iff hm hnd hex hwd (Cegar.run_length hm hwd hrun)).mp hrun
  obtain ⟨-, hfire'⟩ :=
    (run_concrete_iff hm hnd hex hwd' (Cegar.run_length hm hwd' hrun')).mp hrun'
  obtain ⟨hlen, hval⟩ := hof.decodes hm hnd hex hwd hrun
  obtain ⟨hlen', hval'⟩ := hof.decodes hm hnd hex hwd' hrun'
  have hlt : e < compiled.length := by
    have h := List.mem_range.mp he
    rw [← hm.count, hof.events, List.length_map] at h
    exact h
  have heg := List.getElem?_eq_getElem hlt
  obtain ⟨ev, hlive⟩ := hb.live _ (List.getElem_mem hlt)
  refine (hb.next_iff hx hlen).mpr ⟨_, List.getElem_mem hlt, ev, hlive, hlen', fun p hp => ?_⟩
  have hp' : p < m.leaves.length := hof.length ▸ hp
  refine (hof.move_iff hlive.compiled heg hp (hfew p hp) (hb.domains p (hb.length ▸ hp))
    (hval p hp) _).mpr
    ⟨st'.getD (p + 1) 0, ?_, hval' p hp⟩
  have hmove := hfire' p hp'
  rw [Cegar.project_snoc, Cegar.Lts.fire_append, hfire p hp'] at hmove
  exact hmove

/-- A step of the explicit engine is a step of the product: every leaf moves, and the monitor
follows the property leaves. -/
theorem Bridged.step_of_next {x : Xpl.Model} (hx : s.xpl R = .ok x) {wd st : List Nat}
    {t : Xpl.Word}
    (hwd : ∀ e ∈ wd, e ∈ m.eventIds)
    (hrun : Explore.run m.concreteStep m.initial wd = some st)
    (hnext : x.Next (valuation m st) t) :
    ∃ e ∈ m.eventIds, ∃ st', m.concreteStep st e = some st' ∧ valuation m st' = t := by
  obtain ⟨-, hfire⟩ :=
    (run_concrete_iff hm hnd hex hwd (Cegar.run_length hm hwd hrun)).mp hrun
  obtain ⟨hlen, hval⟩ := hof.decodes hm hnd hex hwd hrun
  obtain ⟨eg, heg, ev, hlive, ht, hmoves⟩ := (hb.next_iff hx hlen).mp hnext
  obtain ⟨e, he, hget⟩ := List.mem_iff_getElem.mp heg
  have hegAt : compiled[e]? = some eg := hget ▸ List.getElem?_eq_getElem he
  have hid : e ∈ m.eventIds := by
    refine List.mem_range.mpr ?_
    rwa [← hm.count, hof.events, List.length_map]
  have hleaf : ∀ p, p < s.order.length → ∃ q', Explore.run (m.leaf p).step (st.getD (p + 1) 0)
      ((m.event e).letterFor p).toList = some q' ∧
        (domainAt doms p).valueOf[q']? = some (t.getD p 0) :=
    fun p hp => (hof.move_iff hlive.compiled hegAt hp (hfew p hp) (hb.domains p (hb.length ▸ hp))
      (hval p hp) _).mp (hmoves p hp)
  choose! q hq hqv using hleaf
  have hwd' := eventIds_snoc hwd hid
  have hfire' : ∀ i < m.leaves.length, (m.leaf i).fire (m.project (wd ++ [e]) i) = some (q i) := by
    intro i hi
    rw [Cegar.project_snoc, Cegar.Lts.fire_append, hfire i hi]
    exact hq i (hof.length ▸ hi)
  -- the monitor's next state is the one at the moved tuple
  have hmon := monitor_run hm hex hwd'
  rw [mapM_eq_some_map fun i hi => hfire' i (hm.props.2 i hi)] at hmon
  obtain ⟨mm, -, hmm⟩ := Option.bind_eq_some_iff.mp hmon
  let st' : List Nat := mm :: (List.range m.leaves.length).map q
  have hst' : ∀ i < m.leaves.length, st'.getD (i + 1) 0 = q i := by
    intro i hi
    simp [st', hi]
  have hlen' : st'.length = m.leaves.length + 1 := by simp [st']
  have hrun' : Explore.run m.concreteStep m.initial (wd ++ [e]) = some st' := by
    refine (run_concrete_iff hm hnd hex hwd' hlen').mpr ⟨?_, fun i hi => ?_⟩
    · have hmap : (m.propLeaves.map fun i => st'.getD (i + 1) 0) = m.propLeaves.map q :=
        List.map_congr_left fun i hi => hst' i (hm.props.2 i hi)
      rw [hmap]
      exact hmm
    · rw [hst' i hi]
      exact hfire' i hi
  rw [Explore.run_snoc, hrun] at hrun'
  refine ⟨e, hid, st', hrun', ?_⟩
  refine (hof.eq_valuation ⟨ht, fun p hp => ?_⟩).symm
  rw [hst' p (hof.length ▸ hp)]
  exact hqv p hp

theorem Bridged.reach_of_run {x : Xpl.Model} (hx : s.xpl R = .ok x) {wd : List Nat} :
    ∀ {st : List Nat}, (∀ e ∈ wd, e ∈ m.eventIds) →
      Explore.run m.concreteStep m.initial wd = some st → x.Reach [seed] (valuation m st) := by
  induction wd using List.reverseRecOn with
  | nil =>
    intro st _ hrun
    cases hrun
    exact ⟨0, .start (List.mem_singleton.mpr (hb.valuation_initial hof))⟩
  | append_singleton wd e ih =>
    intro st' hwd hrun
    rw [Explore.run_snoc] at hrun
    obtain ⟨st, hst, hstep⟩ := Option.bind_eq_some_iff.mp hrun
    have hwd' : ∀ x ∈ wd, x ∈ m.eventIds := fun y hy => hwd y (List.mem_append_left _ hy)
    obtain ⟨k, hk⟩ := ih hwd' hst
    exact ⟨k + 1, hk.step (hb.next_of_step hof hm hnd hex hfew hx hwd' (hwd e (by simp)) hst hstep)⟩

theorem Bridged.run_of_reach {x : Xpl.Model} (hx : s.xpl R = .ok x) {v : Xpl.Word}
    (hreach : x.Reach [seed] v) : ∃ st, m.Reachable st ∧ valuation m st = v := by
  obtain ⟨k, hk⟩ := hreach
  induction hk with
  | start hv =>
    next v =>
    obtain rfl : v = seed := List.mem_singleton.mp hv
    exact ⟨m.initial, ⟨[], by simp, rfl⟩, hb.valuation_initial hof⟩
  | step _ hnext ih =>
    obtain ⟨st, ⟨wd, hwd, hrun⟩, rfl⟩ := ih
    obtain ⟨e, he, st', hstep, hval⟩ := hb.step_of_next hof hm hnd hex hfew hx hwd hrun hnext
    refine ⟨st', ⟨wd ++ [e], eventIds_snoc hwd he, ?_⟩, hval⟩
    rw [Explore.run_snoc, hrun]
    exact hstep

omit hfew in
/-- No two states of the product have the same valuation. -/
theorem Bridged.valuation_injective {st st' : List Nat} (hst : m.Reachable st)
    (hst' : m.Reachable st') (h : valuation m st = valuation m st') : st = st' := by
  obtain ⟨wd, hwd, hrun⟩ := hst
  obtain ⟨wd', hwd', hrun'⟩ := hst'
  have hlen := Cegar.run_length hm hwd hrun
  have hlen' := Cegar.run_length hm hwd' hrun'
  obtain ⟨htuple, -⟩ := (run_concrete_iff hm hnd hex hwd hlen).mp hrun
  obtain ⟨htuple', -⟩ := (run_concrete_iff hm hnd hex hwd' hlen').mp hrun'
  obtain ⟨-, hval⟩ := hof.decodes hm hnd hex hwd hrun
  obtain ⟨-, hval'⟩ := hof.decodes hm hnd hex hwd' hrun'
  have hleaf : ∀ p < s.order.length, st.getD (p + 1) 0 = st'.getD (p + 1) 0 := by
    intro p hp
    have hv := hval p hp
    rw [h, ← hval' p hp] at hv
    exact (List.getElem?_inj (List.getElem?_eq_some_iff.mp (hval p hp)).1
      (hb.domains p (hb.length ▸ hp)).nodup).mp hv
  refine Cegar.ext_getD (hlen.trans hlen'.symm) fun i hi => ?_
  cases i with
  | succ p => exact hleaf p (by rw [hlen, hof.length] at hi; omega)
  | zero =>
    have hsame : (m.propLeaves.map fun i => st.getD (i + 1) 0) =
        m.propLeaves.map fun i => st'.getD (i + 1) 0 :=
      List.map_congr_left fun i hi => hleaf i (hof.length ▸ hm.props.2 i hi)
    rw [hsame, ← htuple'] at htuple
    exact (List.getElem?_inj (List.getElem?_eq_some_iff.mp htuple').1 hnd).mp htuple.symm |>.symm

end Bridge

/-! ## Exactness -/

/-- The explicit model `x` and the built one: the same reachable valuations and steps, and a
monitor that stands at the tuple of the property leaves, bad where the atoms hold. -/
structure CegarBridge.Exact (out : CegarBridge) (x : Xpl.Model) (atoms : List BExpr)
    (tuples : List (List Nat)) : Prop where
  reach : ∀ v, (∃ st, out.model.Reachable st ∧ valuation out.model st = v) ↔ x.Reach [out.seed] v
  injective : ∀ st st', out.model.Reachable st → out.model.Reachable st' →
    valuation out.model st = valuation out.model st' → st = st'
  steps : ∀ st, out.model.Reachable st → ∀ v, x.Next (valuation out.model st) v ↔
    ∃ e ∈ out.model.eventIds, ∃ st', out.model.concreteStep st e = some st' ∧
      valuation out.model st' = v
  nodup : tuples.Nodup ∧ tuples.length = out.model.mon.nStates
  monitor : ∀ w, (∀ e ∈ w, e ∈ out.model.eventIds) →
    (Explore.run out.model.mon.step 0 w).bind (fun t => tuples[t]?) =
      out.model.propLeaves.mapM fun i => (out.model.leaf i).fire (out.model.project w i)
  bad : ∀ st, out.model.Reachable st → (out.model.isBad st = true ↔
    ∀ b ∈ atoms, Xpl.evalBool (valuation out.model st) b = .ok .yes)

theorem foldl_set_getElem? {g : Nat → Int} {p : Nat} (ps : List Nat) : ∀ {w : Xpl.Word},
    p < w.length → ((ps.zip (ps.map g)).foldl (fun w x => w.set x.1 x.2) w)[p]? =
      if p ∈ ps then some (g p) else w[p]? := by
  induction ps with
  | nil => simp
  | cons i ps ih =>
    intro w hp
    rw [List.map_cons, List.zip_cons_cons, List.foldl_cons, ih (by simpa using hp)]
    by_cases hmem : p ∈ ps
    · simp [hmem]
    · by_cases hpi : p = i
      · subst hpi
        simp [hmem, hp]
      · simp [hmem, hpi, List.getElem?_set_ne (Ne.symm hpi)]

theorem length_foldl_set (xs : List (Nat × Int)) : ∀ w : Xpl.Word,
    (xs.foldl (fun w x => w.set x.1 x.2) w).length = w.length := by
  induction xs with
  | nil => exact fun _ => rfl
  | cons x xs ih =>
    intro w
    rw [List.foldl_cons, ih, List.length_set]

section Exact

variable {R : ExprIds} {s : Spec}

theorem Spec.length_base : s.base.length = s.order.length := by
  have hdefaults : ∀ (xs : List (String × LeafInfo)) (w : Xpl.Word),
      (xs.foldl (fun w x => if x.2.bounded then w.set x.2.pos x.2.lo else w) w).length =
        w.length := by
    intro xs
    induction xs with
    | nil => exact fun _ => rfl
    | cons x xs ih =>
      intro w
      rw [List.foldl_cons, ih]
      split
      · rw [List.length_set]
      · rfl
  unfold Spec.base
  rw [length_foldl_set, hdefaults, List.length_replicate]

theorem Spec.seeds_length {ws : List Xpl.Word} (h : s.seeds R = .ok ws) :
    ∀ w ∈ ws, w.length = s.order.length := by
  unfold Spec.seeds at h
  split at h
  · cases h
    exact List.forall_mem_singleton.mpr s.length_base
  · obtain ⟨m, -, h⟩ := bind_eq_ok.mp h
    dsimp only at h
    split at h
    · cases h
    · cases h
    · cases h
    · split at h
      · cases h
      · next succs hfire =>
        obtain ⟨out, hout, h⟩ := bind_eq_ok.mp h
        cases hout
        split at h
        · cases h
        · cases h
          intro w hw
          obtain ⟨sc, hsc, rfl⟩ := List.mem_map.mp hw
          rw [(fire_changed hfire hsc).1, s.length_base]

theorem readProperty_spec : ∀ {atoms : List Datum} {bs : List BExpr},
    readProperty R s atoms = .ok bs → atoms.mapM (readBool R s.scope) = .ok bs ∧
      ∀ b ∈ bs, b.Within (· < s.order.length) NoCell := by
  intro atoms
  induction atoms with
  | nil =>
    intro bs h
    cases h
    exact ⟨rfl, by simp⟩
  | cons d ds ih =>
    intro bs h
    rw [readProperty] at h
    obtain ⟨⟨⟩, hat, h⟩ := bind_eq_ok.mp h
    obtain ⟨b, hb, h⟩ := bind_eq_ok.mp h
    split at h
    · cases h
    · obtain ⟨rest, hrest, h⟩ := bind_eq_ok.mp h
      cases h
      obtain ⟨hmap, hwithin⟩ := ih hrest
      refine ⟨?_, List.forall_mem_cons.mpr ⟨readBool_within s.scope_bounded d hat hb, hwithin⟩⟩
      rw [List.mapM_cons, hb, hmap]
      rfl

/-- The model before its monitor. -/
def productModel (s : Spec) (atoms : List Datum) (doms : List Domain) (batoms : List BExpr)
    (compiled : List EvGraphs) : Cegar.Model where
  leaves := (List.range s.order.length).map fun p => buildLeaf compiled p (domainAt doms p)
  leafNames := s.order
  events := compiled.map (buildCegarEvent compiled)
  mon := ⟨0, 0, [], []⟩
  propLeaves := sortPositions (batoms.flatMap supportBool)
  monitorValues := []
  propertyText := joinAtoms atoms

theorem buildCegarModel_cases {atoms : List Datum} {out : CegarBridge}
    (h : buildCegarModel R s atoms = .ok out) :
    s.seeds R = .ok [out.seed] ∧ ∃ doms batoms compiled,
      (List.range s.order.length).mapM (buildDomain s out.seed) = .ok doms ∧
      readProperty R s atoms = .ok batoms ∧
      compileEvents R s out.seed doms s.events = .ok compiled ∧
      buildMonitor out.seed (productModel s atoms doms batoms compiled) batoms = .ok out.model := by
  unfold buildCegarModel at h
  split at h
  · cases h
  · obtain ⟨seeds, hseeds, h⟩ := bind_eq_ok.mp h
    split at h
    · next seed =>
      obtain ⟨doms, hdoms, h⟩ := bind_eq_ok.mp h
      obtain ⟨batoms, hbatoms, h⟩ := bind_eq_ok.mp h
      obtain ⟨compiled, hcompiled, h⟩ := bind_eq_ok.mp h
      obtain ⟨model, hmodel, h⟩ := bind_eq_ok.mp h
      cases h
      exact ⟨hseeds, doms, batoms, compiled, hdoms, hbatoms, hcompiled, hmodel⟩
    · cases h

/-- Every leaf has few enough distinct graphs for sixteen bits to tell them apart. -/
def FewLetters (R : ExprIds) (s : Spec) : Prop :=
  ∀ counts, letterCounts R s = .ok counts → ∀ n ∈ counts, n ≤ 65536

theorem FewLetters.leaf (hfew : FewLetters R s) {seed : Xpl.Word} {doms : List Domain}
    {compiled : List EvGraphs} (hseeds : s.seeds R = .ok [seed])
    (hdoms : (List.range s.order.length).mapM (buildDomain s seed) = .ok doms)
    (hcompiled : compileEvents R s seed doms s.events = .ok compiled) :
    ∀ p < s.order.length, (lettersOf compiled p).length ≤ 65536 := by
  intro p hp
  refine hfew ((List.range s.order.length).map fun p => (lettersOf compiled p).length) ?_ _
    (List.mem_map.mpr ⟨p, List.mem_range.mpr hp, rfl⟩)
  unfold letterCounts
  refine bind_of_ok hseeds ?_
  exact bind_of_ok hdoms (bind_of_ok hcompiled rfl)

theorem buildDomains_over {seed : Xpl.Word} (hlen : seed.length = s.order.length)
    {doms : List Domain}
    (h : (List.range s.order.length).mapM (buildDomain s seed) = .ok doms) :
    Domains seed doms := by
  intro p hp
  have hall := mapM_eq_ok h
  have hp' : p < (List.range s.order.length).length := by simpa [← hlen] using hp
  have hp'' : p < doms.length := hall.length_eq ▸ hp'
  have hget := (List.forall₂_iff_get.mp hall).2 p hp' hp''
  have hdom : domainAt doms p = doms.get ⟨p, hp''⟩ := by simp [domainAt, hp'']
  rw [hdom]
  have hpp : (List.range s.order.length).get ⟨p, hp'⟩ = p := by simp
  rw [hpp] at hget
  exact buildDomain_over hget

/-- The state a tuple is decided in agrees with the valuation at the property leaves. -/
theorem tupleWord_agrees {m : Cegar.Model} {seed : Xpl.Word} (st : List Nat)
    (hlen : seed.length = m.leaves.length) (hprops : ∀ i ∈ m.propLeaves, i < m.leaves.length) :
    (tupleWord seed m (m.propLeaves.map fun i => st.getD (i + 1) 0)).length =
        (valuation m st).length ∧
      ∀ p ∈ m.propLeaves, (tupleWord seed m (m.propLeaves.map fun i => st.getD (i + 1) 0))[p]? =
        (valuation m st)[p]? := by
  have hvalues : tupleValues m (m.propLeaves.map fun i => st.getD (i + 1) 0) =
      m.propLeaves.map fun i => (m.leaf i).valueOf.getD (st.getD (i + 1) 0) 0 := by
    unfold tupleValues
    rw [List.zip_map_right, List.map_map]
    generalize m.propLeaves = ps
    induction ps with
    | nil => rfl
    | cons i ps ih => simpa using ih
  unfold tupleWord
  rw [hvalues]
  refine ⟨by rw [length_foldl_set, hlen]; simp [valuation], fun p hp => ?_⟩
  have hp' : p < seed.length := hlen ▸ hprops p hp
  rw [foldl_set_getElem? m.propLeaves hp', if_pos hp]
  simp [valuation, hprops p hp]

theorem valuation_congr {m m' : Cegar.Model} (h : m'.leaves = m.leaves) (st : List Nat) :
    valuation m' st = valuation m st := by
  unfold valuation Cegar.Model.leaf
  rw [h]

/-- The monitor is bad where the atoms hold on the valuation: they read property leaves only. -/
theorem Monitored.isBad_iff {m m' : Cegar.Model} {seed : Xpl.Word} {atoms : List BExpr}
    {tuples : List (List Nat)} (hmon : Monitored seed atoms m m' tuples)
    (hlen : seed.length = m.leaves.length) (hprops : ∀ i ∈ m.propLeaves, i < m.leaves.length)
    (hatoms : ∀ b ∈ atoms, b.Within (· ∈ m.propLeaves) NoCell) {st : List Nat}
    (hst : tuples[st.getD 0 0]? = some (m'.propLeaves.map fun i => st.getD (i + 1) 0)) :
    m'.isBad st = true ↔ ∀ b ∈ atoms, Xpl.evalBool (valuation m' st) b = .ok .yes := by
  rw [hmon.props] at hst
  refine (hmon.bad _ _ hst).trans (forall₂_congr fun b hb => ?_)
  obtain ⟨hsize, hagree⟩ := tupleWord_agrees st hlen hprops
  rw [valuation_congr hmon.leaves, evalBool_within (hatoms b hb) hsize hagree]

/-- The monitor over the product of the bridge, where the property leaves are on the
frontier. -/
theorem Bridged.model_wf {seed : Xpl.Word} {doms : List Domain} {compiled : List EvGraphs}
    (hb : Bridged R s seed doms compiled) {m m' : Cegar.Model} {atoms : List BExpr}
    {tuples : List (List Nat)} (hof : OfBridge compiled doms s.order.length m')
    (hmon : Monitored seed atoms m m' tuples)
    (hprops : m.propLeaves.Pairwise (· < ·) ∧ ∀ i ∈ m.propLeaves, i < m.leaves.length) :
    m'.WF where
  leaves := hb.leaves_wf hof
  events := hb.events_wf hof
  count := by rw [hmon.events, hmon.count]
  props := by
    rw [hmon.props, hmon.leaves]
    exact hprops
  monitor := hmon.table
  exact := ⟨tuples, hmon.exact⟩

/-- What is read of a specification on the way to its model, and what the model is then. -/
structure CegarBridge.Built (R : ExprIds) (s : Spec) (atoms : List Datum) (out : CegarBridge)
    (doms : List Domain) (batoms : List BExpr) (compiled : List EvGraphs)
    (tuples : List (List Nat)) : Prop where
  seeds : s.seeds R = .ok [out.seed]
  domains : (List.range s.order.length).mapM (buildDomain s out.seed) = .ok doms
  read : atoms.mapM (readBool R s.scope) = .ok batoms
  compile : compileEvents R s out.seed doms s.events = .ok compiled
  length : out.seed.length = s.order.length
  bridged : Bridged R s out.seed doms compiled
  leaves : OfBridge compiled doms s.order.length out.model
  monitored : Monitored out.seed batoms (productModel s atoms doms batoms compiled) out.model tuples
  /-- The atoms read property leaves, and these are on the frontier. -/
  within : ∀ b ∈ batoms,
    b.Within (· ∈ (productModel s atoms doms batoms compiled).propLeaves) NoCell
  props : ∀ i ∈ (productModel s atoms doms batoms compiled).propLeaves,
    i < (productModel s atoms doms batoms compiled).leaves.length

theorem buildCegarModel_built {atoms : List Datum} {out : CegarBridge}
    (h : buildCegarModel R s atoms = .ok out) :
    ∃ doms batoms compiled tuples, out.Built R s atoms doms batoms compiled tuples := by
  obtain ⟨hseeds, doms, batoms, compiled, hdoms, hbatoms, hcompiled, hmonitor⟩ :=
    buildCegarModel_cases h
  obtain ⟨hread, hwithin⟩ := readProperty_spec hbatoms
  have hlen : out.seed.length = s.order.length :=
    Spec.seeds_length hseeds _ (List.mem_singleton.mpr rfl)
  have hb := compileEvents_bridged hlen (buildDomains_over hlen hdoms) hcompiled
  let m₀ := productModel s atoms doms batoms compiled
  have hof₀ : OfBridge compiled doms s.order.length m₀ := ⟨rfl, rfl⟩
  have hatoms : ∀ b ∈ batoms, b.Within (· ∈ m₀.propLeaves) NoCell := fun b hb =>
    ⟨fun p hp => mem_sortPositions.mpr (List.mem_flatMap.mpr ⟨b, hb, mem_sortPositions.mpr hp⟩),
      (hwithin b hb).cells⟩
  have hprops : ∀ i ∈ m₀.propLeaves, i < m₀.leaves.length := by
    intro i hi
    obtain ⟨b, hbmem, hi⟩ := List.mem_flatMap.mp (mem_sortPositions.mp hi)
    rw [hof₀.length]
    exact (hwithin b hbmem).scalars i (mem_sortPositions.mp hi)
  obtain ⟨tuples, hmon⟩ := buildMonitor_spec
    (fun i hi => leaf_wf (hb.leaves_wf hof₀) (hprops i hi)) hmonitor
  have hof : OfBridge compiled doms s.order.length out.model :=
    ⟨hmon.leaves.trans hof₀.leaves, hmon.events.trans hof₀.events⟩
  exact ⟨doms, batoms, compiled, tuples, hseeds, hdoms, hread, hcompiled, hlen, hb, hof, hmon,
    hatoms, hprops⟩

theorem CegarBridge.Built.wf {atoms : List Datum} {out : CegarBridge} {doms : List Domain}
    {batoms : List BExpr} {compiled : List EvGraphs} {tuples : List (List Nat)}
    (hbuilt : out.Built R s atoms doms batoms compiled tuples) : out.model.WF :=
  hbuilt.bridged.model_wf hbuilt.leaves hbuilt.monitored ⟨sortPositions_lt _, hbuilt.props⟩

theorem CegarBridge.Built.isomorphic {atoms : List Datum} {out : CegarBridge} {doms : List Domain}
    {batoms : List BExpr} {compiled : List EvGraphs} {tuples : List (List Nat)}
    (hbuilt : out.Built R s atoms doms batoms compiled tuples) (hfew : FewLetters R s) :
    ∃ x, s.xpl R = .ok x ∧ out.Exact x batoms tuples := by
  have hb := hbuilt.bridged
  have hof := hbuilt.leaves
  have hmon := hbuilt.monitored
  have hm := hbuilt.wf
  obtain ⟨x, hx⟩ := hb.exists_xpl
  have hnd := hmon.nodup
  have hex := hmon.exact
  have hfew := hfew.leaf hbuilt.seeds hbuilt.domains hbuilt.compile
  refine ⟨x, hx, fun v => ⟨?_, hb.run_of_reach hof hm hnd hex hfew hx⟩,
    fun st st' hst hst' => hb.valuation_injective hof hm hnd hex hst hst',
    fun st hst v => ?_, ⟨hnd, hex.count⟩, fun w hw => monitor_run hm hex hw, fun st hst => ?_⟩
  · rintro ⟨st, ⟨wd, hwd, hrun⟩, rfl⟩
    exact hb.reach_of_run hof hm hnd hex hfew hx hwd hrun
  · obtain ⟨wd, hwd, hrun⟩ := hst
    refine ⟨hb.step_of_next hof hm hnd hex hfew hx hwd hrun, ?_⟩
    rintro ⟨e, he, st', hstep, rfl⟩
    exact hb.next_of_step hof hm hnd hex hfew hx hwd he hrun hstep
  · obtain ⟨wd, hwd, hrun⟩ := hst
    obtain ⟨htuple, -⟩ :=
      (run_concrete_iff hm hnd hex hwd (Cegar.run_length hm hwd hrun)).mp hrun
    have hlen : out.seed.length = (productModel s atoms doms batoms compiled).leaves.length := by
      rw [hbuilt.length, productModel, List.length_map, List.length_range]
    exact hmon.isBad_iff hlen hbuilt.props hbuilt.within htuple

/-- While no leaf has more than 65536 distinct graphs, the built product and the explicit
engine on the same specification are isomorphic on the reachable states, with the property
decided by the monitor. -/
theorem buildCegarModel_exact (R : ExprIds) (s : Spec) (hfew : FewLetters R s)
    (atoms : List Datum) (out : CegarBridge) (h : buildCegarModel R s atoms = .ok out) :
    ∃ x batoms tuples, s.xpl R = .ok x ∧ s.seeds R = .ok [out.seed] ∧
      atoms.mapM (readBool R s.scope) = .ok batoms ∧ out.Exact x batoms tuples := by
  obtain ⟨doms, batoms, compiled, tuples, hbuilt⟩ := buildCegarModel_built h
  obtain ⟨x, hx, hexact⟩ := hbuilt.isomorphic hfew
  exact ⟨x, batoms, tuples, hx, hbuilt.seeds, hbuilt.read, hexact⟩

/-- A counter, and a flag that one event sets as it counts back, its guards and actions in
four clauses. -/
def counterAndFlag : Spec where
  leaves := [("x", ⟨0, true, 0, 3⟩), ("y", ⟨1, true, 0, 2⟩)]
  order := ["x", "y"]
  arrays := []
  events :=
    [⟨"inc", 3, [.list [.atom "when" 3, .list [.atom "<" 3, .atom "x" 3, .atom "2" 3] 3] 3,
          .list [.atom "do" 3, .list [.atom "+=" 3, .atom "x" 3, .atom "1" 3] 3] 3]⟩,
      ⟨"back", 4, [.list [.atom "when" 4, .list [.atom "==" 4, .atom "x" 4, .atom "1" 4] 4] 4,
          .list [.atom "do" 4, .list [.atom ":=" 4, .atom "y" 4, .atom "1" 4] 4] 4,
          .list [.atom "when" 4, .list [.atom "==" 4, .atom "y" 4, .atom "0" 4] 4] 4,
          .list [.atom "do" 4, .list [.atom "-=" 4, .atom "x" 4, .atom "1" 4] 4] 4]⟩]
  initPairs := []
  initEvent := []
  placed := by decide

theorem buildCegarModel_exact_counterAndFlag : ∃ out x batoms tuples,
    buildCegarModel ⟨fun _ => 0, fun _ => 0⟩ counterAndFlag
      [.list [.atom "==" 5, .atom "x" 5, .atom "2" 5] 5] = .ok out ∧
    counterAndFlag.xpl ⟨fun _ => 0, fun _ => 0⟩ = .ok x ∧ out.Exact x batoms tuples := by
  have hok : (buildCegarModel ⟨fun _ => 0, fun _ => 0⟩ counterAndFlag
      [.list [.atom "==" 5, .atom "x" 5, .atom "2" 5] 5]).toBool = true := by decide +kernel
  have hcounts : (letterCounts ⟨fun _ => 0, fun _ => 0⟩ counterAndFlag).toOption = some [2, 1] := by
    decide +kernel
  have hfew : FewLetters ⟨fun _ => 0, fun _ => 0⟩ counterAndFlag := by
    intro counts hc
    rw [hc] at hcounts
    cases hcounts
    decide
  cases h : buildCegarModel ⟨fun _ => 0, fun _ => 0⟩ counterAndFlag
      [.list [.atom "==" 5, .atom "x" 5, .atom "2" 5] 5] with
  | error e =>
    rw [h] at hok
    cases hok
  | ok out =>
    obtain ⟨x, batoms, tuples, hx, -, -, hexact⟩ := buildCegarModel_exact _ _ hfew _ out h
    exact ⟨out, x, batoms, tuples, rfl, hx, hexact⟩

end Exact

end LibHSC.Surface
