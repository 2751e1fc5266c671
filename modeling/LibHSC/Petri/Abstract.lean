import LibHSC.Petri.Net

/-!
The abstraction of a net by the places it keeps: the others are removed with their arcs.
The columns of the result are the kept entries under their new indices, so that it is the
projection of the net, and every run of the net is one of it.
-/

namespace LibHSC.Petri

open Lia PetriNets

structure Abstraction where
  /-- The kept places, every transition. -/
  net : SparsePetriNet
  /-- Of an original place, its index in the abstract net, if it is there. -/
  toAbstract : List (Option Nat)
  /-- Of an abstract index, the original place. -/
  kept : List Nat
  removed : Nat

section Pass

variable (src : SparsePetriNet) (keep : List Bool)

def abstractPlace (a : Abstraction) (p : Nat) : Abstraction :=
  if keep.getD p false then
    { a with
      net := a.net.addPlace (src.pnames.getD p "") (src.marks.getD p 0)
      toAbstract := a.toAbstract.set p (some a.net.getPlaceCount)
      kept := a.kept ++ [p] }
  else { a with removed := a.removed + 1 }

/-- The arcs of one column to or from kept places, added one by one. -/
def abstractArcs (toAbstract : List (Option Nat))
    (addArc : SparsePetriNet → Nat → Nat → Int → SparsePetriNet) (tr : Nat) (c : SparseArray)
    (net : SparsePetriNet) : SparsePetriNet :=
  c.entries.foldl (fun net e =>
    if keep.getD e.1 false then addArc net ((toAbstract.getD e.1 none).getD 0) tr e.2
    else net) net

def abstractTransition (a : Abstraction) (t : Nat) : Abstraction :=
  let tr := a.net.getTransitionCount
  let net := a.net.addTransition (src.tnames.getD t "")
  let net := abstractArcs keep a.toAbstract .addPreArc tr (src.pre t) net
  { a with net := abstractArcs keep a.toAbstract .addPostArc tr (src.post t) net }

/-- The net without the places that are not to be kept. Names are kept. -/
def abstractNet : Abstraction :=
  let start := ⟨.empty, List.replicate src.getPlaceCount none, [], 0⟩
  let a := (List.range src.getPlaceCount).foldl (abstractPlace src keep) start
  let a := (List.range src.getTransitionCount).foldl (abstractTransition src keep) a
  { a with net := { a.net with name := src.name } }

end Pass

/-! ## The places -/

variable (src : SparsePetriNet) (keep : List Bool)

/-- The kept places below a number. -/
def keptBelow (k : Nat) : List Nat := (List.range k).filter fun p => keep.getD p false

def rank (p : Nat) : Nat := (keptBelow keep p).length

variable {src keep}

theorem keptBelow_succ (k : Nat) :
    keptBelow keep (k + 1) =
      if keep.getD k false then keptBelow keep k ++ [k] else keptBelow keep k := by
  rw [keptBelow, List.range_succ, List.filter_append]
  split
  · next h =>
    rw [List.filter_cons_of_pos (by simpa using h), List.filter_nil]
    rfl
  · next h =>
    rw [List.filter_cons_of_neg (by simpa using h), List.filter_nil, List.append_nil]
    rfl

theorem mem_keptBelow {k p : Nat} : p ∈ keptBelow keep k ↔ p < k ∧ keep.getD p false = true := by
  rw [keptBelow, List.mem_filter, List.mem_range]

theorem keptBelow_prefix {k l : Nat} (h : k ≤ l) :
    (keptBelow keep k).IsPrefix (keptBelow keep l) := by
  induction h with
  | refl => exact List.prefix_refl _
  | step _ ih =>
    refine ih.trans ?_
    rw [keptBelow_succ]
    split
    · exact List.prefix_append _ _
    · exact List.prefix_refl _

/-- A kept place is found at its rank. -/
theorem keptBelow_rank {k p : Nat} (hp : p < k) (hk : keep.getD p false = true) :
    (keptBelow keep k)[rank keep p]? = some p := by
  have hone : (keptBelow keep (p + 1)).IsPrefix (keptBelow keep k) := keptBelow_prefix hp
  obtain ⟨rest, hrest⟩ := hone
  rw [keptBelow_succ, if_pos hk] at hrest
  rw [← hrest, List.append_assoc, rank, List.getElem?_append_right le_rfl, Nat.sub_self]
  rfl

theorem rank_of_keptBelow {k p q : Nat} (h : (keptBelow keep k)[q]? = some p) :
    q = rank keep p := by
  obtain ⟨hp, hk⟩ := mem_keptBelow.mp (List.mem_of_getElem? h)
  have hnodup : (keptBelow keep k).Nodup := List.nodup_range.filter _
  have hat := keptBelow_rank hp hk
  obtain ⟨hq, -⟩ := List.getElem?_eq_some_iff.mp h
  exact (List.getElem?_inj hq hnodup).mp (h.trans hat.symm)

theorem rank_inj {p q : Nat} (hp : keep.getD p false = true) (hq : keep.getD q false = true)
    (h : rank keep p = rank keep q) : p = q := by
  have h1 := keptBelow_rank (k := max p q + 1) (by omega) hp
  have h2 := keptBelow_rank (k := max p q + 1) (by omega) hq
  rw [h] at h1
  exact Option.some.inj (h1.symm.trans h2)

theorem keptBelow_length_le (k : Nat) : (keptBelow keep k).length ≤ k := by
  have := List.length_filter_le (fun p => keep.getD p false) (List.range k)
  rwa [List.length_range] at this

variable (src keep)

/-- Where the first `k` places have been seen. -/
def placesSeen (k : Nat) : Abstraction where
  net := { SparsePetriNet.empty with
    pnames := (keptBelow keep k).map fun p => src.pnames.getD p ""
    marks := (keptBelow keep k).map fun p => src.marks.getD p 0 }
  toAbstract := (List.range src.getPlaceCount).map fun p =>
    if p < k ∧ keep.getD p false = true then some (rank keep p) else none
  kept := keptBelow keep k
  removed := k - (keptBelow keep k).length

theorem abstractPlace_seen (k : Nat) :
    abstractPlace src keep (placesSeen src keep k) k = placesSeen src keep (k + 1) := by
  have hle : (keptBelow keep k).length ≤ k := keptBelow_length_le k
  unfold abstractPlace
  split
  · next hkeep =>
    have hsucc : keptBelow keep (k + 1) = keptBelow keep k ++ [k] := by
      rw [keptBelow_succ, if_pos hkeep]
    have hcount : (placesSeen src keep k).net.getPlaceCount = rank keep k := List.length_map _
    have hto : (placesSeen src keep k).toAbstract.set k (some (rank keep k)) =
        (placesSeen src keep (k + 1)).toAbstract := by
      refine List.ext_getElem (by simp [placesSeen]) fun i h1 h2 => ?_
      rw [List.getElem_set]
      simp only [placesSeen, List.getElem_map, List.getElem_range]
      by_cases hi : k = i
      · subst hi
        rw [if_pos rfl, if_pos ⟨Nat.lt_succ_self k, hkeep⟩]
      · rw [if_neg hi]
        exact if_congr (and_congr_left' (by omega)) rfl rfl
    rw [hcount, hto]
    simp only [placesSeen, hsucc, SparsePetriNet.addPlace, List.map_append, List.map_cons,
      List.map_nil, List.length_append, List.length_cons, List.length_nil]
    congr 1
    omega
  · next hkeep =>
    have hsucc : keptBelow keep (k + 1) = keptBelow keep k := by
      rw [keptBelow_succ, if_neg hkeep]
    have hto : (placesSeen src keep k).toAbstract = (placesSeen src keep (k + 1)).toAbstract := by
      refine List.map_congr_left fun i _ => if_congr ?_ rfl rfl
      constructor
      · exact fun h => ⟨h.1.trans (Nat.lt_succ_self k), h.2⟩
      · rintro ⟨hi, h⟩
        have hne : i ≠ k := fun e => hkeep (e ▸ h)
        exact ⟨by omega, h⟩
    rw [hto]
    simp only [placesSeen, hsucc]
    congr 1
    omega

theorem placesSeen_fold : ∀ k ≤ src.getPlaceCount, (List.range k).foldl (abstractPlace src keep)
      ⟨.empty, List.replicate src.getPlaceCount none, [], 0⟩ = placesSeen src keep k := by
  intro k
  induction k with
  | zero =>
    intro _
    simp [placesSeen, keptBelow, SparsePetriNet.empty]
  | succ k ih =>
    intro hk
    rw [List.range_succ, List.foldl_append, ih (by omega)]
    exact abstractPlace_seen src keep k

/-! ## The arcs -/

namespace SparseArray

def putAll (a : SparseArray) (es : List (Nat × Int)) : SparseArray :=
  es.foldl (fun a e => a.put e.1 e.2) a

theorem mem_putAll {e : Nat × Int} : ∀ {es : List (Nat × Int)} {a : SparseArray},
    (es.map Prod.fst).Nodup → (∀ e ∈ es, e.2 ≠ 0) →
    (e ∈ (a.putAll es).entries ↔ e ∈ es ∨ e.1 ∉ es.map Prod.fst ∧ e ∈ a.entries) := by
  intro es
  induction es with
  | nil =>
    intro a _ _
    simp [putAll]
  | cons x es ih =>
    intro a hn hz
    obtain ⟨hx, hn⟩ := List.nodup_cons.mp hn
    obtain ⟨hxz, hz⟩ := List.forall_mem_cons.mp hz
    have hput : e ∈ (a.put x.1 x.2).entries ↔ e.1 ≠ x.1 ∧ e ∈ a.entries ∨ e = x ∧ x.2 ≠ 0 :=
      mem_putEntry a.ascending
    have hstep : a.putAll (x :: es) = (a.put x.1 x.2).putAll es := rfl
    rw [hstep, ih hn hz, hput, List.map_cons, List.mem_cons, List.mem_cons]
    have hmem : e = x → e.1 ∉ es.map Prod.fst := fun h => h ▸ hx
    tauto

end SparseArray

/-- The kept entries of a column under their new indices. -/
def renumbered (c : SparseArray) : List (Nat × Int) :=
  (c.entries.filter fun e => keep.getD e.1 false).map fun e => (rank keep e.1, e.2)

variable {src keep}

theorem mem_renumbered {c : SparseArray} {e : Nat × Int} :
    e ∈ renumbered keep c ↔
      ∃ p, keep.getD p false = true ∧ (p, e.2) ∈ c.entries ∧ e.1 = rank keep p := by
  unfold renumbered
  rw [List.mem_map]
  constructor
  · rintro ⟨x, hx, rfl⟩
    obtain ⟨hmem, hk⟩ := List.mem_filter.mp hx
    exact ⟨x.1, by simpa using hk, hmem, rfl⟩
  · rintro ⟨p, hk, hmem, he⟩
    exact ⟨(p, e.2), List.mem_filter.mpr ⟨hmem, hk⟩, Prod.ext he.symm rfl⟩

theorem renumbered_nodup (c : SparseArray) : ((renumbered keep c).map Prod.fst).Nodup := by
  unfold renumbered
  rw [List.map_map]
  have hsub : ((c.entries.filter fun e => keep.getD e.1 false).map Prod.fst).Nodup :=
    c.nodup.sublist (List.filter_sublist.map _)
  have hmap : (c.entries.filter fun e => keep.getD e.1 false).map
      (Prod.fst ∘ fun e => (rank keep e.1, e.2)) =
      ((c.entries.filter fun e => keep.getD e.1 false).map Prod.fst).map (rank keep) := by
    rw [List.map_map]
    rfl
  rw [hmap]
  refine hsub.map_on fun p hp q hq h => ?_
  obtain ⟨e, he, rfl⟩ := List.mem_map.mp hp
  obtain ⟨e', he', rfl⟩ := List.mem_map.mp hq
  exact rank_inj (List.mem_filter.mp he).2 (List.mem_filter.mp he').2 h

/-- The column of the abstract net. -/
def abstractColumn (keep : List Bool) (c : SparseArray) : SparseArray :=
  SparseArray.empty.putAll (renumbered keep c)

theorem mem_abstractColumn {c : SparseArray} {e : Nat × Int} :
    e ∈ (abstractColumn keep c).entries ↔
      ∃ p, keep.getD p false = true ∧ (p, e.2) ∈ c.entries ∧ e.1 = rank keep p := by
  have hz : ∀ e ∈ renumbered keep c, e.2 ≠ 0 := by
    intro e he
    obtain ⟨p, -, hmem, -⟩ := mem_renumbered.mp he
    exact c.nonzero (p, e.2) hmem
  rw [abstractColumn, SparseArray.mem_putAll (renumbered_nodup c) hz, mem_renumbered]
  simp [SparseArray.empty]

theorem abstractColumn_get {c : SparseArray} {p : Nat} (hk : keep.getD p false = true) :
    (abstractColumn keep c).get (rank keep p) = c.get p := by
  by_cases hp : c.get p = 0
  · rw [hp, SparseArray.get_eq_zero_iff]
    intro hmem
    obtain ⟨e, he, hep⟩ := List.mem_map.mp hmem
    obtain ⟨p', hk', hmem', hr⟩ := mem_abstractColumn.mp he
    obtain rfl := rank_inj hk hk' (hep.symm.trans hr)
    exact SparseArray.get_eq_zero_iff.mp hp (List.mem_map_of_mem (f := Prod.fst) hmem')
  · exact SparseArray.get_of_mem (mem_abstractColumn.mpr ⟨p, hk, SparseArray.mem_of_get hp, rfl⟩)

theorem columnOk_abstract {c : SparseArray} {k : Nat} (h : SparsePetriNet.ColumnOk k c) :
    SparsePetriNet.ColumnOk (keptBelow keep k).length (abstractColumn keep c) where
  place := by
    intro e he
    obtain ⟨p, hk, hmem, hr⟩ := mem_abstractColumn.mp he
    have hat := keptBelow_rank (h.place _ hmem) hk
    rw [hr]
    exact (List.getElem?_eq_some_iff.mp hat).1
  weight := by
    intro e he
    obtain ⟨p, -, hmem, -⟩ := mem_abstractColumn.mp he
    exact h.weight (p, e.2) hmem

/-- The arcs loop adds the entries of the abstract column. -/
theorem abstractArcs_renumbered {toAbstract : List (Option Nat)} {tr : Nat}
    {addArc : SparsePetriNet → Nat → Nat → Int → SparsePetriNet} {c : SparseArray}
    (hto : ∀ e ∈ c.entries, keep.getD e.1 false = true →
      (toAbstract.getD e.1 none).getD 0 = rank keep e.1) (net : SparsePetriNet) :
    abstractArcs keep toAbstract addArc tr c net =
      (renumbered keep c).foldl (fun net e => addArc net e.1 tr e.2) net := by
  unfold abstractArcs renumbered
  generalize c.entries = es at hto
  induction es generalizing net with
  | nil => rfl
  | cons e es ih =>
    obtain ⟨he, hes⟩ := List.forall_mem_cons.mp hto
    rw [List.foldl_cons]
    by_cases hk : keep.getD e.1 false = true
    · rw [if_pos hk, he hk, ih _ hes, List.filter_cons_of_pos (by simpa using hk)]
      rfl
    · rw [if_neg hk, ih _ hes, List.filter_cons_of_neg (by simpa using hk)]

theorem addPreArcs (tr : Nat) (es : List (Nat × Int)) : ∀ net : SparsePetriNet, ∃ v,
    es.foldl (fun net e => net.addPreArc e.1 tr e.2) net =
      { net with flowPT := net.flowPT.modify tr fun c => c.putAll es, maxArcValue := v } := by
  induction es with
  | nil =>
    intro net
    refine ⟨net.maxArcValue, ?_⟩
    have hid : (fun c : SparseArray => c.putAll []) = id := rfl
    rw [hid, List.modify_id]
    rfl
  | cons e es ih =>
    intro net
    obtain ⟨v, hv⟩ := ih (net.addPreArc e.1 tr e.2)
    refine ⟨v, ?_⟩
    rw [List.foldl_cons, hv]
    simp only [SparsePetriNet.addPreArc, List.modify_modify_eq]
    rfl

theorem addPostArcs (tr : Nat) (es : List (Nat × Int)) : ∀ net : SparsePetriNet, ∃ v,
    es.foldl (fun net e => net.addPostArc e.1 tr e.2) net =
      { net with flowTP := net.flowTP.modify tr fun c => c.putAll es, maxArcValue := v } := by
  induction es with
  | nil =>
    intro net
    refine ⟨net.maxArcValue, ?_⟩
    have hid : (fun c : SparseArray => c.putAll []) = id := rfl
    rw [hid, List.modify_id]
    rfl
  | cons e es ih =>
    intro net
    obtain ⟨v, hv⟩ := ih (net.addPostArc e.1 tr e.2)
    refine ⟨v, ?_⟩
    rw [List.foldl_cons, hv]
    simp only [SparsePetriNet.addPostArc, List.modify_modify_eq]
    rfl

/-! ## The transitions -/

variable (src keep)

/-- Where the first `k` transitions have been seen, up to the greatest arc value. -/
structure TransitionsSeen (k : Nat) (a : Abstraction) : Prop where
  kept : a.kept = keptBelow keep src.getPlaceCount
  removed : a.removed = src.getPlaceCount - (keptBelow keep src.getPlaceCount).length
  toAbstract : a.toAbstract = (placesSeen src keep src.getPlaceCount).toAbstract
  pnames : a.net.pnames = (keptBelow keep src.getPlaceCount).map fun p => src.pnames.getD p ""
  marks : a.net.marks = (keptBelow keep src.getPlaceCount).map fun p => src.marks.getD p 0
  tnames : a.net.tnames = (List.range k).map fun t => src.tnames.getD t ""
  flowPT : a.net.flowPT = (List.range k).map fun t => abstractColumn keep (src.pre t)
  flowTP : a.net.flowTP = (List.range k).map fun t => abstractColumn keep (src.post t)

variable {src keep}

theorem toAbstract_at {p : Nat} (hp : p < src.getPlaceCount) (hk : keep.getD p false = true) :
    (placesSeen src keep src.getPlaceCount).toAbstract.getD p none = some (rank keep p) := by
  rw [placesSeen, List.getD_eq_getElem _ _ (by simpa using hp), List.getElem_map,
    List.getElem_range, if_pos ⟨hp, hk⟩]

theorem modify_last {α : Type} (as : List α) (a : α) (f : α → α) :
    (as ++ [a]).modify as.length f = as ++ [f a] := by
  induction as with
  | nil => rfl
  | cons b as ih =>
    rw [List.length_cons, List.cons_append, List.modify_succ_cons, ih]
    rfl

theorem TransitionsSeen.next {k : Nat} {a : Abstraction} (h : TransitionsSeen src keep k a)
    (hw : src.WF) : TransitionsSeen src keep (k + 1) (abstractTransition src keep a k) := by
  have hto : ∀ c, SparsePetriNet.ColumnOk src.pnames.length c → ∀ e ∈ c.entries,
      keep.getD e.1 false = true → (a.toAbstract.getD e.1 none).getD 0 = rank keep e.1 := by
    intro c hc e he hk
    rw [h.toAbstract, toAbstract_at (hc.place e he) hk]
    rfl
  have hcount : a.net.getTransitionCount = k := by
    rw [SparsePetriNet.getTransitionCount, h.tnames, List.length_map, List.length_range]
  have hlast (f : Nat → SparseArray) (es : List (Nat × Int)) :
      ((List.range k).map f ++ [SparseArray.empty]).modify k (fun c => c.putAll es) =
        (List.range k).map f ++ [SparseArray.empty.putAll es] := by
    have := modify_last ((List.range k).map f) SparseArray.empty fun c => c.putAll es
    rwa [List.length_map, List.length_range] at this
  unfold abstractTransition
  dsimp only
  rw [hcount, abstractArcs_renumbered (hto _ (hw.pre_ok k)),
    abstractArcs_renumbered (hto _ (hw.post_ok k))]
  obtain ⟨v, hv⟩ := addPreArcs k (renumbered keep (src.pre k))
    (a.net.addTransition (src.tnames.getD k ""))
  rw [hv]
  obtain ⟨w, hw'⟩ := addPostArcs k (renumbered keep (src.post k))
    { a.net.addTransition (src.tnames.getD k "") with
      flowPT := (a.net.addTransition (src.tnames.getD k "")).flowPT.modify k
        fun c => c.putAll (renumbered keep (src.pre k))
      maxArcValue := v }
  rw [hw']
  constructor
  · exact h.kept
  · exact h.removed
  · exact h.toAbstract
  · exact h.pnames
  · exact h.marks
  · simp only [SparsePetriNet.addTransition, h.tnames, List.range_succ, List.map_append,
      List.map_cons, List.map_nil]
  · simp only [SparsePetriNet.addTransition, h.flowPT, List.range_succ, List.map_append,
      List.map_cons, List.map_nil, hlast]
    rfl
  · simp only [SparsePetriNet.addTransition, h.flowTP, List.range_succ, List.map_append,
      List.map_cons, List.map_nil, hlast]
    rfl

theorem transitionsSeen_fold (hw : src.WF) : ∀ k, TransitionsSeen src keep k
    ((List.range k).foldl (abstractTransition src keep)
      (placesSeen src keep src.getPlaceCount)) := by
  intro k
  induction k with
  | zero => exact ⟨rfl, rfl, rfl, rfl, rfl, rfl, rfl, rfl⟩
  | succ k ih =>
    rw [List.range_succ, List.foldl_append]
    exact ih.next hw

/-- What the pass gives. -/
theorem abstractNet_seen (hw : src.WF) :
    TransitionsSeen src keep src.getTransitionCount (abstractNet src keep) := by
  have h : TransitionsSeen src keep _ _ := transitionsSeen_fold hw src.getTransitionCount
  rw [← placesSeen_fold src keep _ le_rfl] at h
  exact ⟨h.kept, h.removed, h.toAbstract, h.pnames, h.marks, h.tnames, h.flowPT, h.flowTP⟩

/-! ## The projection -/

section Projection

variable {a : Abstraction}

theorem map_getD_range {α β : Type} (as : List α) (d : α) (f : α → β) :
    (List.range as.length).map (fun i => f (as.getD i d)) = as.map f := by
  refine List.ext_getElem (by simp) fun i h1 h2 => ?_
  have hi : i < as.length := by simpa using h2
  rw [List.getElem_map, List.getElem_range, List.getElem_map, List.getD_eq_getElem _ _ hi]

theorem TransitionsSeen.tnames_eq (h : TransitionsSeen src keep src.getTransitionCount a) :
    a.net.tnames = src.tnames := by
  rw [h.tnames]
  have := map_getD_range src.tnames "" id
  rwa [List.map_id] at this

theorem TransitionsSeen.count (h : TransitionsSeen src keep src.getTransitionCount a) :
    a.net.pnames.length = (keptBelow keep src.getPlaceCount).length := by
  rw [h.pnames, List.length_map]

theorem TransitionsSeen.wf (h : TransitionsSeen src keep src.getTransitionCount a)
    (hw : src.WF) : a.net.WF where
  marks := by rw [h.marks, h.pnames, List.length_map, List.length_map]
  flowPT := by rw [h.flowPT, h.tnames, List.length_map, List.length_map]
  flowTP := by rw [h.flowTP, h.tnames, List.length_map, List.length_map]
  pre := by
    intro c hc
    rw [h.flowPT] at hc
    obtain ⟨t, -, rfl⟩ := List.mem_map.mp hc
    rw [h.count]
    exact columnOk_abstract (hw.pre_ok t)
  post := by
    intro c hc
    rw [h.flowTP] at hc
    obtain ⟨t, -, rfl⟩ := List.mem_map.mp hc
    rw [h.count]
    exact columnOk_abstract (hw.post_ok t)
  first := by
    intro m hm
    rw [h.marks] at hm
    obtain ⟨p, hp, rfl⟩ := List.mem_map.mp hm
    have hlt : p < src.marks.length := by
      rw [hw.marks]
      exact (mem_keptBelow.mp hp).1
    rw [List.getD_eq_getElem _ _ hlt]
    exact hw.first _ (List.getElem_mem hlt)

/-- The original place of an abstract one. -/
def TransitionsSeen.place (h : TransitionsSeen src keep src.getTransitionCount a)
    (q : Fin a.net.pnames.length) : Fin src.pnames.length :=
  ⟨(keptBelow keep src.getPlaceCount).get ⟨q, h.count ▸ q.isLt⟩,
    (mem_keptBelow.mp (List.get_mem _ _)).1⟩

theorem TransitionsSeen.pname (h : TransitionsSeen src keep src.getTransitionCount a) {i p : Nat}
    (hi : (keptBelow keep src.getPlaceCount)[i]? = some p) :
    a.net.pnames.getD i "" = src.pnames.getD p "" := by
  rw [h.pnames, List.getD_eq_getElem?_getD, List.getElem?_map, hi]
  rfl

variable (h : TransitionsSeen src keep src.getTransitionCount a)

theorem TransitionsSeen.place_at (q : Fin a.net.pnames.length) :
    (keptBelow keep src.getPlaceCount)[(q : Nat)]? = some (h.place q : Nat) :=
  List.getElem?_eq_some_iff.mpr ⟨h.count ▸ q.isLt, rfl⟩

theorem TransitionsSeen.place_kept (q : Fin a.net.pnames.length) :
    keep.getD (h.place q) false = true :=
  (mem_keptBelow.mp (List.mem_of_getElem? (h.place_at q))).2

theorem TransitionsSeen.rank_place (q : Fin a.net.pnames.length) :
    (q : Nat) = rank keep (h.place q) :=
  rank_of_keptBelow (h.place_at q)

theorem TransitionsSeen.place_mono : StrictMono h.place := by
  have hsorted : (keptBelow keep src.getPlaceCount).Pairwise (· < ·) :=
    List.pairwise_lt_range.filter _
  intro q q' hlt
  exact List.pairwise_iff_get.mp hsorted ⟨q, h.count ▸ q.isLt⟩ ⟨q', h.count ▸ q'.isLt⟩ hlt

theorem TransitionsSeen.exists_place (p : Fin src.pnames.length) :
    keep.getD p false = true ↔ ∃ q, h.place q = p := by
  constructor
  · intro hk
    have hat := keptBelow_rank (k := src.getPlaceCount) p.isLt hk
    obtain ⟨hlt, -⟩ := List.getElem?_eq_some_iff.mp hat
    refine ⟨⟨rank keep p, h.count ▸ hlt⟩, Fin.ext ?_⟩
    exact Option.some.inj ((h.place_at _).symm.trans hat)
  · rintro ⟨q, rfl⟩
    exact h.place_kept q

theorem TransitionsSeen.projects :
    src.toNet.Projects a.net.toNet h.place (Fin.cast (congrArg List.length h.tnames_eq.symm)) where
  pre := by
    intro t q
    have hcol : a.net.pre t = abstractColumn keep (src.pre t) := by
      rw [SparsePetriNet.pre, h.flowPT,
        List.getD_eq_getElem _ _ (by simp [SparsePetriNet.getTransitionCount]),
        List.getElem_map, List.getElem_range]
    show (a.net.pre t).get q = (src.pre t).get (h.place q)
    rw [hcol, h.rank_place q]
    exact abstractColumn_get (h.place_kept q)
  post := by
    intro t q
    have hcol : a.net.post t = abstractColumn keep (src.post t) := by
      rw [SparsePetriNet.post, h.flowTP,
        List.getD_eq_getElem _ _ (by simp [SparsePetriNet.getTransitionCount]),
        List.getElem_map, List.getElem_range]
    show (a.net.post t).get q = (src.post t).get (h.place q)
    rw [hcol, h.rank_place q]
    exact abstractColumn_get (h.place_kept q)

theorem TransitionsSeen.initial : a.net.initial = src.initial ∘ h.place := by
  funext q
  have hq := h.place_at q
  rw [SparsePetriNet.initial, h.marks, List.getD_eq_getElem?_getD, List.getElem?_map, hq]
  rfl

end Projection

/-- The abstraction is a net again, on exactly the kept places under their names and with every
transition under its own; every marking the net reaches is, on the kept places, one the
abstraction reaches, and a marking of the net that is dead there is dead in the net. -/
theorem abstractNet_projects (src : SparsePetriNet) (keep : List Bool) (hw : src.WF) :
    (abstractNet src keep).net.WF ∧ (abstractNet src keep).net.tnames = src.tnames ∧
    ∃ place : Fin (abstractNet src keep).net.pnames.length → Fin src.pnames.length,
      StrictMono place ∧
      (∀ p : Fin src.pnames.length, keep.getD p false = true ↔ ∃ q, place q = p) ∧
      (∀ q : Fin _, (abstractNet src keep).net.pnames.getD q "" = src.pnames.getD (place q) "" ∧
        (abstractNet src keep).kept[(q : Nat)]? = some (place q : Nat) ∧
        (abstractNet src keep).toAbstract.getD (place q) none = some (q : Nat)) ∧
      ∀ m, src.toNet.Reachable src.initial m → (abstractNet src keep).net.toNet.Reachable
          (abstractNet src keep).net.initial (m ∘ place) ∧
        ((abstractNet src keep).net.toNet.Dead (m ∘ place) → src.toNet.Dead m) := by
  have h : TransitionsSeen src keep _ _ := abstractNet_seen hw
  refine ⟨h.wf hw, h.tnames_eq, h.place, h.place_mono, h.exists_place,
    fun q => ⟨h.pname (h.place_at q), ?_, ?_⟩, fun m hm => ?_⟩
  · rw [h.kept]
    exact h.place_at q
  · rw [h.toAbstract, toAbstract_at (h.place q).isLt (h.place_kept q), ← h.rank_place]
  · rw [h.initial]
    exact ⟨hm.project h.projects, h.projects.dead⟩

theorem abstractNet_projects_shuttle :
    (abstractNet shuttle [false, true]).net.WF ∧
    (abstractNet shuttle [false, true]).net.tnames = shuttle.tnames ∧
    ∃ place : Fin (abstractNet shuttle [false, true]).net.pnames.length → Fin shuttle.pnames.length,
      StrictMono place ∧
      (∀ p : Fin shuttle.pnames.length, [false, true].getD p false = true ↔ ∃ q, place q = p) ∧
      (∀ q : Fin _, (abstractNet shuttle [false, true]).net.pnames.getD q "" =
          shuttle.pnames.getD (place q) "" ∧
        (abstractNet shuttle [false, true]).kept[(q : Nat)]? = some (place q : Nat) ∧
        (abstractNet shuttle [false, true]).toAbstract.getD (place q) none = some (q : Nat)) ∧
      ∀ m, shuttle.toNet.Reachable shuttle.initial m →
        (abstractNet shuttle [false, true]).net.toNet.Reachable
          (abstractNet shuttle [false, true]).net.initial (m ∘ place) ∧
        ((abstractNet shuttle [false, true]).net.toNet.Dead (m ∘ place) → shuttle.toNet.Dead m) :=
  abstractNet_projects shuttle [false, true] shuttle_wf

end LibHSC.Petri
