import LibHSC.Library.PetriNets
import LibHSC.Lia.Machine
import Mathlib.Data.List.Pairwise

/-!
Place/transition nets as the importer stores them: one sparse column for each
transition and direction, the initial marks, the names. The columns are the arcs of
a net over the integers, whose markings and firings are those of `PetriNets.Net`.
-/

namespace LibHSC.Petri

open Lia

/-! ## Sparse columns -/

/-- Keys ascend, no value is zero. -/
structure SparseArray where
  entries : List (Nat × Int)
  ascending : (entries.map Prod.fst).Pairwise (· < ·)
  nonzero : ∀ e ∈ entries, e.2 ≠ 0

/-- The entry of one key replaced, a zero entry removed. -/
def putEntry (key : Nat) (value : Int) : List (Nat × Int) → List (Nat × Int)
  | [] => if value = 0 then [] else [(key, value)]
  | e :: es =>
    if key < e.1 then (if value = 0 then e :: es else (key, value) :: e :: es)
    else if key = e.1 then (if value = 0 then es else (key, value) :: es)
    else e :: putEntry key value es

theorem mem_putEntry {key : Nat} {value : Int} {e : Nat × Int} :
    ∀ {es : List (Nat × Int)}, (es.map Prod.fst).Pairwise (· < ·) →
      (e ∈ putEntry key value es ↔ e.1 ≠ key ∧ e ∈ es ∨ e = (key, value) ∧ value ≠ 0) := by
  intro es
  induction es with
  | nil =>
    intro _
    by_cases hv : value = 0 <;> simp [putEntry, hv]
  | cons x xs ih =>
    intro hx
    obtain ⟨hlt, hxs⟩ := List.pairwise_cons.mp hx
    have hlater : e ∈ xs → x.1 < e.1 := fun he => hlt e.1 (List.mem_map_of_mem he)
    rw [putEntry]
    split
    · grind
    · split
      · grind
      · grind

theorem putEntry_ascending {key : Nat} {value : Int} : ∀ {es : List (Nat × Int)},
    (es.map Prod.fst).Pairwise (· < ·) →
    ((putEntry key value es).map Prod.fst).Pairwise (· < ·) := by
  intro es
  induction es with
  | nil =>
    intro _
    by_cases hv : value = 0 <;> simp [putEntry, hv]
  | cons x xs ih =>
    intro hx
    obtain ⟨hlt, hxs⟩ := List.pairwise_cons.mp hx
    rw [putEntry]
    split
    · next hkey =>
      split
      · exact hx
      · refine List.pairwise_cons.mpr ⟨fun k hk => ?_, hx⟩
        rcases List.mem_cons.mp hk with rfl | hk
        · exact hkey
        · exact hkey.trans (hlt k hk)
    · split
      · next hkey =>
        split
        · exact hxs
        · refine List.pairwise_cons.mpr ⟨fun k hk => ?_, hxs⟩
          exact hkey ▸ hlt k hk
      · next hge hne =>
        refine List.pairwise_cons.mpr ⟨fun k hk => ?_, ih hxs⟩
        obtain ⟨e, he, rfl⟩ := List.mem_map.mp hk
        rcases (mem_putEntry hxs).mp he with ⟨-, he⟩ | ⟨rfl, -⟩
        · exact hlt _ (List.mem_map_of_mem he)
        · show x.1 < key
          omega

namespace SparseArray

def empty : SparseArray := ⟨[], List.Pairwise.nil, by simp⟩

def size (a : SparseArray) : Nat := a.entries.length

def get (a : SparseArray) (key : Nat) : Int := (a.entries.lookup key).getD 0

def put (a : SparseArray) (key : Nat) (value : Int) : SparseArray where
  entries := putEntry key value a.entries
  ascending := putEntry_ascending a.ascending
  nonzero := by
    intro e he
    rcases (mem_putEntry a.ascending).mp he with ⟨-, he⟩ | ⟨rfl, hv⟩
    · exact a.nonzero e he
    · exact hv

variable {a : SparseArray} {k : Nat} {v : Int}

theorem nodup (a : SparseArray) : (a.entries.map Prod.fst).Nodup :=
  a.ascending.imp Nat.ne_of_lt

end SparseArray

/-- An association list is a function of its keys. -/
theorem lookup_iff_mem {α β : Type} [BEq α] [LawfulBEq α] {es : List (α × β)}
    (h : (es.map Prod.fst).Nodup) {k : α} {v : β} : es.lookup k = some v ↔ (k, v) ∈ es := by
  induction es with
  | nil => simp
  | cons e es ih =>
    obtain ⟨j, w⟩ := e
    obtain ⟨hj, hes⟩ := List.nodup_cons.mp h
    by_cases hk : k = j
    · subst hk
      have hnot : (k, v) ∉ es := by
        intro hmem
        have := List.mem_map_of_mem (f := Prod.fst) hmem
        exact hj this
      simp [hnot, eq_comm]
    · have hb : (k == j) = false := by simpa using hk
      simp [List.lookup_cons, hb, hk, ih hes]

namespace SparseArray

variable {a : SparseArray} {k : Nat} {v : Int}

theorem get_of_mem (h : (k, v) ∈ a.entries) : a.get k = v := by
  rw [get, (lookup_iff_mem a.nodup).mpr h]
  rfl

theorem mem_of_get (h : a.get k ≠ 0) : (k, a.get k) ∈ a.entries := by
  cases hl : a.entries.lookup k with
  | none => simp [get, hl] at h
  | some w =>
    have hmem := (lookup_iff_mem a.nodup).mp hl
    rwa [get_of_mem hmem]

theorem get_eq_zero_iff : a.get k = 0 ↔ k ∉ a.entries.map Prod.fst := by
  constructor
  · intro h hk
    obtain ⟨⟨j, w⟩, hmem, rfl⟩ := List.mem_map.mp hk
    exact a.nonzero _ hmem (by rwa [get_of_mem hmem] at h)
  · intro hk
    by_contra h
    exact hk (List.mem_map_of_mem (mem_of_get h))

end SparseArray

/-! ## Nets -/

structure SparsePetriNet where
  name : String
  marks : List Int
  /-- Of each transition, the places it takes from. -/
  flowPT : List SparseArray
  /-- Of each transition, the places it gives to. -/
  flowTP : List SparseArray
  tnames : List String
  pnames : List String
  maxArcValue : Int

namespace SparsePetriNet

def empty : SparsePetriNet := ⟨"Petri", [], [], [], [], [], 0⟩

variable (n : SparsePetriNet)

def getPlaceCount : Nat := n.pnames.length

def getTransitionCount : Nat := n.tnames.length

def pre (t : Nat) : SparseArray := n.flowPT.getD t .empty

def post (t : Nat) : SparseArray := n.flowTP.getD t .empty

def addPlace (pname : String) (init : Int) : SparsePetriNet :=
  { n with pnames := n.pnames ++ [pname], marks := n.marks ++ [init] }

def addTransition (tname : String) : SparsePetriNet :=
  { n with
    flowPT := n.flowPT ++ [.empty]
    flowTP := n.flowTP ++ [.empty]
    tnames := n.tnames ++ [tname] }

def addPreArc (p t : Nat) (val : Int) : SparsePetriNet :=
  { n with
    flowPT := n.flowPT.modify t fun c => c.put p val
    maxArcValue := max n.maxArcValue val }

def addPostArc (p t : Nat) (val : Int) : SparsePetriNet :=
  { n with
    flowTP := n.flowTP.modify t fun c => c.put p val
    maxArcValue := max n.maxArcValue val }

/-- The entries of a column: arcs of positive weight, to places of the net. -/
structure ColumnOk (places : Nat) (c : SparseArray) : Prop where
  place : ∀ e ∈ c.entries, e.1 < places
  weight : ∀ e ∈ c.entries, 0 < e.2 ∧ InInt32 e.2

/-- What a reader of nets builds. -/
structure WF : Prop where
  marks : n.marks.length = n.pnames.length
  flowPT : n.flowPT.length = n.tnames.length
  flowTP : n.flowTP.length = n.tnames.length
  pre : ∀ c ∈ n.flowPT, ColumnOk n.pnames.length c
  post : ∀ c ∈ n.flowTP, ColumnOk n.pnames.length c
  first : ∀ m ∈ n.marks, 0 ≤ m ∧ InInt32 (m + 1)

/-- The net of the columns. -/
def toNet : PetriNets.Net (Fin n.pnames.length) (Fin n.tnames.length) Int :=
  ⟨fun t p => (n.pre t).get p, fun t p => (n.post t).get p⟩

/-- The initial marking. -/
def initial (p : Fin n.pnames.length) : Int := n.marks.getD p 0

variable {n}

theorem columnOk_empty {k : Nat} : ColumnOk k .empty where
  place := by simp [SparseArray.empty]
  weight := by simp [SparseArray.empty]

theorem WF.pre_ok (h : n.WF) (t : Nat) : ColumnOk n.pnames.length (n.pre t) := by
  unfold SparsePetriNet.pre
  by_cases ht : t < n.flowPT.length
  · rw [List.getD_eq_getElem _ _ ht]
    exact h.pre _ (List.getElem_mem ht)
  · rw [List.getD_eq_default _ _ (by omega)]
    exact columnOk_empty

theorem WF.post_ok (h : n.WF) (t : Nat) : ColumnOk n.pnames.length (n.post t) := by
  unfold SparsePetriNet.post
  by_cases ht : t < n.flowTP.length
  · rw [List.getD_eq_getElem _ _ ht]
    exact h.post _ (List.getElem_mem ht)
  · rw [List.getD_eq_default _ _ (by omega)]
    exact columnOk_empty

theorem ColumnOk.get {k p : Nat} {c : SparseArray} (h : ColumnOk k c) :
    0 ≤ c.get p ∧ InInt32 (c.get p) := by
  by_cases hp : c.get p = 0
  · rw [hp]
    exact ⟨le_rfl, by decide⟩
  · obtain ⟨hpos, hr⟩ := h.weight _ (SparseArray.mem_of_get hp)
    exact ⟨hpos.le, hr⟩

theorem WF.nonneg (h : n.WF) : n.toNet.Nonneg where
  pre t _ := (h.pre_ok t).get.1
  post t _ := (h.post_ok t).get.1

theorem WF.initial (h : n.WF) (p : Fin n.pnames.length) :
    0 ≤ n.initial p ∧ InInt32 (n.initial p) := by
  have hp : (p : Nat) < n.marks.length := by
    rw [h.marks]
    exact p.isLt
  unfold SparsePetriNet.initial
  rw [List.getD_eq_getElem _ _ hp]
  obtain ⟨h0, h1⟩ := h.first _ (List.getElem_mem hp)
  refine ⟨h0, ?_⟩
  unfold InInt32 at h1 ⊢
  omega

/-- Enabling over the arcs of the column. -/
theorem enabled_iff {t : Fin n.tnames.length} {m : Fin n.pnames.length → Int} (hm : ∀ p, 0 ≤ m p) :
    n.toNet.Enabled t m ↔
      ∀ e ∈ (n.pre t).entries, ∀ he : e.1 < n.pnames.length, e.2 ≤ m ⟨e.1, he⟩ := by
  constructor
  · intro hen e he hlt
    have := hen ⟨e.1, hlt⟩
    rwa [show n.toNet.pre t ⟨e.1, hlt⟩ = e.2 from SparseArray.get_of_mem he] at this
  · intro hall p
    by_cases hp : (n.pre t).get p = 0
    · have hzero : n.toNet.pre t p = 0 := hp
      rw [hzero]
      exact hm p
    · exact hall _ (SparseArray.mem_of_get hp) p.isLt

end SparsePetriNet

/-! ## Sums over places -/

/-- The tokens of a place by its number. -/
def markAt {net : SparsePetriNet} (m : Fin net.pnames.length → Int) (p : Nat) : Int :=
  if h : p < net.pnames.length then m ⟨p, h⟩ else 0

/-- The sum of terms, place and coefficient, at a marking. -/
def termsValue (m : Nat → Int) : List (Nat × Int) → Int
  | [] => 0
  | t :: ts => t.2 * m t.1 + termsValue m ts

theorem markAt_nonneg {net : SparsePetriNet} {m : Fin net.pnames.length → Int}
    (hm : ∀ p, 0 ≤ m p) (p : Nat) : 0 ≤ markAt m p := by
  unfold markAt
  split
  · exact hm _
  · exact le_rfl

theorem termsValue_nonneg {m : Nat → Int} (hm : ∀ p, 0 ≤ m p) {ts : List (Nat × Int)}
    (hts : ∀ t ∈ ts, 0 ≤ t.2) : 0 ≤ termsValue m ts := by
  induction ts with
  | nil => exact le_rfl
  | cons t ts ih =>
    obtain ⟨ht, hts⟩ := List.forall_mem_cons.mp hts
    rw [termsValue]
    exact add_nonneg (mul_nonneg ht (hm _)) (ih hts)

theorem termsValue_append (m : Nat → Int) (ts us : List (Nat × Int)) :
    termsValue m (ts ++ us) = termsValue m ts + termsValue m us := by
  induction ts with
  | nil => simp [termsValue]
  | cons t ts ih =>
    rw [List.cons_append, termsValue, termsValue, ih]
    omega

/-! ## One token between two places -/

/-- The places `here` and `there`, a token that moves over. -/
def shuttle : SparsePetriNet where
  name := "shuttle"
  marks := [1, 0]
  flowPT := [⟨[(0, 1)], by decide, by decide⟩]
  flowTP := [⟨[(1, 1)], by decide, by decide⟩]
  tnames := ["move"]
  pnames := ["here", "there"]
  maxArcValue := 1

theorem shuttle_wf : shuttle.WF where
  marks := rfl
  flowPT := rfl
  flowTP := rfl
  pre := List.forall_mem_singleton.mpr ⟨by decide, by decide⟩
  post := List.forall_mem_singleton.mpr ⟨by decide, by decide⟩
  first := by decide

end LibHSC.Petri
