import LibHSC.Canonize
import LibHSC.Library.OpenTable
import Mathlib.Algebra.Group.Nat.Defs

/-!
The accumulator as it is stored: the entries and, past `kLinear` of them, an
open-addressing index from a sub to the position of its entry. `Canonize` has
the plain list; here every operation returns and keeps the two in step.

The index holds positions, and its slots are found from the subs. A rewrite of
a prime changes neither.
-/

open OpenTable (Filled slotAt probe_fresh probe_held filled_empty)

namespace LibHSC.Accumulator

/-- A slot of the index without a position. -/
def npos : UInt32 := 4294967295

def kLinear : Nat := 8

/-- `util::mix32`, on 32 bits that wrap. -/
def mix32 (key : UInt32) : UInt32 :=
  let key := key + ~~~(key <<< 15)
  let key := key ^^^ (key >>> 10)
  let key := key + (key <<< 3)
  let key := key ^^^ (key >>> 6)
  let key := key + ~~~(key <<< 11)
  key ^^^ (key >>> 16)

section Definitions

variable {C : Type}

/-- The slot holding `sub`, or the empty slot where it would go. The loop of
the source has no bound; `none` is a search that went round the whole index. -/
def probe (entries : List (Arc C UInt32)) (index : List UInt32) (sub : UInt32) :
    Nat → Nat → Option Nat
  | 0, _ => none
  | fuel + 1, i =>
    if index.getD i npos ≠ npos ∧ entries[(index.getD i npos).toNat]?.map Arc.sub ≠ some sub then
      probe entries index sub fuel ((i + 1) &&& (index.length - 1))
    else some i

/-- `probe` from the slot of the hash on. -/
def slotOf (entries : List (Arc C UInt32)) (index : List UInt32) (sub : UInt32) : Option Nat :=
  probe entries index sub index.length ((mix32 sub).toNat &&& (index.length - 1))

/-- Put the positions `ks` into the index. -/
def place (entries : List (Arc C UInt32)) : List Nat → List UInt32 → Option (List UInt32)
  | [], index => some index
  | k :: ks, index =>
    match entries[k]? with
    | none => place entries ks index
    | some e =>
      match slotOf entries index e.sub with
      | none => none
      | some slot => place entries ks (index.set slot (UInt32.ofNat k))

def reindex (entries : List (Arc C UInt32)) (size : Nat) : Option (List UInt32) :=
  place entries (List.range entries.length) (List.replicate size npos)

end Definitions

end LibHSC.Accumulator

namespace LibHSC

/-- `diagram_engine::accumulator`; the index is empty while the search is
linear. -/
structure Accumulator (C : Type) where
  entries : List (Arc C UInt32)
  index : List UInt32
  deriving DecidableEq

namespace Accumulator

section Operations

variable {C : Type} [DecidableEq C] (H : SupportAlgebra C)

def merge (prime : C) (a : Arc C UInt32) : Arc C UInt32 :=
  ⟨if a.prime = H.none then prime else H.join a.prime prime, a.sub⟩

/-- `accumulator::add`; `none` is a probe that does not end. -/
def add (acc : Accumulator C) (sub : UInt32) (prime : C) : Option (Accumulator C) :=
  if sub = 0 ∨ prime = H.none then some acc
  else if acc.index = [] then
    match acc.entries.findIdx? fun a => a.sub = sub with
    | some k => some { acc with entries := acc.entries.modify k (merge H prime) }
    | none =>
      let entries := acc.entries ++ [⟨prime, sub⟩]
      if kLinear < entries.length then (reindex entries (4 * kLinear)).map (⟨entries, ·⟩)
      else some ⟨entries, acc.index⟩
  else
    match slotOf acc.entries acc.index sub with
    | none => none
    | some slot =>
      let k := acc.index.getD slot npos
      if k ≠ npos then
        some { acc with entries := acc.entries.modify k.toNat (merge H prime) }
      else
        let index := acc.index.set slot (UInt32.ofNat acc.entries.length)
        let entries := acc.entries ++ [⟨prime, sub⟩]
        if index.length < 2 * entries.length then
          (reindex entries (2 * index.length)).map (⟨entries, ·⟩)
        else some ⟨entries, index⟩

/-- The sieve's write to the prime of entry `k`, past the index. -/
def rewrite (acc : Accumulator C) (k : Nat) (prime : C) : Accumulator C :=
  { acc with entries := acc.entries.modify k fun a => ⟨prime, a.sub⟩ }

/-- The position `add` finds `sub` at: outside, whether the search ends. -/
def locate (acc : Accumulator C) (sub : UInt32) : Option (Option Nat) :=
  if acc.index = [] then some (acc.entries.findIdx? fun a => a.sub = sub)
  else
    (slotOf acc.entries acc.index sub).map fun slot =>
      if acc.index.getD slot npos = npos then none else some (acc.index.getD slot npos).toNat

/-- One use of an accumulator. -/
inductive Op (C : Type) where
  | add (sub : UInt32) (prime : C)
  | rewrite (k : Nat) (prime : C)

def run (acc : Accumulator C) : List (Op C) → Option (Accumulator C)
  | [] => some acc
  | .add sub prime :: ops =>
    match add H acc sub prime with
    | none => none
    | some acc => run acc ops
  | .rewrite k prime :: ops => run (rewrite acc k prime) ops

/-- The same uses of the plain association list. -/
def runPlain (entries : List (Arc C UInt32)) : List (Op C) → List (Arc C UInt32)
  | [] => entries
  | .add sub prime :: ops =>
    runPlain (if sub = 0 ∨ prime = H.none then entries else mergeEntry H sub prime entries) ops
  | .rewrite k prime :: ops => runPlain (entries.modify k fun a => ⟨prime, a.sub⟩) ops

end Operations

/-! ## The index as an open table -/

section Index

variable {C : Type}

/-- The slot as the table of the library has it: 0 is empty. -/
def cell (x : UInt32) : Nat := if x = npos then 0 else x.toNat + 1

def subs (entries : List (Arc C UInt32)) : List UInt32 := entries.map Arc.sub

def homeOf (entries : List (Arc C UInt32)) (v : Nat) : Nat :=
  (mix32 ((subs entries).getD v 0)).toNat

theorem cell_eq_zero {x : UInt32} : cell x = 0 ↔ x = npos := by
  unfold cell
  split
  · next h => exact ⟨fun _ => h, fun _ => rfl⟩
  · next h => exact ⟨fun h0 => absurd h0 (Nat.succ_ne_zero _), fun h0 => absurd h0 h⟩

theorem cell_of_ne {x : UInt32} (h : x ≠ npos) : cell x = x.toNat + 1 := if_neg h

/-- A position below `npos` is stored as it is. -/
theorem ofNat_lt {k : Nat} (hk : k < 4294967295) :
    UInt32.ofNat k ≠ npos ∧ (UInt32.ofNat k).toNat = k := by
  have h : (UInt32.ofNat k).toNat = k := UInt32.toNat_ofNat_of_lt' (by show k < 4294967296; omega)
  refine ⟨fun h0 => ?_, h⟩
  rw [h0] at h
  have : npos.toNat = 4294967295 := rfl
  omega

theorem getD_cell (index : List UInt32) (i : Nat) :
    (index.map cell).getD i 0 = cell (index.getD i npos) := by
  rw [List.getD_eq_getElem?_getD, List.getD_eq_getElem?_getD, List.getElem?_map]
  cases index[i]? with
  | none => exact (cell_eq_zero.mpr rfl).symm
  | some x => rfl

theorem map_cell_set (index : List UInt32) (i k : Nat) (hk : k < 4294967295) :
    (index.set i (UInt32.ofNat k)).map cell = (index.map cell).set i (k + 1) := by
  rw [List.map_set, cell_of_ne (ofNat_lt hk).1, (ofNat_lt hk).2]

theorem map_cell_replicate (size : Nat) :
    (List.replicate size npos).map cell = List.replicate size 0 := by
  rw [List.map_replicate]
  exact congrArg _ (cell_eq_zero.mpr rfl)

theorem mask_eq {size m : Nat} (h : size = 2 ^ m) (x : Nat) : x &&& (size - 1) = x % size := by
  rw [h, Nat.and_two_pow_sub_one_eq_mod]

variable {entries : List (Arc C UInt32)} {index : List UInt32} {sub : UInt32} {m : Nat}

/-- The source's probe is the library's: it ends where that does. -/
theorem probe_eq (hm : index.length = 2 ^ m) (fuel i : Nat) :
    (∀ j, OpenTable.probe (subs entries) (index.map cell) sub fuel i = .free j →
      probe entries index sub fuel i = some j ∧ index.getD j npos = npos) ∧
    (∀ v, OpenTable.probe (subs entries) (index.map cell) sub fuel i = .found v →
      ∃ j, probe entries index sub fuel i = some j ∧ index.getD j npos ≠ npos ∧
        (index.getD j npos).toNat = v) := by
  induction fuel generalizing i with
  | zero => exact ⟨fun j h => (by cases h), fun v h => (by cases h)⟩
  | succ fuel ih =>
    have hstep : (i + 1) % (index.map cell).length = (i + 1) &&& (index.length - 1) := by
      rw [List.length_map, mask_eq hm]
    rw [OpenTable.probe, probe, getD_cell, hstep]
    by_cases hempty : index.getD i npos = npos
    · rw [if_pos (cell_eq_zero.mpr hempty), if_neg fun h => h.1 hempty]
      refine ⟨fun j h => ?_, fun v h => (by cases h)⟩
      obtain rfl : i = j := by injection h
      exact ⟨rfl, hempty⟩
    · have hcell := cell_of_ne hempty
      have hrow : (subs entries)[(index.getD i npos).toNat]? =
          entries[(index.getD i npos).toNat]?.map Arc.sub := List.getElem?_map
      rw [hcell, if_neg (Nat.succ_ne_zero _), Nat.add_sub_cancel, hrow]
      by_cases hsub : entries[(index.getD i npos).toNat]?.map Arc.sub = some sub
      · rw [if_pos hsub, if_neg fun h => h.2 hsub]
        refine ⟨fun j h => (by cases h), fun v h => ?_⟩
        obtain rfl : (index.getD i npos).toNat = v := by injection h
        exact ⟨i, rfl, hempty, rfl⟩
      · rw [if_neg hsub, if_pos ⟨hempty, hsub⟩]
        exact ih _

/-- A sub no position of the index leads to has an empty slot. -/
theorem slotOf_fresh (hm : index.length = 2 ^ m) {hash : Nat → Nat} {P : Nat → Prop} {n : Nat}
    (ht : Filled hash P n (index.map cell)) (hs : ∀ v, P v → (subs entries)[v]? ≠ some sub) :
    ∃ k < (index.map cell).length,
      slotOf entries index sub = some (slotAt (index.map cell) (mix32 sub).toNat k) ∧
      index.getD (slotAt (index.map cell) (mix32 sub).toNat k) npos = npos ∧
      (index.map cell).getD (slotAt (index.map cell) (mix32 sub).toNat k) 0 = 0 ∧
      ∀ j < k, (index.map cell).getD (slotAt (index.map cell) (mix32 sub).toNat j) 0 ≠ 0 := by
  obtain ⟨k, hk, hprobe, h0, hpath⟩ := probe_fresh ht hs (mix32 sub).toNat
  rw [List.length_map] at hprobe
  obtain ⟨hslot, hempty⟩ := (probe_eq hm _ _).1 _ hprobe
  refine ⟨k, hk, ?_, hempty, h0, hpath⟩
  rw [slotOf, mask_eq hm]
  exact hslot

/-- The home of a position is the hash of its sub. -/
theorem homeOf_eq {v : Nat} (h : (subs entries)[v]? = some sub) :
    homeOf entries v = (mix32 sub).toNat := by
  rw [homeOf, List.getD_eq_getElem?_getD, h]
  rfl

/-- The index holds the first `n` positions. -/
def Holds (entries : List (Arc C UInt32)) (n : Nat) (index : List UInt32) : Prop :=
  Filled (homeOf entries) (· < n) n (index.map cell)

/-- A sub of the index is found at its position. -/
theorem slotOf_held (hm : index.length = 2 ^ m) {n v : Nat} (ht : Holds entries n index)
    (hu : (subs entries).Nodup) (hv : v < n) (hrow : (subs entries)[v]? = some sub) :
    ∃ j, slotOf entries index sub = some j ∧ index.getD j npos ≠ npos ∧
      (index.getD j npos).toNat = v := by
  have hone : ∀ w, w < n → (subs entries)[w]? = some sub → w = v := by
    intro w _ hw
    exact (List.getElem?_inj (List.getElem?_eq_some_iff.mp hw).1 hu).mp (hw.trans hrow.symm)
  have hprobe := probe_held ht hv hrow hone
  rw [homeOf_eq hrow, List.length_map] at hprobe
  obtain ⟨j, hj, hne, hk⟩ := (probe_eq hm _ _).2 v hprobe
  refine ⟨j, ?_, hne, hk⟩
  rw [slotOf, mask_eq hm]
  exact hj

/-- A position is put into the index where the probe of its sub ends. The probe
may read shorter entries than the index is about. -/
theorem Holds.place {rows : List (Arc C UInt32)} {n : Nat} (ht : Holds entries n index)
    (hm : index.length = 2 ^ m) (hrow : (subs entries)[n]? = some sub)
    (hs : ∀ v, v < n → (subs rows)[v]? ≠ some sub) (hn : n < 4294967295)
    (hroom : n + 1 < index.length) :
    ∃ slot, slotOf rows index sub = some slot ∧ index.getD slot npos = npos ∧
      Holds entries (n + 1) (index.set slot (UInt32.ofNat n)) := by
  obtain ⟨k, hk, hslot, hempty, h0, hpath⟩ := slotOf_fresh hm ht hs
  refine ⟨_, hslot, hempty, ?_⟩
  rw [← homeOf_eq hrow] at h0 hpath ⊢
  have hset := Filled.set ht hk h0 hpath (by rw [List.length_map]; exact hroom)
  rw [Holds, map_cell_set _ _ _ hn]
  exact hset.congr fun v => by omega

theorem place_spec {entries : List (Arc C UInt32)} (hu : (subs entries).Nodup)
    (hlen : entries.length < 4294967296) (count : Nat) :
    ∀ (n : Nat) (index : List UInt32), n + count = entries.length → Holds entries n index →
      index.length = 2 ^ m → entries.length < index.length →
      ∃ index', place entries (List.range' n count) index = some index' ∧
        index'.length = index.length ∧ Holds entries entries.length index' := by
  induction count with
  | zero =>
    intro n index hn ht _ _
    rw [Nat.add_zero] at hn
    exact ⟨index, rfl, rfl, hn ▸ ht⟩
  | succ count ih =>
    intro n index hn ht hm hroom
    have hlt : n < entries.length := by omega
    have hrow : (subs entries)[n]? = some entries[n].sub := by
      rw [subs, List.getElem?_map, List.getElem?_eq_getElem hlt]
      rfl
    have hs : ∀ v, v < n → (subs entries)[v]? ≠ some entries[n].sub := by
      intro v hv h
      have := (List.getElem?_inj (List.getElem?_eq_some_iff.mp h).1 hu).mp (h.trans hrow.symm)
      omega
    obtain ⟨slot, hslot, -, ht'⟩ := ht.place hm hrow hs (by omega) (by omega)
    obtain ⟨index', h1, h2, h3⟩ := ih (n + 1) _ (by omega) ht'
      (by rw [List.length_set]; exact hm) (by rw [List.length_set]; exact hroom)
    refine ⟨index', ?_, by rw [h2, List.length_set], h3⟩
    rw [List.range'_succ, Accumulator.place, List.getElem?_eq_getElem hlt]
    simp only [hslot]
    exact h1

/-- Rebuilding the index returns and holds every position. -/
theorem reindex_spec (hu : (subs entries).Nodup) (hlen : entries.length < 4294967296) {size : Nat}
    (hsize : size = 2 ^ m) (hroom : entries.length < size) :
    ∃ index, reindex entries size = some index ∧ index.length = size ∧
      Holds entries entries.length index := by
  have hempty : Holds entries 0 (List.replicate size npos) := by
    rw [Holds, map_cell_replicate]
    exact (filled_empty _ (Nat.zero_lt_of_lt hroom)).congr fun v => by simp
  obtain ⟨index, h1, h2, h3⟩ := place_spec hu hlen entries.length 0 _ (Nat.zero_add _) hempty
    (by rw [List.length_replicate]; exact hsize) (by rw [List.length_replicate]; exact hroom)
  refine ⟨index, ?_, by rw [h2, List.length_replicate], h3⟩
  rw [reindex, List.range_eq_range']
  exact h1

/-- The index leads to the same entries after an append. -/
theorem Holds.append {n : Nat} (ht : Holds entries n index) (hn : n ≤ entries.length)
    (more : List (Arc C UInt32)) : Holds (entries ++ more) n index := by
  refine Filled.hash_congr ht fun v hv => ?_
  have hlt : v < (subs entries).length := by
    rw [subs, List.length_map]
    omega
  rw [homeOf, homeOf, show subs (entries ++ more) = subs entries ++ subs more from List.map_append,
    List.getD_eq_getElem?_getD, List.getD_eq_getElem?_getD, List.getElem?_append_left hlt]

theorem Holds.congr {entries' : List (Arc C UInt32)} {n : Nat} (ht : Holds entries n index)
    (h : subs entries' = subs entries) : Holds entries' n index := by
  refine Filled.hash_congr ht fun v _ => ?_
  rw [homeOf, homeOf, h]

end Index

/-! ## The invariant -/

section Invariant

variable {C : Type}

/-- The subs are distinct and not absence, and a table that is there holds every
position and is at most half full. -/
structure Good (acc : Accumulator C) : Prop where
  distinct : (subs acc.entries).Nodup
  present : 0 ∉ subs acc.entries
  linear : acc.index = [] → acc.entries.length ≤ kLinear
  indexed : acc.index ≠ [] → (∃ m, acc.index.length = 2 ^ m) ∧ 4 * kLinear ≤ acc.index.length ∧
    2 * acc.entries.length ≤ acc.index.length ∧ Holds acc.entries acc.entries.length acc.index

/-- Distinct subs other than 0 are fewer than 32-bit numbers. -/
theorem length_lt {entries : List (Arc C UInt32)} (hu : (subs entries).Nodup)
    (h0 : 0 ∉ subs entries) : entries.length < 4294967296 := by
  have hnodup : ((0 :: subs entries).map UInt32.toNat).Nodup :=
    (List.nodup_cons.mpr ⟨h0, hu⟩).map fun a b h => UInt32.toNat_inj.mp h
  have hsub : (0 :: subs entries).map UInt32.toNat ⊆ List.range 4294967296 := by
    intro x hx
    obtain ⟨a, -, rfl⟩ := List.mem_map.mp hx
    exact List.mem_range.mpr a.toNat_lt
  have hle := (List.subperm_of_subset hnodup hsub).length_le
  rw [List.length_map, List.length_cons, subs, List.length_map, List.length_range] at hle
  exact hle

theorem Good.empty : Good (⟨[], []⟩ : Accumulator C) :=
  ⟨List.nodup_nil, List.not_mem_nil, fun _ => Nat.zero_le _, fun h => absurd rfl h⟩

/-- Entries whose subs stay keep the invariant. -/
theorem Good.congr {acc : Accumulator C} (h : Good acc) {entries : List (Arc C UInt32)}
    (hsubs : subs entries = subs acc.entries) : Good ⟨entries, acc.index⟩ := by
  have hlen : entries.length = acc.entries.length := by
    have := congrArg List.length hsubs
    rwa [subs, subs, List.length_map, List.length_map] at this
  refine ⟨hsubs ▸ h.distinct, hsubs ▸ h.present, fun hi => hlen ▸ h.linear hi, fun hi => ?_⟩
  obtain ⟨h1, hwide, h2, h3⟩ := h.indexed hi
  refine ⟨h1, hwide, by rw [hlen]; exact h2, ?_⟩
  show Holds entries entries.length acc.index
  rw [hlen]
  exact h3.congr hsubs

theorem subs_modify (entries : List (Arc C UInt32)) (k : Nat) (f : Arc C UInt32 → Arc C UInt32)
    (hf : ∀ a, (f a).sub = a.sub) : subs (entries.modify k f) = subs entries := by
  rw [subs, subs]
  refine List.ext_getElem? fun i => ?_
  rw [List.getElem?_map, List.getElem?_map, List.getElem?_modify]
  cases entries[i]? with
  | none => rfl
  | some a =>
    simp only [Option.map_eq_map, Option.map_some]
    split
    · exact congrArg some (hf a)
    · rfl

/-- The linear search finds no entry. -/
theorem findIdx?_none {entries : List (Arc C UInt32)} {sub : UInt32} (h : sub ∉ subs entries) :
    (entries.findIdx? fun a => a.sub = sub) = none := by
  rw [List.findIdx?_eq_none_iff]
  intro a ha
  exact decide_eq_false fun heq => h (List.mem_map.mpr ⟨a, ha, heq⟩)

/-- The linear search finds the one entry there is. -/
theorem findIdx?_some {entries : List (Arc C UInt32)} {sub : UInt32} {v : Nat}
    (hu : (subs entries).Nodup) (hrow : (subs entries)[v]? = some sub) :
    (entries.findIdx? fun a => a.sub = sub) = some v := by
  rw [subs, List.getElem?_map, Option.map_eq_some_iff] at hrow
  obtain ⟨a, ha, rfl⟩ := hrow
  obtain ⟨hlt, ha⟩ := List.getElem?_eq_some_iff.mp ha
  rw [List.findIdx?_eq_some_iff_getElem]
  refine ⟨hlt, decide_eq_true (by rw [ha]), fun j hj => ?_⟩
  rw [decide_eq_true_eq]
  intro heq
  have hlj : j < (subs entries).length := by
    rw [subs, List.length_map]
    omega
  have := (List.getElem?_inj (j := v) hlj hu).mp (by
    rw [subs, List.getElem?_map, List.getElem?_map, List.getElem?_eq_getElem hlt,
      List.getElem?_eq_getElem (by omega)]
    simp only [Option.map_some]
    rw [heq, ha])
  omega

/-- Every search ends, at the entry the linear one finds. -/
theorem locate_spec {acc : Accumulator C} (h : Good acc) (sub : UInt32) :
    locate acc sub = some (acc.entries.findIdx? fun a => a.sub = sub) := by
  unfold locate
  split
  · rfl
  next hi =>
  obtain ⟨⟨m, hm⟩, -, -, ht⟩ := h.indexed hi
  by_cases hmem : sub ∈ subs acc.entries
  · obtain ⟨v, hv⟩ := List.mem_iff_getElem?.mp hmem
    have hlt : v < acc.entries.length := by
      have := (List.getElem?_eq_some_iff.mp hv).1
      rwa [subs, List.length_map] at this
    obtain ⟨j, hj, hne, hk⟩ := slotOf_held hm ht h.distinct hlt hv
    rw [hj, Option.map_some, if_neg hne, hk, findIdx?_some h.distinct hv]
  · have hs : ∀ v, v < acc.entries.length → (subs acc.entries)[v]? ≠ some sub :=
      fun v _ hv => hmem (List.mem_of_getElem? hv)
    obtain ⟨k, -, hslot, hempty, -⟩ := slotOf_fresh hm ht hs
    rw [hslot, Option.map_some, if_pos hempty, findIdx?_none hmem]

end Invariant

/-! ## The operations -/

section Steps

variable {C : Type} [DecidableEq C] {H : SupportAlgebra C}

theorem mergeEntry_found {sub : UInt32} {prime : C} :
    ∀ {entries : List (Arc C UInt32)} {k : Nat}, (entries.findIdx? fun a => a.sub = sub) = some k →
      mergeEntry H sub prime entries = entries.modify k (merge H prime) := by
  intro entries
  induction entries with
  | nil => intro k h; cases h
  | cons a entries ih =>
    intro k h
    rw [List.findIdx?_cons] at h
    rw [mergeEntry]
    by_cases ha : a.sub = sub
    · rw [if_pos (decide_eq_true ha)] at h
      obtain rfl := Option.some.inj h
      rw [if_pos ha]
      rfl
    · rw [if_neg (by rwa [decide_eq_true_eq]), Option.map_eq_some_iff] at h
      obtain ⟨j, hj, rfl⟩ := h
      rw [if_neg ha, ih hj]
      rfl

theorem mergeEntry_fresh {sub : UInt32} {prime : C} :
    ∀ {entries : List (Arc C UInt32)}, sub ∉ subs entries →
      mergeEntry H sub prime entries = entries ++ [⟨prime, sub⟩] := by
  intro entries
  induction entries with
  | nil => intro _; rfl
  | cons a entries ih =>
    intro h
    have hmem : sub ∉ subs entries := fun hin => h (List.mem_cons_of_mem _ hin)
    have ha : a.sub ≠ sub := fun heq => h (heq ▸ List.mem_cons_self)
    rw [mergeEntry, if_neg ha, ih hmem]
    rfl

theorem merge_sub (prime : C) (a : Arc C UInt32) : (merge H prime a).sub = a.sub := rfl

theorem Good.merge {acc : Accumulator C} (h : Good acc) (k : Nat) (prime : C) :
    Good ⟨acc.entries.modify k (merge H prime), acc.index⟩ :=
  h.congr (subs_modify _ _ _ (merge_sub prime))

omit [DecidableEq C] in
theorem Good.rewrite {acc : Accumulator C} (h : Good acc) (k : Nat) (prime : C) :
    Good (rewrite acc k prime) :=
  h.congr (subs_modify _ _ _ fun _ => rfl)

omit [DecidableEq C] in
/-- The entries over a rebuilt index. -/
theorem Good.reindexed {entries : List (Arc C UInt32)} (hu : (subs entries).Nodup)
    (h0 : 0 ∉ subs entries) {size m : Nat} (hsize : size = 2 ^ m)
    (hwide : 4 * kLinear ≤ size) (hhalf : 2 * entries.length ≤ size) :
    ∃ acc, (reindex entries size).map (⟨entries, ·⟩) = some acc ∧ Good acc ∧
      acc.entries = entries := by
  have hpos : 0 < size := hsize ▸ Nat.two_pow_pos m
  obtain ⟨index, h1, h2, h3⟩ := reindex_spec hu (length_lt hu h0) hsize (by omega)
  refine ⟨⟨entries, index⟩, by rw [h1]; rfl, ⟨hu, h0, fun hi => ?_, fun _ => ?_⟩, rfl⟩
  · have hnil : index = [] := hi
    rw [hnil, List.length_nil] at h2
    omega
  · refine ⟨⟨m, h2.trans hsize⟩, ?_, ?_, h3⟩
    · exact hwide.trans (Nat.le_of_eq h2.symm)
    · exact hhalf.trans (Nat.le_of_eq h2.symm)

/-- A sub that is there: its entry is merged, found by either search. -/
theorem add_found {acc : Accumulator C} (h : Good acc) {sub : UInt32} {prime : C}
    (hskip : ¬ (sub = 0 ∨ prime = H.none)) {v : Nat} (hv : (subs acc.entries)[v]? = some sub) :
    add H acc sub prime = some ⟨acc.entries.modify v (merge H prime), acc.index⟩ := by
  have hlt : v < acc.entries.length := by
    have := (List.getElem?_eq_some_iff.mp hv).1
    rwa [subs, List.length_map] at this
  rw [add, if_neg hskip]
  split
  · rw [findIdx?_some h.distinct hv]
  · next hi =>
    obtain ⟨⟨m, hm⟩, -, -, ht⟩ := h.indexed hi
    obtain ⟨j, hj, hne, hk⟩ := slotOf_held hm ht h.distinct hlt hv
    simp only [hj, hk, if_pos hne]

/-- A sub that is not there: a last entry, across every change of the index. -/
theorem add_fresh {acc : Accumulator C} (h : Good acc) {sub : UInt32} {prime : C}
    (hskip : ¬ (sub = 0 ∨ prime = H.none)) (hmem : sub ∉ subs acc.entries) :
    ∃ acc', add H acc sub prime = some acc' ∧ Good acc' ∧
      acc'.entries = acc.entries ++ [⟨prime, sub⟩] := by
  have hlast : subs (acc.entries ++ [⟨prime, sub⟩]) = subs acc.entries ++ [sub] :=
    List.map_append
  have hu : (subs (acc.entries ++ [⟨prime, sub⟩])).Nodup := by
    rw [hlast]
    refine List.nodup_append.mpr ⟨h.distinct, List.nodup_singleton _, fun a ha b hb hab => ?_⟩
    obtain rfl := List.mem_singleton.mp hb
    exact hmem (hab ▸ ha)
  have h0 : 0 ∉ subs (acc.entries ++ [⟨prime, sub⟩]) := by
    rw [hlast, List.mem_append, List.mem_singleton]
    rintro (h0 | h0)
    · exact h.present h0
    · exact hskip (.inl h0.symm)
  have hlen : (acc.entries ++ [(⟨prime, sub⟩ : Arc C UInt32)]).length = acc.entries.length + 1 :=
    List.length_append
  have hbound := length_lt hu h0
  rw [add, if_neg hskip]
  split
  · next hi =>
    have hsmall := h.linear hi
    simp only [findIdx?_none hmem]
    split
    · have hpow : 4 * kLinear = 2 ^ 5 := rfl
      refine Good.reindexed hu h0 hpow le_rfl ?_
      unfold kLinear at *
      omega
    · next hshort =>
      exact ⟨_, rfl, ⟨hu, h0, fun _ => Nat.le_of_not_lt hshort, fun hne => absurd hi hne⟩, rfl⟩
  · next hi =>
    obtain ⟨⟨m, hm⟩, hwide, hhalf, ht⟩ := h.indexed hi
    have h32 : 4 * kLinear = 32 := rfl
    have hrow : (subs (acc.entries ++ [⟨prime, sub⟩]))[acc.entries.length]? = some sub := by
      rw [hlast, List.getElem?_append_right (by rw [subs, List.length_map]), subs,
        List.length_map, Nat.sub_self]
      rfl
    have hs : ∀ v, v < acc.entries.length → (subs acc.entries)[v]? ≠ some sub :=
      fun v _ hv => hmem (List.mem_of_getElem? hv)
    obtain ⟨slot, hslot, hempty, hset⟩ := (ht.append le_rfl [⟨prime, sub⟩]).place
      hm hrow hs (by omega) (by omega)
    have hkeep : (acc.index.set slot (UInt32.ofNat acc.entries.length)).length =
      acc.index.length := List.length_set
    simp only [hslot, if_neg (not_not.mpr hempty)]
    split
    · refine Good.reindexed hu h0 (m := m + 1) ?_ (by omega) (by omega)
      rw [hkeep, hm, Nat.pow_succ, Nat.mul_comm]
    · next hroomy =>
      refine ⟨_, rfl, ⟨hu, h0, fun hnil => ?_, fun _ => ?_⟩, rfl⟩
      · have hnil' := congrArg List.length hnil
        rw [hkeep, List.length_nil] at hnil'
        omega
      · refine ⟨⟨m, hkeep.trans hm⟩, hwide.trans (Nat.le_of_eq hkeep.symm),
          Nat.le_of_not_lt hroomy, ?_⟩
        rw [← hlen] at hset
        exact hset

/-- `add` returns, and the entries are those of the plain list. -/
theorem add_spec {acc : Accumulator C} (h : Good acc) (sub : UInt32) (prime : C) :
    ∃ acc', add H acc sub prime = some acc' ∧ Good acc' ∧ acc'.entries =
        if sub = 0 ∨ prime = H.none then acc.entries else mergeEntry H sub prime acc.entries := by
  by_cases hskip : sub = 0 ∨ prime = H.none
  · rw [add, if_pos hskip, if_pos hskip]
    exact ⟨acc, rfl, h, rfl⟩
  rw [if_neg hskip]
  by_cases hmem : sub ∈ subs acc.entries
  · obtain ⟨v, hv⟩ := List.mem_iff_getElem?.mp hmem
    exact ⟨_, add_found h hskip hv, h.merge v prime,
      (mergeEntry_found (findIdx?_some h.distinct hv)).symm⟩
  · rw [mergeEntry_fresh hmem]
    exact add_fresh h hskip hmem

/-- Any run returns, in step with the plain list. -/
theorem run_spec : ∀ (ops : List (Op C)) {acc : Accumulator C}, Good acc →
    ∃ acc', run H acc ops = some acc' ∧ Good acc' ∧ acc'.entries = runPlain H acc.entries ops := by
  intro ops
  induction ops with
  | nil =>
    intro acc h
    exact ⟨acc, rfl, h, rfl⟩
  | cons op ops ih =>
    intro acc h
    cases op with
    | add sub prime =>
      obtain ⟨acc₁, h1, hgood, hentries⟩ := add_spec (H := H) h sub prime
      obtain ⟨acc₂, h2, hgood₂, hentries₂⟩ := ih hgood
      refine ⟨acc₂, ?_, hgood₂, ?_⟩
      · rw [run, h1]
        exact h2
      · rw [hentries₂, hentries, runPlain]
    | rewrite k prime =>
      exact ih (h.rewrite k prime)

end Steps

/-! ## The results -/

section Results

variable {C : Type} [DecidableEq C]

/-- The accumulator and the plain association list: every run of adds and prime
rewrites returns, with the entries of the list, one for each sub; and every
search ends at the entry the linear search finds. -/
theorem run_refines (H : SupportAlgebra C) (ops : List (Op C)) :
    ∃ acc, run H ⟨[], []⟩ ops = some acc ∧ acc.entries = runPlain H [] ops ∧
      (acc.entries.map Arc.sub).Nodup ∧
      ∀ sub, locate acc sub = some (acc.entries.findIdx? fun a => a.sub = sub) := by
  obtain ⟨acc, h1, hgood, h2⟩ := run_spec (H := H) ops Good.empty
  exact ⟨acc, h1, h2, hgood.distinct, locate_spec hgood⟩

/-! ## The canonicalizer over it -/

variable (H : SupportAlgebra C) (T : SupportAlgebra UInt32)

/-- The buffer of the sieve, merged into the accumulator. -/
def addArcs (acc : Accumulator C) : List (Arc C UInt32) → Option (Accumulator C)
  | [] => some acc
  | a :: arcs =>
    match add H acc a.sub a.prime with
    | none => none
    | some acc => addArcs acc arcs

/-- The sieve carves the entries in place; the index is not told. -/
def sieve (acc : Accumulator C) (operand : List (Arc C UInt32)) : Option (Accumulator C) :=
  let r := sieveLoop H T acc.entries [] operand
  addArcs H { acc with entries := r.1 } r.2

def sieveEach (acc : Accumulator C) : List (Arc C UInt32) → Option (Accumulator C)
  | [] => some acc
  | r :: rectangles =>
    match sieve H T acc [r] with
    | none => none
    | some acc => sieveEach acc rectangles

def canonize (rectangles : List (Arc C UInt32)) : Option (List (Arc C UInt32)) :=
  (sieveEach H T ⟨[], []⟩ rectangles).map fun acc => finish H T acc.entries

variable {H T}

theorem carve_subs (sub : UInt32) : ∀ (entries : List (Arc C UInt32)) (rest : C),
    subs (carve H T sub rest entries).entries = subs entries := by
  intro entries
  induction entries with
  | nil => intro rest; rfl
  | cons e entries ih =>
    intro rest
    unfold carve
    split
    · exact congrArg (e.sub :: ·) (ih rest)
    split
    · rfl
    split
    · rfl
    simp only
    split
    · exact congrArg (e.sub :: ·) (ih rest)
    · exact congrArg (e.sub :: ·) (ih _)

theorem sieveLoop_subs : ∀ (operand entries merged : List (Arc C UInt32)),
    subs (sieveLoop H T entries merged operand).1 = subs entries := by
  intro operand
  induction operand with
  | nil => intro entries merged; rfl
  | cons inc operand ih =>
    intro entries merged
    unfold sieveLoop
    split
    · exact ih entries merged
    · exact (ih _ _).trans (carve_subs _ _ _)

theorem addArcs_spec (hT : T.none = 0) : ∀ (arcs : List (Arc C UInt32)) {acc : Accumulator C},
    Good acc → ∃ acc', addArcs H acc arcs = some acc' ∧ Good acc' ∧
      acc'.entries = addAll H T acc.entries arcs := by
  intro arcs
  induction arcs with
  | nil =>
    intro acc h
    exact ⟨acc, rfl, h, rfl⟩
  | cons a arcs ih =>
    intro acc h
    obtain ⟨acc₁, h1, hgood, hentries⟩ := add_spec (H := H) h a.sub a.prime
    obtain ⟨acc₂, h2, hgood₂, hentries₂⟩ := ih hgood
    refine ⟨acc₂, ?_, hgood₂, ?_⟩
    · rw [addArcs, h1]
      exact h2
    · rw [hentries₂, hentries, addAll, addAll, List.foldl_cons, LibHSC.add, hT]

theorem sieve_spec (hT : T.none = 0) {acc : Accumulator C} (h : Good acc)
    (operand : List (Arc C UInt32)) :
    ∃ acc', sieve H T acc operand = some acc' ∧ Good acc' ∧
      acc'.entries = LibHSC.sieve H T acc.entries operand :=
  addArcs_spec hT _ (h.congr (sieveLoop_subs _ _ _))

/-- The canonicalizer over the indexed accumulator is the one over the list. -/
theorem canonize_eq (hT : T.none = 0) (rectangles : List (Arc C UInt32)) :
    canonize H T rectangles = some (LibHSC.canonize H T rectangles) := by
  have hloop : ∀ (rectangles : List (Arc C UInt32)) {acc : Accumulator C}, Good acc →
      ∃ acc', sieveEach H T acc rectangles = some acc' ∧
        acc'.entries = rectangles.foldl (fun l r => LibHSC.sieve H T l [r]) acc.entries := by
    intro rectangles
    induction rectangles with
    | nil =>
      intro acc _
      exact ⟨acc, rfl, rfl⟩
    | cons r rectangles ih =>
      intro acc h
      obtain ⟨acc₁, h1, hgood, hentries⟩ := sieve_spec (H := H) hT h [r]
      obtain ⟨acc₂, h2, hentries₂⟩ := ih hgood
      refine ⟨acc₂, ?_, ?_⟩
      · rw [sieveEach, h1]
        exact h2
      · rw [hentries₂, hentries, List.foldl_cons]
  obtain ⟨acc, h1, h2⟩ := hloop rectangles Good.empty
  rw [canonize, h1, Option.map_some, h2]
  rfl

end Results

end Accumulator

end LibHSC
