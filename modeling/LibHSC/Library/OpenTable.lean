import Mathlib.Data.List.Basic
import Mathlib.Data.Nat.Find

/-!
Open addressing with linear probing: a table of slots over a list of rows. A
slot holds the id of a row plus one, 0 is empty. The hash is arbitrary.

`Filled` is the invariant: every id is found by probing from the hash of its
row, because the slots before its own are taken.
-/

namespace OpenTable

/-- How a probe ends; `full` is a table without an empty slot on the way. -/
inductive Probe where
  | found (id : Nat)
  | free (slot : Nat)
  | full
  deriving DecidableEq

section Definitions

variable {α : Type} [DecidableEq α]

def probe (rows : List α) (table : List Nat) (s : α) : Nat → Nat → Probe
  | 0, _ => .full
  | fuel + 1, i =>
    if table.getD i 0 = 0 then .free i
    else if rows[table.getD i 0 - 1]? = some s then .found (table.getD i 0 - 1)
    else probe rows table s fuel ((i + 1) % table.length)

/-- The first empty slot from `i` on. -/
def vacant (table : List Nat) : Nat → Nat → Option Nat
  | 0, _ => none
  | fuel + 1, i =>
    if table.getD i 0 = 0 then some i else vacant table fuel ((i + 1) % table.length)

/-- Put the taken slots of a table into another one. -/
def rehash (hash : Nat → Nat) : List Nat → List Nat → List Nat
  | [], bigger => bigger
  | slot :: slots, bigger =>
    if slot = 0 then rehash hash slots bigger
    else
      match vacant bigger bigger.length (hash (slot - 1) % bigger.length) with
      | some i => rehash hash slots (bigger.set i slot)
      | none => rehash hash slots bigger

end Definitions

/-- The slot `k` steps behind the hash `h`. -/
def slotAt (table : List Nat) (h k : Nat) : Nat := (h + k) % table.length

theorem slotAt_lt {table : List Nat} (hpos : 0 < table.length) (h k : Nat) :
    slotAt table h k < table.length :=
  Nat.mod_lt _ hpos

theorem slotAt_succ (table : List Nat) (h k : Nat) :
    (slotAt table h k + 1) % table.length = slotAt table h (k + 1) := by
  unfold slotAt
  rw [Nat.mod_add_mod, Nat.add_assoc]

/-- Every slot is on the way from every hash. -/
theorem exists_slotAt {table : List Nat} (h : Nat) {i : Nat} (hi : i < table.length) :
    ∃ k < table.length, slotAt table h k = i := by
  have hr := Nat.mod_lt h (Nat.zero_lt_of_lt hi)
  have hdiv := Nat.div_add_mod h table.length
  unfold slotAt
  by_cases hle : h % table.length ≤ i
  · refine ⟨i - h % table.length, by omega, ?_⟩
    rw [show h + (i - h % table.length) = table.length * (h / table.length) + i by omega,
      Nat.mul_add_mod, Nat.mod_eq_of_lt hi]
  · refine ⟨i + table.length - h % table.length, by omega, ?_⟩
    rw [show h + (i + table.length - h % table.length) =
      table.length * (h / table.length) + (table.length + i) by omega,
      Nat.mul_add_mod, Nat.add_mod_left, Nat.mod_eq_of_lt hi]

/-- The table holds the ids `P`, `n` of them, each at a slot its hash leads to
over taken slots; and some slot is empty. -/
structure Filled (hash : Nat → Nat) (P : Nat → Prop) (n : Nat) (table : List Nat) : Prop where
  has : ∀ v, P v ↔ ∃ i : Nat, table[i]? = some (v + 1)
  placed : ∀ (i v : Nat), table[i]? = some (v + 1) → ∃ k < table.length,
    i = slotAt table (hash v) k ∧ ∀ j < k, table.getD (slotAt table (hash v) j) 0 ≠ 0
  count : table.countP (fun x => decide (x ≠ 0)) = n
  room : n < table.length

section Probing

variable {hash : Nat → Nat} {P : Nat → Prop} {n : Nat} {table : List Nat}

theorem Filled.pos (ht : Filled hash P n table) : 0 < table.length :=
  Nat.zero_lt_of_lt ht.room

/-- On every way there is an empty slot. -/
theorem Filled.exists_empty (ht : Filled hash P n table) (h : Nat) :
    ∃ k < table.length, table.getD (slotAt table h k) 0 = 0 := by
  have hex : ∃ x ∈ table, x = 0 := by
    by_contra hno
    have hall : table.countP (fun x => decide (x ≠ 0)) = table.length := by
      rw [List.countP_eq_length]
      intro x hx
      exact decide_eq_true fun h0 => hno ⟨x, hx, h0⟩
    have := ht.count
    have := ht.room
    omega
  obtain ⟨x, hx, rfl⟩ := hex
  obtain ⟨i, hi, hx⟩ := List.getElem_of_mem hx
  obtain ⟨k, hk, hslot⟩ := exists_slotAt h hi
  refine ⟨k, hk, ?_⟩
  rw [hslot, List.getD_eq_getElem?_getD, List.getElem?_eq_getElem hi, hx]
  rfl

theorem exists_first_empty (ht : Filled hash P n table) (h : Nat) :
    ∃ k < table.length, table.getD (slotAt table h k) 0 = 0 ∧
      ∀ j < k, table.getD (slotAt table h j) 0 ≠ 0 := by
  have hex : ∃ k, k < table.length ∧ table.getD (slotAt table h k) 0 = 0 := by
    obtain ⟨k, hk, h0⟩ := ht.exists_empty h
    exact ⟨k, hk, h0⟩
  obtain ⟨hk, h0⟩ := Nat.find_spec hex
  refine ⟨Nat.find hex, hk, h0, fun j hj hj0 => ?_⟩
  exact Nat.find_min hex hj ⟨by omega, hj0⟩

variable {α : Type} [DecidableEq α] {rows : List α} {s : α}

theorem probe_steps (rows : List α) (s : α) (h : Nat) : ∀ {k n j : Nat}, k ≤ n →
    (∀ i < k, table.getD (slotAt table h (j + i)) 0 ≠ 0 ∧
      rows[table.getD (slotAt table h (j + i)) 0 - 1]? ≠ some s) →
    probe rows table s n (slotAt table h j) =
      probe rows table s (n - k) (slotAt table h (j + k)) := by
  intro k
  induction k with
  | zero => simp
  | succ k ih =>
    intro fuel j hk hne
    obtain ⟨fuel, rfl⟩ := Nat.exists_eq_add_of_le' (show 1 ≤ fuel by omega)
    obtain ⟨h1, h2⟩ := hne 0 (by omega)
    rw [Nat.add_zero] at h1 h2
    rw [probe, if_neg h1, if_neg h2, slotAt_succ, ih (by omega)]
    · rw [show fuel + 1 - (k + 1) = fuel - k by omega, show j + 1 + k = j + (k + 1) by omega]
    · intro i hi
      rw [show j + 1 + i = j + (i + 1) by omega]
      exact hne (i + 1) (by omega)

theorem slot_of_getD {i : Nat} (h : table.getD i 0 ≠ 0) :
    table[i]? = some (table.getD i 0 - 1 + 1) := by
  rw [List.getD_eq_getElem?_getD] at h ⊢
  cases hi : table[i]? with
  | none => simp [hi] at h
  | some x =>
    simp only [hi, Option.getD_some] at h ⊢
    congr 1
    omega

/-- A row that is not held leads to an empty slot. -/
theorem probe_fresh (ht : Filled hash P n table) (hs : ∀ v, P v → rows[v]? ≠ some s) (h : Nat) :
    ∃ k < table.length,
      probe rows table s table.length (h % table.length) = .free (slotAt table h k) ∧
      table.getD (slotAt table h k) 0 = 0 ∧ ∀ j < k, table.getD (slotAt table h j) 0 ≠ 0 := by
  obtain ⟨k, hk, h0, hpath⟩ := exists_first_empty ht h
  refine ⟨k, hk, ?_, h0, hpath⟩
  have hsteps := probe_steps rows s h (j := 0) (Nat.le_of_lt hk) (by
    intro i hi
    rw [Nat.zero_add]
    exact ⟨hpath i hi, hs _ ((ht.has _).mpr ⟨_, slot_of_getD (hpath i hi)⟩)⟩)
  rw [show h % table.length = slotAt table h 0 from rfl, hsteps, Nat.zero_add]
  obtain ⟨m, hm⟩ := Nat.exists_eq_add_of_lt hk
  rw [show table.length - k = m + 1 by omega, probe, if_pos h0]

/-- The search for an empty slot is the probe for a row of an empty list. -/
theorem vacant_of_probe : ∀ {fuel i k : Nat},
    probe ([] : List Unit) table () fuel i = .free k → vacant table fuel i = some k := by
  intro fuel
  induction fuel with
  | zero => nofun
  | succ fuel ih =>
    intro i k h
    rw [probe] at h
    rw [vacant]
    split at h
    · next h0 =>
      cases h
      rw [if_pos h0]
    · next h0 =>
      rw [if_neg (by simp)] at h
      rw [if_neg h0, ih h]

/-- The first empty slot is found, over taken ones. -/
theorem vacant_spec (ht : Filled hash P n table) (h : Nat) :
    ∃ k < table.length, vacant table table.length (h % table.length) = some (slotAt table h k) ∧
      table.getD (slotAt table h k) 0 = 0 ∧ ∀ j < k, table.getD (slotAt table h j) 0 ≠ 0 := by
  have hrows : ∀ v, P v → ([] : List Unit)[v]? ≠ some () := by simp
  obtain ⟨k, hk, hp, h0, hpath⟩ := probe_fresh ht hrows h
  exact ⟨k, hk, vacant_of_probe hp, h0, hpath⟩

/-- A row that is held, and by one id only, is found. -/
theorem probe_held (ht : Filled hash P n table) {v : Nat} (hv : P v) (hrow : rows[v]? = some s)
    (hone : ∀ w, P w → rows[w]? = some s → w = v) :
    probe rows table s table.length (hash v % table.length) = .found v := by
  obtain ⟨i, hi⟩ := (ht.has v).mp hv
  obtain ⟨k, hk, rfl, hpath⟩ := ht.placed i v hi
  have hget : table.getD (slotAt table (hash v) k) 0 = v + 1 := by
    rw [List.getD_eq_getElem?_getD, hi]
    rfl
  have hpath' : ∀ j < k + 1, table.getD (slotAt table (hash v) j) 0 ≠ 0 := by
    intro j hj
    rcases Nat.lt_succ_iff_lt_or_eq.mp hj with hlt | rfl
    · exact hpath j hlt
    · omega
  -- the first slot on the way whose row is `s`
  have hex : ∃ j, j ≤ k ∧ rows[table.getD (slotAt table (hash v) j) 0 - 1]? = some s :=
    ⟨k, Nat.le_refl _, by rw [hget]; exact hrow⟩
  obtain ⟨hle, hmatch⟩ := Nat.find_spec hex
  have hsteps := probe_steps rows s (hash v) (j := 0) (k := Nat.find hex)
    (n := table.length) (by omega) (by
      intro j hj
      rw [Nat.zero_add]
      refine ⟨hpath' j (by omega), fun hm => Nat.find_min hex hj ⟨by omega, hm⟩⟩)
  have hne := hpath' (Nat.find hex) (by omega)
  have hw := hone _ ((ht.has _).mpr ⟨_, slot_of_getD hne⟩) hmatch
  rw [show hash v % table.length = slotAt table (hash v) 0 from rfl, hsteps, Nat.zero_add]
  obtain ⟨m, hm⟩ := Nat.exists_eq_add_of_lt (show Nat.find hex < table.length by omega)
  rw [show table.length - Nat.find hex = m + 1 by omega, probe, if_neg hne, if_pos hmatch, hw]

end Probing

/-! ## Filling -/

section Filling

variable {hash : Nat → Nat} {P : Nat → Prop} {n : Nat} {table : List Nat}

theorem slotAt_set (h k i x : Nat) : slotAt (table.set i x) h k = slotAt table h k := by
  unfold slotAt
  rw [List.length_set]

theorem getD_set_ne_zero {i x : Nat} (hx : x ≠ 0) {j : Nat} (hj : table.getD j 0 ≠ 0) :
    (table.set i x).getD j 0 ≠ 0 := by
  rw [List.getD_eq_getElem?_getD, List.getElem?_set] at *
  split
  · next h =>
    split
    · exact hx
    · next hlt =>
      rw [List.getElem?_eq_none (by omega)] at hj
      exact absurd rfl hj
  · exact hj

/-- An id put into the first empty slot on its way. -/
theorem Filled.set (ht : Filled hash P n table) {v k : Nat} (hk : k < table.length)
    (h0 : table.getD (slotAt table (hash v) k) 0 = 0)
    (hpath : ∀ j < k, table.getD (slotAt table (hash v) j) 0 ≠ 0) (hroom : n + 1 < table.length) :
    Filled hash (fun w => P w ∨ w = v) (n + 1) (table.set (slotAt table (hash v) k) (v + 1)) := by
  have hlt := slotAt_lt ht.pos (hash v) k
  have hslot : table[slotAt table (hash v) k]? = some 0 := by
    rw [List.getElem?_eq_getElem hlt]
    rw [List.getD_eq_getElem?_getD, List.getElem?_eq_getElem hlt] at h0
    exact congrArg some h0
  refine ⟨fun w => ?_, fun i w hi => ?_, ?_, by rw [List.length_set]; exact hroom⟩
  · constructor
    · rintro (hw | rfl)
      · obtain ⟨i, hi⟩ := (ht.has w).mp hw
        refine ⟨i, ?_⟩
        rw [List.getElem?_set, if_neg ?_]
        · exact hi
        · rintro rfl
          rw [hslot] at hi
          cases hi
      · exact ⟨_, List.getElem?_set_self hlt⟩
    · rintro ⟨i, hi⟩
      rw [List.getElem?_set] at hi
      split at hi
      · right
        have := Option.some.inj hi
        omega
      · exact .inl ((ht.has w).mpr ⟨i, hi⟩)
  · rw [List.getElem?_set] at hi
    simp only [slotAt_set, List.length_set]
    split at hi
    · next heq =>
      obtain rfl : v = w := Nat.succ.inj (Option.some.inj hi)
      exact ⟨k, hk, heq.symm, fun j hj => getD_set_ne_zero (Nat.succ_ne_zero v) (hpath j hj)⟩
    · obtain ⟨k', hk', rfl, hpath'⟩ := ht.placed i w hi
      exact ⟨k', hk', rfl, fun j hj => getD_set_ne_zero (Nat.succ_ne_zero v) (hpath' j hj)⟩
  · have hsplit := List.countP_set (p := fun x => decide (x ≠ 0)) (a := v + 1) hlt
    have h0' : table[slotAt table (hash v) k] = 0 := by
      rw [List.getElem?_eq_getElem hlt] at hslot
      exact Option.some.inj hslot
    rw [hsplit, h0', ht.count]
    simp

theorem filled_empty (hash : Nat → Nat) {m : Nat} (hm : 0 < m) :
    Filled hash (fun _ => False) 0 (List.replicate m 0) where
  has v := by
    refine ⟨False.elim, fun ⟨i, hi⟩ => ?_⟩
    have := List.eq_of_mem_replicate (List.mem_of_getElem? hi)
    omega
  placed i v hi := by
    have := List.eq_of_mem_replicate (List.mem_of_getElem? hi)
    omega
  count := by simp [List.countP_replicate]
  room := by rwa [List.length_replicate]

theorem Filled.congr {Q : Nat → Prop} (ht : Filled hash P n table) (h : ∀ v, P v ↔ Q v) :
    Filled hash Q n table :=
  ⟨fun v => (h v).symm.trans (ht.has v), ht.placed, ht.count, ht.room⟩

/-- The hashes of the held ids are all a table depends on. -/
theorem Filled.hash_congr {hash hash' : Nat → Nat} {P : Nat → Prop} {n : Nat} {table : List Nat}
    (ht : Filled hash P n table) (h : ∀ v, P v → hash v = hash' v) : Filled hash' P n table := by
  refine ⟨ht.has, fun i v hi => ?_, ht.count, ht.room⟩
  rw [← h v ((ht.has v).mpr ⟨i, hi⟩)]
  exact ht.placed i v hi

/-- Rehashing adds the ids of the taken slots. -/
theorem rehash_filled : ∀ (slots : List Nat) {P : Nat → Prop} {n : Nat} {table : List Nat},
    Filled hash P n table → n + slots.countP (fun x => decide (x ≠ 0)) < table.length →
    Filled hash (fun v => P v ∨ v + 1 ∈ slots) (n + slots.countP fun x => decide (x ≠ 0))
      (rehash hash slots table) ∧ (rehash hash slots table).length = table.length := by
  intro slots
  induction slots with
  | nil =>
    intro P n table ht _
    exact ⟨ht.congr fun v => by simp, rfl⟩
  | cons slot slots ih =>
    intro P n table ht hroom
    rw [rehash]
    by_cases hz : slot = 0
    · subst hz
      rw [if_pos rfl]
      rw [List.countP_cons_of_neg (by simp)] at hroom ⊢
      obtain ⟨h1, h2⟩ := ih ht hroom
      exact ⟨h1.congr fun v => by simp, h2⟩
    · rw [if_neg hz]
      rw [List.countP_cons_of_pos (by simpa using hz)] at hroom ⊢
      obtain ⟨k, hk, hvac, h0, hpath⟩ := vacant_spec ht (hash (slot - 1))
      rw [hvac]
      have hset := ht.set (v := slot - 1) hk h0 hpath (by omega)
      rw [show slot - 1 + 1 = slot by omega] at hset
      obtain ⟨h1, h2⟩ := ih hset (by rw [List.length_set]; omega)
      refine ⟨?_, by rw [h2, List.length_set]⟩
      rw [show n + (slots.countP (fun x => decide (x ≠ 0)) + 1) =
        n + 1 + slots.countP (fun x => decide (x ≠ 0)) by omega]
      refine h1.congr fun v => ?_
      rw [List.mem_cons, or_assoc]
      refine or_congr Iff.rfl (or_congr ?_ Iff.rfl)
      omega

end Filling

end OpenTable
