import LibHSC.Xpl.Eval
import LibHSC.Library.OpenTable
import LibHSC.Library.Images

/-!
The state store: rows in the order they were found, deduplicated by an
open-addressed table of ids. Ids and slots are 32-bit, so a slot holds its id
plus one modulo 2^32.
-/

namespace LibHSC.Xpl

open OpenTable

/-! ## The hash -/

/-- Fold a value into a seed, in 64 bits. -/
def combine (seed value : UInt64) : UInt64 :=
  let z := (seed ^^^ value) * 0x9E3779B97F4A7C15
  z ^^^ (z >>> 32)

/-- Signed values convert modularly. -/
def hashValue (v : Int) : UInt64 := UInt64.ofNat (v % 2 ^ 64).toNat

def hashWord (s : Word) : Nat := (s.foldl (fun seed v => combine seed (hashValue v)) 0).toNat

/-! ## The store -/

structure Store where
  rows : List Word
  table : List Nat

def idBound : Nat := 2 ^ 32

def initialBuckets : Nat := 1024

def Store.empty : Store := ⟨[], List.replicate initialBuckets 0⟩

def Store.size (st : Store) : Nat := st.rows.length

/-- The hash of the row of an id. -/
def Store.hashRow (st : Store) (id : Nat) : Nat := hashWord (st.rows.getD id [])

/-- Twice the slots, every id put in again. -/
def Store.grow (st : Store) : Store :=
  { st with table := rehash st.hashRow st.table (List.replicate (st.table.length * 2) 0) }

/-- The id of a state and whether it is fresh. A table without an empty slot would
be probed forever: `none`. The size is a power of two, so masking is `%`. -/
def Store.intern (st : Store) (s : Word) : Option ((Nat × Bool) × Store) :=
  match probe st.rows st.table s st.table.length (hashWord s % st.table.length) with
  | .found id => some ((id, false), st)
  | .free slot =>
    let id := st.size % idBound
    let st' : Store := ⟨st.rows ++ [s], st.table.set slot ((id + 1) % idBound)⟩
    some ((id, true), if st'.size * 4 ≥ st'.table.length * 3 then st'.grow else st')
  | .full => none

/-- A run of insertions, with the ids handed out. -/
def Store.internAll (st : Store) : List Word → Option (List Nat × Store)
  | [] => some ([], st)
  | s :: ss => do
      let ((id, _), st) ← st.intern s
      let (ids, st) ← st.internAll ss
      return (id :: ids, st)

/-! ## The invariant -/

/-- The table holds the first `n` ids, with room to spare. -/
structure Store.Held (st : Store) (n : Nat) : Prop where
  filled : Filled st.hashRow (· < n) n st.table
  le : n ≤ st.size
  load : st.size * 4 < st.table.length * 3
  big : 4 ≤ st.table.length

/-- Every row is held, once, under an id that fits. -/
structure Store.Ok (st : Store) : Prop where
  held : st.Held st.size
  nodup : st.rows.Nodup
  fits : st.size < idBound

theorem empty_table_length : Store.empty.table.length = initialBuckets :=
  List.length_replicate ..

theorem empty_ok : Store.empty.Ok := by
  refine ⟨⟨?_, Nat.le_refl _, ?_, ?_⟩, List.nodup_nil, by decide⟩
  · exact (filled_empty _ (by decide)).congr fun v => ⟨False.elim, Nat.not_lt_zero v⟩
  · rw [empty_table_length, show Store.empty.size = 0 from rfl]
    decide
  · rw [empty_table_length]
    decide

theorem Store.grow_held {st : Store} {n : Nat} (hf : Filled st.hashRow (· < n) n st.table)
    (hle : n ≤ st.size) (hload : st.size < st.table.length) (hbig : 4 ≤ st.table.length) :
    st.grow.Held n := by
  have hpos := hf.pos
  have hcount := hf.count
  obtain ⟨h1, h2⟩ := rehash_filled st.table
    (filled_empty st.hashRow (show 0 < st.table.length * 2 by omega))
    (by rw [hcount, List.length_replicate]; omega)
  rw [List.length_replicate] at h2
  refine ⟨?_, hle, ?_, ?_⟩
  · rw [Nat.zero_add, hcount] at h1
    refine h1.congr fun v => ?_
    rw [false_or, hf.has v, List.mem_iff_getElem?]
  · show st.size * 4 < (rehash st.hashRow st.table _).length * 3
    rw [h2]
    omega
  · show 4 ≤ (rehash st.hashRow st.table _).length
    rw [h2]
    omega

/-- A state that is stored is found. -/
theorem Store.intern_old {st : Store} (ht : st.Ok) {s : Word} {id : Nat}
    (hid : st.rows[id]? = some s) : st.intern s = some ((id, false), st) := by
  have hlt : id < st.size := (List.getElem?_eq_some_iff.mp hid).1
  have hhash : st.hashRow id = hashWord s := by
    rw [Store.hashRow, List.getD_eq_getElem?_getD, hid]
    rfl
  have hprobe := probe_held ht.held.filled hlt hid (by
    intro w hw hrow
    exact (List.getElem?_inj hw ht.nodup).mp (hrow.trans hid.symm))
  rw [hhash] at hprobe
  rw [Store.intern, hprobe]

/-- What an insertion of a state leaves when no held row is the state: the row is
appended, and held if its slot value is not 0. -/
theorem Store.intern_new {st : Store} {n : Nat} (ht : st.Held n) {s : Word}
    (hs : ∀ v < n, st.rows[v]? ≠ some s) :
    ∃ st', st.intern s = some ((st.size % idBound, true), st') ∧ st'.rows = st.rows ++ [s] ∧
      (n = st.size → st.size + 1 < idBound → st'.Held (n + 1)) ∧
      ((st.size % idBound + 1) % idBound = 0 → st'.Held n) := by
  obtain ⟨k, hk, hprobe, h0, hpath⟩ := probe_fresh ht.filled hs (hashWord s)
  have hload := ht.load
  have hle := ht.le
  have hbig := ht.big
  -- the hashes of the held rows are the same with one row more
  have hhash : ∀ (t : List Nat) (v : Nat), v < n →
      st.hashRow v = Store.hashRow ⟨st.rows ++ [s], t⟩ v := by
    intro t v hv
    simp only [Store.hashRow, List.getD_eq_getElem?_getD]
    rw [List.getElem?_append_left (show v < st.rows.length by
      have : st.size = st.rows.length := rfl
      omega)]
  have hfinish : ∀ (t : List Nat) (m : Nat), t.length = st.table.length → m ≤ st.size + 1 →
      Filled (Store.hashRow ⟨st.rows ++ [s], t⟩) (· < m) m t →
      Store.Held (if (st.size + 1) * 4 ≥ t.length * 3 then Store.grow ⟨st.rows ++ [s], t⟩
        else ⟨st.rows ++ [s], t⟩) m := by
    intro t m htlen hm hf
    have hsize : Store.size ⟨st.rows ++ [s], t⟩ = st.size + 1 := by
      simp [Store.size]
    split
    · refine Store.grow_held hf (by omega) ?_ (htlen ▸ hbig)
      rw [hsize]
      show st.size + 1 < t.length
      omega
    · exact ⟨hf, by omega, by rw [hsize]; show _ < t.length * 3; omega, htlen ▸ hbig⟩
  refine ⟨_, by rw [Store.intern, hprobe], ?_, ?_, ?_⟩
  · split <;> rfl
  · rintro rfl hfit
    have hid : st.size % idBound = st.size := Nat.mod_eq_of_lt (by omega)
    have hslot : (st.size % idBound + 1) % idBound = st.size + 1 := by
      rw [hid, Nat.mod_eq_of_lt hfit]
    simp only [hslot]
    have hrow : Store.hashRow ⟨st.rows ++ [s], st.table.set (slotAt st.table (hashWord s) k)
        (st.size + 1)⟩ st.size = hashWord s := by
      simp [Store.hashRow, Store.size]
    have hf := ht.filled.hash_congr (hhash (st.table.set (slotAt st.table (hashWord s) k)
      (st.size + 1)))
    have hset := hf.set (v := st.size) (k := k) hk (by rw [hrow]; exact h0)
      (by rw [hrow]; exact hpath) (by omega)
    rw [hrow] at hset
    have hset' := hset.congr (Q := (· < st.size + 1)) fun v => by omega
    have := hfinish _ _ (List.length_set ..) le_rfl hset'
    simpa [Store.size] using this
  · intro hzero
    simp only [hzero]
    have hsame : st.table.set (slotAt st.table (hashWord s) k) 0 = st.table := by
      apply List.ext_getElem?
      intro i
      rw [List.getElem?_set]
      split
      · next h =>
        subst h
        have hlt := slotAt_lt ht.filled.pos (hashWord s) k
        rw [if_pos hlt]
        rw [List.getD_eq_getElem?_getD, List.getElem?_eq_getElem hlt] at h0
        rw [List.getElem?_eq_getElem hlt]
        exact congrArg some h0.symm
      · rfl
    rw [hsame]
    have hf := ht.filled.hash_congr (hhash st.table)
    have := hfinish st.table n rfl (by omega) hf
    simpa [Store.size] using this

/-- A new state gets the next id. -/
theorem Store.intern_fresh {st : Store} (ht : st.Ok) {s : Word} (hs : s ∉ st.rows)
    (hfit : st.size + 1 < idBound) :
    ∃ st', st.intern s = some ((st.size, true), st') ∧ st'.rows = st.rows ++ [s] ∧ st'.Ok := by
  obtain ⟨st', h1, h2, h3, -⟩ := Store.intern_new ht.held fun v _ hv => hs (List.mem_of_getElem? hv)
  rw [Nat.mod_eq_of_lt ht.fits] at h1
  have hsize : st'.size = st.size + 1 := by
    rw [Store.size, h2]
    exact List.length_append
  refine ⟨st', h1, h2, ?_, ?_, by omega⟩
  · rw [hsize]
    exact h3 rfl hfit
  · rw [h2, List.nodup_append]
    refine ⟨ht.nodup, List.nodup_singleton s, fun a ha b hb => ?_⟩
    rw [List.mem_singleton.mp hb]
    rintro rfl
    exact hs ha

/-- An insertion, whichever it is: the id is that of the state from now on. -/
theorem Store.intern_spec {st : Store} (ht : st.Ok) {s : Word}
    (hfit : s ∉ st.rows → st.size + 1 < idBound) :
    ∃ id fresh st', st.intern s = some ((id, fresh), st') ∧ st'.Ok ∧ st'.rows[id]? = some s ∧
      ((fresh = false ∧ st' = st) ∨
        (fresh = true ∧ s ∉ st.rows ∧ id = st.size ∧ st'.rows = st.rows ++ [s])) := by
  by_cases hs : s ∈ st.rows
  · obtain ⟨id, hid⟩ := List.mem_iff_getElem?.mp hs
    exact ⟨id, false, st, Store.intern_old ht hid, ht, hid, .inl ⟨rfl, rfl⟩⟩
  · obtain ⟨st', h1, h2, h3⟩ := Store.intern_fresh ht hs (hfit hs)
    refine ⟨st.size, true, st', h1, h3, ?_, .inr ⟨rfl, hs, rfl, h2⟩⟩
    rw [h2, Store.size, List.getElem?_concat_length]

/-- Ids over a run of insertions: dense, and each the place of its state in the
final store, so stable and equal for equal states only. -/
theorem Store.internAll_spec : ∀ (words : List Word) {st : Store}, st.Ok →
    (∀ l : List Word, l.Nodup → (∀ w ∈ l, w ∈ st.rows ∨ w ∈ words) → l.length < idBound) →
    ∃ ids st', st.internAll words = some (ids, st') ∧ st'.Ok ∧ st.rows <+: st'.rows ∧
      List.Forall₂ (fun id w => st'.rows[id]? = some w) ids words ∧
      ∀ id < st'.size, id < st.size ∨ id ∈ ids := by
  intro words
  induction words with
  | nil =>
    intro st ht _
    exact ⟨[], st, rfl, ht, List.prefix_refl _, .nil, fun id hid => .inl hid⟩
  | cons s words ih =>
    intro st ht hsmall
    have hfit : s ∉ st.rows → st.size + 1 < idBound := by
      intro hs
      have := hsmall (st.rows ++ [s]) (by
        rw [List.nodup_append]
        refine ⟨ht.nodup, List.nodup_singleton s, fun a ha b hb => ?_⟩
        rw [List.mem_singleton.mp hb]
        rintro rfl
        exact hs ha) (by
        intro w hw
        rcases List.mem_append.mp hw with hw | hw
        · exact .inl hw
        · exact .inr (by rw [List.mem_singleton.mp hw]; exact List.mem_cons_self ..))
      rwa [List.length_append] at this
    obtain ⟨id, fresh, st1, h1, hok, hrow, hcase⟩ := Store.intern_spec ht hfit
    have hrows : ∀ w ∈ st1.rows, w ∈ st.rows ∨ w = s := by
      rcases hcase with ⟨-, rfl⟩ | ⟨-, -, -, hr⟩
      · exact fun w hw => .inl hw
      · rw [hr]
        intro w hw
        rcases List.mem_append.mp hw with hw | hw
        · exact .inl hw
        · exact .inr (List.mem_singleton.mp hw)
    obtain ⟨ids, st2, h2, hok2, hpre, hfor, hdense⟩ := ih hok (by
      intro l hl hmem
      refine hsmall l hl fun w hw => ?_
      rcases hmem w hw with hw | hw
      · rcases hrows w hw with hw | rfl
        · exact .inl hw
        · exact .inr List.mem_cons_self
      · exact .inr (List.mem_cons_of_mem _ hw))
    refine ⟨id :: ids, st2, ?_, hok2, ?_, .cons ?_ hfor, fun v hv => ?_⟩
    · rw [Store.internAll, h1]
      simp only [Option.bind_eq_bind, Option.bind_some, h2]
      rfl
    · refine List.IsPrefix.trans ?_ hpre
      rcases hcase with ⟨-, rfl⟩ | ⟨-, -, -, hr⟩
      · exact List.prefix_refl _
      · rw [hr]
        exact List.prefix_append _ _
    · obtain ⟨more, hmore⟩ := hpre
      rw [← hmore, List.getElem?_append_left (List.getElem?_eq_some_iff.mp hrow).1]
      exact hrow
    · rcases hdense v hv with hv | hv
      · rcases hcase with ⟨-, rfl⟩ | ⟨-, -, rfl, hr⟩
        · exact .inl hv
        · rw [Store.size, hr, List.length_append] at hv
          simp only [List.length_singleton] at hv
          by_cases hlt : v < st.size
          · exact .inl hlt
          · right
            rw [show v = st.size by
              have : st.size = st.rows.length := rfl
              omega]
            exact List.mem_cons_self ..
      · exact .inr (List.mem_cons_of_mem _ hv)

theorem Store.internAll_append {words more : List Word} {st st1 st2 : Store} {ids ids' : List Nat}
    (h1 : st.internAll words = some (ids, st1)) (h2 : st1.internAll more = some (ids', st2)) :
    st.internAll (words ++ more) = some (ids ++ ids', st2) := by
  induction words generalizing st ids with
  | nil =>
    cases h1
    exact h2
  | cons s words ih =>
    rw [Store.internAll] at h1
    obtain ⟨⟨⟨id, fresh⟩, st'⟩, h3, h4⟩ := Option.bind_eq_some_iff.mp h1
    obtain ⟨⟨ids1, st3⟩, h5, h6⟩ := Option.bind_eq_some_iff.mp h4
    cases h6
    rw [List.cons_append, Store.internAll, h3]
    simp only [Option.bind_eq_bind, Option.bind_some, ih h5]
    rfl

/-- At 2^32 - 1 states a new state takes the last id, and the slot it leaves is
empty: it is not found again, and gets another id. -/
theorem Store.internAll_limit {words : List Word} (hnd : words.Nodup)
    (hlen : words.length + 1 = idBound) {s : Word} (hs : s ∉ words) :
    ∃ ids st, Store.empty.internAll (words ++ [s, s]) = some (ids ++ [words.length, 0], st) ∧
      ids.length = words.length := by
  obtain ⟨ids, st, h1, hok, -, hfor, hdense⟩ := Store.internAll_spec words empty_ok (by
    intro l hl hmem
    have := hl.length_le_of_subset fun w hw => (hmem w hw).resolve_left List.not_mem_nil
    omega)
  have hsize : st.size = words.length := by
    refine Nat.le_antisymm ?_ ?_
    · refine hok.nodup.length_le_of_subset fun w hw => ?_
      obtain ⟨id, hid⟩ := List.mem_iff_getElem?.mp hw
      have hlt := (List.getElem?_eq_some_iff.mp hid).1
      obtain ⟨w', hw', hrow⟩ := forall₂_mem_left hfor
        ((hdense id hlt).resolve_left (Nat.not_lt_zero id))
      rw [hid] at hrow
      cases hrow
      exact hw'
    · refine hnd.length_le_of_subset fun w hw => ?_
      obtain ⟨id, -, hrow⟩ := forall₂_mem_right hfor hw
      exact List.mem_of_getElem? hrow
  have hnew : ∀ v < st.size, st.rows[v]? ≠ some s := by
    intro v hv hrow
    obtain ⟨w', hw', hrow'⟩ := forall₂_mem_left hfor
      ((hdense v hv).resolve_left (Nat.not_lt_zero v))
    rw [hrow] at hrow'
    cases hrow'
    exact hs hw'
  obtain ⟨st1, h2, hrows1, -, hheld⟩ := Store.intern_new hok.held hnew
  have hid : st.size % idBound = words.length := by
    rw [hsize, Nat.mod_eq_of_lt (by omega)]
  have hheld1 := hheld (by rw [hid, hlen, Nat.mod_self])
  have hsize1 : st1.size = idBound := by
    rw [Store.size, hrows1, List.length_append, List.length_singleton]
    exact (congrArg (· + 1) hsize).trans hlen
  obtain ⟨st2, h3, -, -, -⟩ := Store.intern_new hheld1 (s := s) (by
    intro v hv
    rw [hrows1, List.getElem?_append_left hv]
    exact hnew v hv)
  refine ⟨ids, st2, ?_, hfor.length_eq⟩
  refine Store.internAll_append h1 ?_
  rw [hsize1, Nat.mod_self] at h3
  rw [hid] at h2
  simp only [Store.internAll, h2, h3, Option.bind_eq_bind, Option.bind_some]
  rfl

end LibHSC.Xpl
