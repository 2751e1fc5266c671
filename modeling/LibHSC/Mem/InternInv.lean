import LibHSC.Mem.Intern

/-!
The invariant of the unique table and what each operation does to the values, the
free list, the references and the generations.
-/

namespace LibHSC.Mem

open OpenTable

/-! ## Sizes -/

theorem le_doubleUpTo (n : Nat) : ∀ (fuel : Nat) {p : Nat}, n ≤ p * 2 ^ fuel →
    n ≤ doubleUpTo n fuel p := by
  intro fuel
  induction fuel with
  | zero =>
    intro p h
    rwa [Nat.pow_zero, Nat.mul_one] at h
  | succ fuel ih =>
    intro p h
    rw [doubleUpTo]
    split
    · refine ih ?_
      rwa [Nat.pow_succ', ← Nat.mul_assoc] at h
    · omega

theorem le_roundUp (n : Nat) : n ≤ roundUp n := by
  refine le_doubleUpTo n n ?_
  have := Nat.lt_two_pow_self (n := n)
  omega

theorem self_le_doubleUpTo (n : Nat) : ∀ (fuel : Nat) {p : Nat}, p ≤ doubleUpTo n fuel p := by
  intro fuel
  induction fuel with
  | zero => exact Nat.le_refl _
  | succ fuel ih =>
    intro p
    rw [doubleUpTo]
    split
    · have := ih (p := p * 2)
      omega
    · exact Nat.le_refl _

theorem eight_le_roundUp (n : Nat) : 8 ≤ roundUp n := self_le_doubleUpTo n n

/-! ## The table of ids -/

/-- The table holds the ids of the values, `v + 1` for each `v` of `P`, with room. -/
structure IdTable.Holds (t : IdTable) (hashOf : Nat → Nat) (P : Nat → Prop) : Prop where
  filled : Filled hashOf P t.size t.slots
  load : t.size * 10 < t.slots.length * 7 + 10
  big : 8 ≤ t.slots.length

theorem IdTable.new_holds (buckets : Nat) (hashOf : Nat → Nat) :
    (IdTable.new buckets).Holds hashOf fun _ => False := by
  have h := eight_le_roundUp buckets
  refine ⟨filled_empty hashOf (by omega), ?_, ?_⟩
  · show 0 * 10 < _
    omega
  · rwa [IdTable.new, List.length_replicate]

/-- A table filled anew holds the ids it is filled with. -/
theorem IdTable.fill_holds (hashOf : Nat → Nat) {buckets : Nat} {ids : List Nat}
    (h : ids.countP (fun id => decide (id ≠ 0)) * 10 < roundUp buckets * 7) :
    (IdTable.fill buckets ids hashOf).Holds hashOf (fun v => v + 1 ∈ ids) ∧
      (IdTable.fill buckets ids hashOf).slots.length = roundUp buckets := by
  have hbig := eight_le_roundUp buckets
  have hempty : Filled hashOf (fun _ => False) 0 (List.replicate (roundUp buckets) 0) :=
    filled_empty hashOf (by omega)
  have hroom : 0 + ids.countP (fun id => decide (id ≠ 0)) <
      (List.replicate (roundUp buckets) 0).length := by
    rw [List.length_replicate]
    omega
  obtain ⟨hfilled, hlen⟩ := rehash_filled ids hempty hroom
  rw [List.length_replicate] at hlen
  rw [Nat.zero_add] at hfilled
  refine ⟨⟨hfilled.congr fun v => ?_, ?_, ?_⟩, hlen⟩
  · rw [false_or]
  · show _ < (OpenTable.rehash hashOf ids _).length * 7 + 10
    rw [hlen]
    exact Nat.lt_of_lt_of_le h (Nat.le_add_right ..)
  · show 8 ≤ (OpenTable.rehash hashOf ids _).length
    rwa [hlen]

/-- A grown table holds what it held, and is not overloaded. -/
theorem IdTable.rehash_holds {t : IdTable} {hashOf : Nat → Nat} {P : Nat → Prop}
    (h : t.Holds hashOf P) : (t.rehash (t.slots.length * 2) hashOf).Holds hashOf P ∧
      ¬ (t.rehash (t.slots.length * 2) hashOf).overloaded := by
  have hroom := h.filled.room
  have hcount := h.filled.count
  have hbuckets : (if t.slots.length * 2 < t.size * 2 then t.size * 2
      else t.slots.length * 2) = t.slots.length * 2 := if_neg (by omega)
  have hle := le_roundUp (t.slots.length * 2)
  have hbig := h.big
  unfold IdTable.rehash
  rw [hbuckets]
  have hfit : t.slots.countP (fun id => decide (id ≠ 0)) * 10 <
      roundUp (t.slots.length * 2) * 7 := by
    rw [hcount]
    omega
  obtain ⟨⟨hfilled, hload, hbig'⟩, hlen⟩ := IdTable.fill_holds hashOf hfit
  refine ⟨⟨hfilled.congr fun v => ?_, hload, hbig'⟩, ?_⟩
  · rw [h.filled.has v, List.mem_iff_getElem?]
  · intro hover
    have hsize : (IdTable.fill (t.slots.length * 2) t.slots hashOf).size = t.size := hcount
    unfold IdTable.overloaded at hover
    rw [hsize, hlen] at hover
    omega

/-! ## The invariant -/

namespace Intern

variable {T : Type}

/-- The id stands for a value. -/
def Live (st : Intern T) (id : Nat) : Prop := (st.resolve id).isSome

instance (st : Intern T) (id : Nat) : Decidable (st.Live id) :=
  inferInstanceAs (Decidable ((st.resolve id).isSome = true))

structure Ok (idBound : Nat) (hash : T → Nat) (children : T → List Nat) (st : Intern T) : Prop where
  absent : st.index.head? = some none
  bound : st.index.length ≤ idBound
  generations : st.generations.length = st.index.length
  marks : st.marks.length = st.index.length
  unmarked : ∀ id, st.marks.getD id false = false
  freeNodup : st.free.Nodup
  freeIff : ∀ id, id ∈ st.free ↔ 0 < id ∧ id < st.index.length ∧ st.resolve id = none
  distinct : ∀ i j x, st.resolve i = some x → st.resolve j = some x → i = j
  table : st.table.Holds (st.hashOf hash) fun v => st.Live (v + 1)
  refs : ∀ id count, st.refs.getD id none = some count →
    st.Live id ∧ 0 < count ∧ count < counterBound
  cites : ∀ id x, st.resolve id = some x → ∀ c ∈ children x, c ≠ 0 → st.Live c

section Basic

variable {idBound : Nat} {hash : T → Nat} {children : T → List Nat} {st : Intern T}

theorem Ok.length_pos (h : Ok idBound hash children st) : 0 < st.index.length := by
  have := h.absent
  cases hi : st.index with
  | nil =>
    rw [hi] at this
    cases this
  | cons x xs => exact Nat.succ_pos _

theorem Ok.resolve_zero (h : Ok idBound hash children st) : st.resolve 0 = none := by
  have := h.absent
  unfold resolve
  cases hi : st.index with
  | nil => rfl
  | cons x xs =>
    rw [hi] at this
    exact Option.some.inj this

theorem Live.lt {id : Nat} (h : st.Live id) : id < st.index.length := by
  by_contra hlt
  unfold Live resolve at h
  rw [List.getD_eq_getElem?_getD, List.getElem?_eq_none (by omega)] at h
  cases h

theorem Live.exists {id : Nat} (h : st.Live id) : ∃ x, st.resolve id = some x :=
  Option.isSome_iff_exists.mp h

theorem live_of_resolve {id : Nat} {x : T} (h : st.resolve id = some x) : st.Live id := by
  unfold Live
  rw [h]
  rfl

theorem Ok.live_ne_zero (h : Ok idBound hash children st) {id : Nat} (hl : st.Live id) :
    id ≠ 0 := by
  rintro rfl
  unfold Live at hl
  rw [h.resolve_zero] at hl
  cases hl

theorem new_ok (capacity : Nat) (hb : 1 ≤ idBound) :
    Ok idBound hash children (new capacity : Intern T) := by
  have hresolve : ∀ id, (new capacity : Intern T).resolve id = none := by
    intro id
    cases id <;> rfl
  refine ⟨rfl, hb, rfl, rfl, fun id => ?_, List.nodup_nil, fun id => ?_, fun i j x hi => ?_, ?_,
    fun id count hc => ?_, fun id x hx => ?_⟩
  · cases id <;> rfl
  · refine iff_of_false List.not_mem_nil fun hm => ?_
    have : id < 1 := hm.2.1
    omega
  · rw [hresolve i] at hi
    cases hi
  · obtain ⟨hf, hl, hb⟩ := IdTable.new_holds capacity ((new capacity : Intern T).hashOf hash)
    refine ⟨hf.congr fun v => iff_of_false id ?_, hl, hb⟩
    unfold Live
    rw [hresolve]
    exact Bool.false_ne_true
  · cases hc
  · rw [hresolve id] at hx
    cases hx

/-- The values in the rows of the table. -/
theorem rows_getElem? (st : Intern T) (v : Nat) (x : T) :
    st.index.tail[v]? = some (some x) ↔ st.resolve (v + 1) = some x := by
  unfold resolve
  rw [List.getElem?_tail, List.getD_eq_getElem?_getD]
  cases st.index[v + 1]? with
  | none => simp
  | some y => simp

end Basic

/-! ## Interning -/

section Interning

variable {idBound : Nat} {hash : T → Nat} {children : T → List Nat} {st : Intern T}

/-- Nothing but the table has changed. -/
structure SameValues (st st' : Intern T) : Prop where
  index : st'.index = st.index
  generations : st'.generations = st.generations
  marks : st'.marks = st.marks
  free : st'.free = st.free
  refs : st'.refs = st.refs

theorem SameValues.resolve {st' : Intern T} (h : SameValues st st') (id : Nat) :
    st'.resolve id = st.resolve id := by
  unfold Intern.resolve
  rw [h.index]

theorem SameValues.live {st' : Intern T} (h : SameValues st st') (id : Nat) :
    st'.Live id ↔ st.Live id := by
  unfold Live
  rw [h.resolve]

/-- The growth before a lookup. -/
theorem grown_spec (h : Ok idBound hash children st) : ∃ st',
    (if st.table.overloaded then st.growTable hash else st) = st' ∧ SameValues st st' ∧
      Ok idBound hash children st' ∧ ¬ st'.table.overloaded := by
  by_cases hover : st.table.overloaded
  · rw [if_pos hover]
    obtain ⟨htable, hnot⟩ := IdTable.rehash_holds h.table
    exact ⟨_, rfl, ⟨rfl, rfl, rfl, rfl, rfl⟩, { h with table := htable }, hnot⟩
  · rw [if_neg hover]
    exact ⟨st, rfl, ⟨rfl, rfl, rfl, rfl, rfl⟩, h, hover⟩

/-- An id is set aside for a value. -/
structure Allocated (idBound : Nat) (st : Intern T) (id : Nat) (st' : Intern T) : Prop where
  pos : 0 < id
  lt : id < idBound
  vacant : st.resolve id = none
  resolve : ∀ j, st'.resolve j = st.resolve j
  absent : st'.index.head? = some none
  bound : st'.index.length ≤ idBound
  inside : id < st'.index.length
  grows : st.index.length ≤ st'.index.length
  generationsLength : st'.generations.length = st'.index.length
  generations : ∀ j, st'.generations.getD j 0 = st.generations.getD j 0
  marks : st'.marks.length = st'.index.length
  unmarked : ∀ j, st'.marks.getD j false = false
  freeNodup : st'.free.Nodup
  freeIff : ∀ j, j ∈ st'.free ↔ j ≠ id ∧ 0 < j ∧ j < st'.index.length ∧ st.resolve j = none
  table : st'.table = st.table
  refs : st'.refs = st.refs
  fresh : st.free = [] → st'.free = [] ∧ st'.index.length = st.index.length + 1

theorem getD_set_false {marks : List Bool} (h : ∀ j, marks.getD j false = false) (id j : Nat) :
    (marks.set id false).getD j false = false := by
  rw [List.getD_eq_getElem?_getD, List.getElem?_set]
  split
  · split <;> rfl
  · rw [← List.getD_eq_getElem?_getD]
    exact h j

theorem getD_append_default {α : Type} (l : List α) (d : α) (j : Nat) :
    (l ++ [d]).getD j d = l.getD j d := by
  rw [List.getD_eq_getElem?_getD, List.getD_eq_getElem?_getD, List.getElem?_append]
  split
  · rfl
  · next h =>
    rw [List.getElem?_eq_none (l := l) (by omega)]
    cases hj : j - l.length <;> rfl

theorem allocateId_spec (h : Ok idBound hash children st) :
    (st.allocateId idBound = none ∧ st.free = [] ∧ st.index.length = idBound) ∨
      ∃ id st', st.allocateId idBound = some (id, st') ∧ Allocated idBound st id st' := by
  have hpos := h.length_pos
  have hbound := h.bound
  unfold allocateId
  cases hfree : st.free with
  | cons id free =>
    right
    have hmem := (h.freeIff id).mp (hfree ▸ List.mem_cons_self ..)
    have hnd := h.freeNodup
    rw [hfree] at hnd
    refine ⟨id, _, rfl, hmem.1, by omega, hmem.2.2, fun _ => rfl, h.absent, hbound, hmem.2.1,
      Nat.le_refl _, h.generations, fun _ => rfl, ?_, ?_, (List.nodup_cons.mp hnd).2, fun j => ?_,
      rfl, rfl, fun hn => ?_⟩
    · dsimp only
      rw [List.length_set, h.marks]
    · exact getD_set_false h.unmarked id
    · dsimp only
      rw [← h.freeIff j, hfree, List.mem_cons]
      constructor
      · intro hj
        exact ⟨fun hji => (List.nodup_cons.mp hnd).1 (hji ▸ hj), .inr hj⟩
      · rintro ⟨hji, hj | hj⟩
        · exact absurd hj hji
        · exact hj
    · rw [hfree] at hn
      cases hn
  | nil =>
    dsimp only
    by_cases hfull : st.index.length > idBound - 1
    · rw [if_pos hfull]
      exact .inl ⟨rfl, rfl, by omega⟩
    · rw [if_neg hfull]
      right
      have hmod : st.index.length % idBound = st.index.length := Nat.mod_eq_of_lt (by omega)
      have hvacant : st.resolve st.index.length = none := by
        unfold resolve
        rw [List.getD_eq_getElem?_getD, List.getElem?_eq_none le_rfl]
        rfl
      refine ⟨_, _, rfl, ?_, ?_, ?_, fun j => getD_append_default st.index none j, ?_, ?_, ?_, ?_,
        ?_, fun j => getD_append_default st.generations 0 j, ?_, fun j => ?_, ?_, fun j => ?_, rfl,
        rfl, fun _ => ⟨rfl, ?_⟩⟩
      · omega
      · omega
      · rwa [hmod]
      · dsimp only
        rw [List.head?_append, h.absent]
        rfl
      · dsimp only
        rw [List.length_append, List.length_singleton]
        omega
      · dsimp only
        rw [List.length_append, List.length_singleton]
        omega
      · dsimp only
        rw [List.length_append]
        omega
      · dsimp only
        rw [List.length_append, List.length_append, h.generations]
        rfl
      · dsimp only
        rw [List.length_append, List.length_append, h.marks]
        rfl
      · dsimp only
        rw [getD_append_default]
        exact h.unmarked j
      · exact List.nodup_nil
      · dsimp only
        rw [← hfree, h.freeIff j, List.length_append, List.length_singleton, hmod]
        constructor
        · rintro ⟨h1, h2, h3⟩
          exact ⟨by omega, h1, by omega, h3⟩
        · rintro ⟨h1, h2, h3, h4⟩
          exact ⟨h2, by omega, h4⟩
      · dsimp only
        rw [List.length_append]
        rfl

/-- What a lookup does: the value is found, or takes an id that was free, or there
is none left. -/
inductive GetSpec (idBound : Nat) (st : Intern T) (x : T) : Got → Intern T → Prop
  | hit {id : Nat} {st' : Intern T} : st.resolve id = some x → SameValues st st' →
      GetSpec idBound st x (.id id) st'
  | miss {id : Nat} {st' : Intern T} : (∀ i, st.resolve i ≠ some x) → 0 < id → id < idBound →
      st.resolve id = none → (∀ j, st'.resolve j = if j = id then some x else st.resolve j) →
      (∀ j, st'.generations.getD j 0 = st.generations.getD j 0) → st'.refs = st.refs →
      st.index.length ≤ st'.index.length →
      (st.free = [] → st'.free = [] ∧ st'.index.length = st.index.length + 1) →
      GetSpec idBound st x (.id id) st'
  | exhausted {st' : Intern T} : (∀ i, st.resolve i ≠ some x) → st.free = [] →
      st.index.length = idBound → SameValues st st' → GetSpec idBound st x .exhausted st'

theorem SameValues.getSpec {st' st'' : Intern T} {x : T} {got : Got} (h : SameValues st st')
    (hs : GetSpec idBound st' x got st'') : GetSpec idBound st x got st'' := by
  cases hs with
  | hit hr hsame =>
    refine .hit (h.resolve _ ▸ hr) ⟨?_, ?_, ?_, ?_, ?_⟩
    · exact hsame.index.trans h.index
    · exact hsame.generations.trans h.generations
    · exact hsame.marks.trans h.marks
    · exact hsame.free.trans h.free
    · exact hsame.refs.trans h.refs
  | miss hx hpos hlt hv hr hg hrefs hlen hfresh =>
    refine .miss (fun i => h.resolve i ▸ hx i) hpos hlt (h.resolve _ ▸ hv) (fun j => ?_)
      (fun j => ?_) (hrefs.trans h.refs) (h.index ▸ hlen)
      (by rw [← h.free, ← h.index]; exact hfresh)
    · rw [hr j, h.resolve j]
    · rw [hg j, h.generations]
  | exhausted hx hfree hlen hsame =>
    refine .exhausted (fun i => h.resolve i ▸ hx i) (h.free ▸ hfree) (h.index ▸ hlen)
      ⟨?_, ?_, ?_, ?_, ?_⟩
    · exact hsame.index.trans h.index
    · exact hsame.generations.trans h.generations
    · exact hsame.marks.trans h.marks
    · exact hsame.free.trans h.free
    · exact hsame.refs.trans h.refs

/-- The value goes to the id set aside for it, which goes to the slot. -/
theorem place_ok (h : Ok idBound hash children st) {x : T} (hx : ∀ i, st.resolve i ≠ some x)
    (hc : ∀ c ∈ children x, c ≠ 0 → st.Live c) (hload : ¬ st.table.overloaded) {id k : Nat}
    {st' : Intern T} (ha : Allocated idBound st id st') (hk : k < st.table.slots.length)
    (h0 : st.table.slots.getD (slotAt st.table.slots (hash x) k) 0 = 0)
    (hpath : ∀ j < k, st.table.slots.getD (slotAt st.table.slots (hash x) j) 0 ≠ 0) :
    let st'' : Intern T := { st' with
      index := st'.index.set id (some x)
      table := st'.table.place (slotAt st.table.slots (hash x) k) id }
    Ok idBound hash children st'' ∧
      ∀ j, st''.resolve j = if j = id then some x else st.resolve j := by
  intro st''
  have hresolve : ∀ j, st''.resolve j = if j = id then some x else st.resolve j := by
    intro j
    show (st'.index.set id (some x)).getD j none = _
    rw [List.getD_eq_getElem?_getD, List.getElem?_set]
    by_cases hj : j = id
    · subst hj
      rw [if_pos rfl, if_pos rfl, if_pos ha.inside]
      rfl
    · rw [if_neg hj, if_neg fun h => hj h.symm, ← List.getD_eq_getElem?_getD]
      exact ha.resolve j
  have hlen : st''.index.length = st'.index.length := List.length_set ..
  have hkeep : ∀ j, st.Live j → st''.Live j := by
    intro j hj
    unfold Live at hj ⊢
    rw [hresolve j]
    split
    · rfl
    · exact hj
  refine ⟨⟨?_, ?_, ?_, ?_, ha.unmarked, ha.freeNodup, fun j => ?_, fun i j y hi hj => ?_, ?_,
    fun j count hj => ?_, fun j y hj c hcy hc0 => ?_⟩, hresolve⟩
  · show (st'.index.set id (some x)).head? = some none
    have habsent := ha.absent
    have hpos := ha.pos
    cases hi : st'.index with
    | nil =>
      rw [hi] at habsent
      cases habsent
    | cons y ys =>
      rw [hi] at habsent
      obtain ⟨n, rfl⟩ := Nat.exists_eq_add_of_le' hpos
      exact habsent
  · rw [hlen]
    exact ha.bound
  · rw [hlen]
    exact ha.generationsLength
  · rw [hlen]
    exact ha.marks
  · rw [show st''.free = st'.free from rfl, ha.freeIff j, hlen, hresolve j]
    constructor
    · rintro ⟨hne, h1, h2, h3⟩
      exact ⟨h1, h2, by rwa [if_neg hne]⟩
    · rintro ⟨h1, h2, h3⟩
      split at h3
      · cases h3
      · next hne => exact ⟨hne, h1, h2, h3⟩
  · rw [hresolve] at hi hj
    split at hi
    · next hii =>
      obtain rfl := Option.some.inj hi
      split at hj
      · next hjj => rw [hii, hjj]
      · exact absurd hj (hx j)
    · split at hj
      · obtain rfl := Option.some.inj hj
        exact absurd hi (hx i)
      · exact h.distinct i j y hi hj
  · obtain ⟨v, rfl⟩ := Nat.exists_eq_add_of_le' ha.pos
    have hhash : st''.hashOf hash v = hash x := by
      unfold hashOf
      rw [hresolve, if_pos rfl]
    -- the values the table held are where they were
    have hold : Filled (st''.hashOf hash) (fun w => st.Live (w + 1)) st.table.size
        st.table.slots := by
      refine h.table.filled.hash_congr fun w hw => ?_
      unfold hashOf
      rw [hresolve, if_neg]
      rintro heq
      unfold Live at hw
      rw [heq, ha.vacant] at hw
      cases hw
    have hbig := h.table.big
    have hroom : st.table.size + 1 < st.table.slots.length := by
      unfold IdTable.overloaded at hload
      omega
    have hset := hold.set (v := v) hk (by rwa [hhash]) (by rwa [hhash]) hroom
    rw [hhash] at hset
    show (st'.table.place _ _).Holds _ _
    rw [ha.table]
    refine ⟨hset.congr fun w => ?_, ?_, ?_⟩
    · unfold Live
      rw [hresolve]
      by_cases hw : w + 1 = v + 1
      · rw [if_pos hw]
        exact iff_of_true (.inr (Nat.succ.inj hw)) rfl
      · rw [if_neg hw]
        exact or_iff_left fun heq => hw (congrArg _ heq)
    · show (st.table.size + 1) * 10 < (st.table.slots.set _ _).length * 7 + 10
      unfold IdTable.overloaded at hload
      rw [List.length_set]
      omega
    · show 8 ≤ (st.table.slots.set _ _).length
      rwa [List.length_set]
  · rw [show st''.refs = st'.refs from rfl, ha.refs] at hj
    obtain ⟨hl, hcount⟩ := h.refs j count hj
    exact ⟨hkeep j hl, hcount⟩
  · rw [hresolve] at hj
    split at hj
    · obtain rfl := Option.some.inj hj
      exact hkeep c (hc c hcy hc0)
    · exact hkeep c (h.cites j y hj c hcy hc0)

theorem get_spec [DecidableEq T] (h : Ok idBound hash children st) (x : T)
    (hx : ∀ c ∈ children x, c ≠ 0 → st.Live c) : ∃ got st',
      st.get idBound hash x = some (got, st') ∧ Ok idBound hash children st' ∧
      GetSpec idBound st x got st' := by
  obtain ⟨st₁, heq, hsame, hok, hload⟩ := grown_spec h
  have hx₁ : ∀ c ∈ children x, c ≠ 0 → st₁.Live c := fun c hc h0 => (hsame.live c).mpr (hx c hc h0)
  unfold get
  rw [heq]
  dsimp only
  by_cases hex : ∃ id, st₁.resolve id = some x
  · obtain ⟨id, hid⟩ := hex
    obtain ⟨v, rfl⟩ := Nat.exists_eq_add_of_le'
      (Nat.pos_of_ne_zero (hok.live_ne_zero (live_of_resolve hid)))
    have hhash : st₁.hashOf hash v = hash x := by
      unfold hashOf
      rw [hid]
    have hone : ∀ w, st₁.Live (w + 1) → st₁.index.tail[w]? = some (some x) → w = v :=
      fun w _ hw => Nat.succ.inj (hok.distinct _ _ x ((rows_getElem? st₁ w x).mp hw) hid)
    have hprobe := probe_held hok.table.filled (live_of_resolve hid)
      ((rows_getElem? st₁ v x).mpr hid) hone
    rw [hhash] at hprobe
    rw [hprobe]
    exact ⟨_, _, rfl, hok, hsame.getSpec (.hit hid ⟨rfl, rfl, rfl, rfl, rfl⟩)⟩
  · have hnone : ∀ i, st₁.resolve i ≠ some x := fun i hi => hex ⟨i, hi⟩
    have hrows : ∀ v, st₁.Live (v + 1) → st₁.index.tail[v]? ≠ some (some x) :=
      fun v _ hv => hnone (v + 1) ((rows_getElem? st₁ v x).mp hv)
    obtain ⟨k, hk, hprobe, h0, hpath⟩ := probe_fresh hok.table.filled hrows (hash x)
    rw [hprobe]
    rcases allocateId_spec hok with ⟨hall, hfree, hlen⟩ | ⟨id, st₂, hall, ha⟩
    · rw [hall]
      exact ⟨_, _, rfl, hok, hsame.getSpec (.exhausted hnone hfree hlen ⟨rfl, rfl, rfl, rfl, rfl⟩)⟩
    · rw [hall]
      obtain ⟨hok', hresolve⟩ := place_ok hok hnone hx₁ hload ha hk h0 hpath
      refine ⟨_, _, rfl, hok', hsame.getSpec (.miss hnone ha.pos ha.lt ha.vacant hresolve
        ha.generations ha.refs ?_ ?_)⟩
      · dsimp only
        rw [List.length_set]
        exact ha.grows
      · dsimp only
        rw [List.length_set]
        exact ha.fresh

end Interning

end Intern

end LibHSC.Mem
