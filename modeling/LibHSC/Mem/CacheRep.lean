import LibHSC.Mem.Cache
import Mathlib.Data.List.Perm.Subperm

/-!
What the cache stands for: the list of its operations and results, least
recently used first. The links, the buckets, the free slots and the counter agree
with that list, and each operation of the cache does to it what its name says.
-/

namespace LibHSC.Mem

open Links

/-! ## Fields of the entries -/

namespace Cache

variable {Op R : Type}

/-- A link field, as a function of the slot. -/
def linkOf (g : Entry Op R → Option Nat) (storage : Slots Op R) (s : Nat) : Option Nat :=
  (storage s).bind g

/-- What no link is part of. -/
def dataOf (storage : Slots Op R) (s : Nat) : Option (Nat × Op × R) :=
  (storage s).map fun e => (e.hash, e.operation, e.result)

section Fields

variable {storage : Slots Op R} {s : Nat} {f : Entry Op R → Entry Op R}

theorem linkOf_of_eq_some {g : Entry Op R → Option Nat} {e : Entry Op R}
    (h : storage s = some e) : linkOf g storage s = g e := by
  rw [linkOf, h]
  rfl

theorem linkOf_modify_of_same {g : Entry Op R → Option Nat} (h : ∀ e, g (f e) = g e) :
    linkOf g (modify storage s f) = linkOf g storage := by
  funext t
  unfold linkOf modify
  by_cases ht : t = s
  · subst ht
    rw [Function.update_self]
    cases storage t with
    | none => rfl
    | some e => exact h e
  · rw [Function.update_of_ne ht]

theorem linkOf_modify_of_write {g : Entry Op R → Option Nat} {x : Option Nat}
    (h : ∀ e, g (f e) = x) (hs : (storage s).isSome) :
    linkOf g (modify storage s f) = Function.update (linkOf g storage) s x := by
  obtain ⟨e, he⟩ := Option.isSome_iff_exists.mp hs
  funext t
  unfold linkOf modify
  by_cases ht : t = s
  · subst ht
    rw [Function.update_self, Function.update_self, he]
    exact h e
  · rw [Function.update_of_ne ht, Function.update_of_ne ht]

theorem dataOf_modify (h : ∀ e, (f e).hash = e.hash ∧ (f e).operation = e.operation ∧
    (f e).result = e.result) : dataOf (modify storage s f) = dataOf storage := by
  funext t
  unfold dataOf modify
  by_cases ht : t = s
  · subst ht
    rw [Function.update_self]
    cases storage t with
    | none => rfl
    | some e =>
      obtain ⟨h₁, h₂, h₃⟩ := h e
      simp only [Option.map_some, h₁, h₂, h₃]
  · rw [Function.update_of_ne ht]

theorem isSome_of_dataOf {storage' : Slots Op R} (h : dataOf storage' = dataOf storage) (s : Nat) :
    (storage' s).isSome = (storage s).isSome := by
  have hs := congrArg Option.isSome (congrFun h s)
  simpa only [dataOf, Option.isSome_map] using hs

/-- An entry whose data is known, found after its links were written. -/
theorem exists_of_dataOf {storage' : Slots Op R} (h : dataOf storage' = dataOf storage)
    {e : Entry Op R} (he : storage s = some e) : ∃ e', storage' s = some e' ∧
      e'.hash = e.hash ∧ e'.operation = e.operation ∧ e'.result = e.result := by
  have hs := congrFun h s
  unfold dataOf at hs
  rw [he] at hs
  obtain ⟨e', he', hdata⟩ := Option.map_eq_some_iff.mp hs
  simp only [Prod.mk.injEq] at hdata
  exact ⟨e', he', hdata⟩

end Fields

/-- The operations and results of the slots of a list. -/
def contentOf (storage : Slots Op R) (order : List Nat) : List (Op × R) :=
  order.filterMap fun s => (dataOf storage s).map Prod.snd

theorem contentOf_append (storage : Slots Op R) (l₁ l₂ : List Nat) :
    contentOf storage (l₁ ++ l₂) = contentOf storage l₁ ++ contentOf storage l₂ :=
  List.filterMap_append ..

theorem contentOf_singleton {storage : Slots Op R} {s : Nat} {e : Entry Op R}
    (h : storage s = some e) : contentOf storage [s] = [(e.operation, e.result)] := by
  simp [contentOf, dataOf, h]

theorem contentOf_congr {storage storage' : Slots Op R} {order : List Nat}
    (h : ∀ s ∈ order, dataOf storage' s = dataOf storage s) :
    contentOf storage' order = contentOf storage order := by
  refine List.filterMap_congr fun s hs => ?_
  rw [h s hs]

theorem mem_contentOf {storage : Slots Op R} {order : List Nat} {op : Op} {r : R} :
    (op, r) ∈ contentOf storage order ↔
      ∃ s ∈ order, ∃ e, storage s = some e ∧ e.operation = op ∧ e.result = r := by
  unfold contentOf dataOf
  simp only [List.mem_filterMap, Option.map_map, Option.map_eq_some_iff, Function.comp_apply,
    Prod.mk.injEq]

/-! ## The invariant -/

/-- The recency list is `order`, linked both ways. -/
structure Lru (c : Cache Op R) (order : List Nat) : Prop where
  forward : Chain (linkOf Entry.newer c.storage) c.front order
  backward : Chain (linkOf Entry.older c.storage) c.back order.reverse

/-- Every bucket chains the entries of `order` that hash to it, once each. -/
def Chained (c : Cache Op R) (order : List Nat) : Prop :=
  ∀ b < c.buckets.length, ∃ l : List Nat, l.Nodup ∧
    Chain (linkOf Entry.bucketNext c.storage) (c.buckets.getD b none) l ∧
    ∀ s, s ∈ l ↔ s ∈ order ∧ ∃ e, c.storage s = some e ∧ c.bucket e.hash = b

/-- The parts of the cache agree that its entries are those of `order`, oldest
first. -/
structure Rep (hash : Op → Nat) (c : Cache Op R) (order : List Nat) : Prop where
  lru : c.Lru order
  chained : c.Chained order
  live : ∀ s, s ∈ order ↔ (c.storage s).isSome
  hashed : ∀ s e, c.storage s = some e → e.hash = hash e.operation
  slots : (c.free ++ order).Perm (List.range c.capacity)
  size_eq : c.size = order.length
  buckets_pos : 0 < c.buckets.length

/-- Nothing but the recency links has changed. -/
structure SameButLru (c c' : Cache Op R) : Prop where
  capacity : c'.capacity = c.capacity
  evictBatch : c'.evictBatch = c.evictBatch
  buckets : c'.buckets = c.buckets
  free : c'.free = c.free
  size : c'.size = c.size
  filter : c'.filter = c.filter
  bucketNext : linkOf Entry.bucketNext c'.storage = linkOf Entry.bucketNext c.storage
  data : dataOf c'.storage = dataOf c.storage

theorem SameButLru.refl (c : Cache Op R) : SameButLru c c :=
  ⟨rfl, rfl, rfl, rfl, rfl, rfl, rfl, rfl⟩

theorem SameButLru.trans {c c' c'' : Cache Op R} (h : SameButLru c c') (h' : SameButLru c' c'') :
    SameButLru c c'' :=
  ⟨h'.capacity.trans h.capacity, h'.evictBatch.trans h.evictBatch, h'.buckets.trans h.buckets,
    h'.free.trans h.free, h'.size.trans h.size, h'.filter.trans h.filter,
    h'.bucketNext.trans h.bucketNext, h'.data.trans h.data⟩

theorem bucket_congr {c c' : Cache Op R} (h : c'.buckets.length = c.buckets.length) (x : Nat) :
    c'.bucket x = c.bucket x := by
  unfold bucket
  rw [h]

theorem bucket_lt {c : Cache Op R} (hpos : 0 < c.buckets.length) (h : Nat) :
    c.bucket h < c.buckets.length := by
  have := Nat.and_le_right (n := h) (m := c.buckets.length - 1)
  unfold bucket
  omega

namespace Rep

variable {hash : Op → Nat} {c c' : Cache Op R} {order : List Nat}

theorem nodup (h : Rep hash c order) : order.Nodup :=
  (List.nodup_append.mp (h.slots.nodup_iff.mpr List.nodup_range)).2.1

theorem length_add (h : Rep hash c order) : c.free.length + order.length = c.capacity := by
  have := h.slots.length_eq
  rwa [List.length_append, List.length_range] at this

/-- Entries with the same data are chained alike when the buckets are. -/
theorem chained_of_same {order' : List Nat} (h : c.Chained order) (hs : SameButLru c c')
    (hp : order'.Perm order) : c'.Chained order' := by
  intro b hb
  rw [hs.buckets] at hb
  obtain ⟨l, hnd, hchain, hmem⟩ := h b hb
  refine ⟨l, hnd, ?_, fun s => ?_⟩
  · rw [hs.bucketNext, hs.buckets]
    exact hchain
  · rw [hmem s, hp.mem_iff, and_congr_right_iff]
    intro _
    have hbucket : ∀ x, c'.bucket x = c.bucket x := bucket_congr (by rw [hs.buckets])
    constructor
    · rintro ⟨e, he, rfl⟩
      obtain ⟨e', he', hh, -⟩ := exists_of_dataOf hs.data he
      exact ⟨e', he', by rw [hbucket, hh]⟩
    · rintro ⟨e', he', rfl⟩
      obtain ⟨e, he, hh, -⟩ := exists_of_dataOf hs.data.symm he'
      exact ⟨e, he, by rw [hbucket, hh]⟩

/-- A rearranged recency list. -/
theorem reorder {order' : List Nat} (h : Rep hash c order) (hs : SameButLru c c')
    (hlru : c'.Lru order') (hp : order'.Perm order) : Rep hash c' order' where
  lru := hlru
  chained := chained_of_same h.chained hs hp
  live s := by rw [hp.mem_iff, h.live s, isSome_of_dataOf hs.data]
  hashed s e' he' := by
    obtain ⟨e, he, hh, hop, -⟩ := exists_of_dataOf hs.data.symm he'
    rw [← hh, ← hop]
    exact h.hashed s e he
  slots := by
    rw [hs.free, hs.capacity]
    exact (hp.append_left _).trans h.slots
  size_eq := by rw [hs.size, h.size_eq, hp.length_eq]
  buckets_pos := by rw [hs.buckets]; exact h.buckets_pos

end Rep

/-! ## The recency list -/

section Recency

variable {c : Cache Op R} {order l₁ l₂ : List Nat} {s : Nat}

theorem Lru.older_eq (h : c.Lru (l₁ ++ s :: l₂)) :
    linkOf Entry.older c.storage s = l₁.getLast? := by
  have hb := h.backward
  rw [List.reverse_append, List.reverse_cons, List.append_assoc, List.singleton_append] at hb
  rw [Chain.next_eq hb, List.head?_reverse]

theorem Lru.newer_eq (h : c.Lru (l₁ ++ s :: l₂)) : linkOf Entry.newer c.storage s = l₂.head? :=
  Chain.next_eq h.forward

/-- Unlinking writes one link each way and nothing else. -/
theorem unlinkFromLru_links {e : Entry Op R} (ho : ∀ o, e.older = some o → (c.storage o).isSome)
    (hn : ∀ n, e.newer = some n → (c.storage n).isSome) :
    linkOf Entry.newer (c.unlinkFromLru e).storage =
        skip (linkOf Entry.newer c.storage) e.older e.newer ∧
      linkOf Entry.older (c.unlinkFromLru e).storage =
        skip (linkOf Entry.older c.storage) e.newer e.older ∧
      (c.unlinkFromLru e).front = skipHead c.front e.older e.newer ∧
      (c.unlinkFromLru e).back = skipHead c.back e.newer e.older ∧
      SameButLru c (c.unlinkFromLru e) := by
  unfold unlinkFromLru
  cases hold : e.older with
  | none =>
    cases hnew : e.newer with
    | none => exact ⟨rfl, rfl, rfl, rfl, ⟨rfl, rfl, rfl, rfl, rfl, rfl, rfl, rfl⟩⟩
    | some n =>
      refine ⟨?_, ?_, rfl, rfl, rfl, rfl, rfl, rfl, rfl, rfl, ?_, ?_⟩
      · exact linkOf_modify_of_same fun _ => rfl
      · exact linkOf_modify_of_write (fun _ => rfl) (hn n hnew)
      · exact linkOf_modify_of_same fun _ => rfl
      · exact dataOf_modify fun _ => ⟨rfl, rfl, rfl⟩
  | some o =>
    cases hnew : e.newer with
    | none =>
      refine ⟨?_, ?_, rfl, rfl, rfl, rfl, rfl, rfl, rfl, rfl, ?_, ?_⟩
      · exact linkOf_modify_of_write (fun _ => rfl) (ho o hold)
      · exact linkOf_modify_of_same fun _ => rfl
      · exact linkOf_modify_of_same fun _ => rfl
      · exact dataOf_modify fun _ => ⟨rfl, rfl, rfl⟩
    | some n =>
      have hdata : dataOf (modify c.storage o fun p => { p with newer := some n }) =
          dataOf c.storage := dataOf_modify fun _ => ⟨rfl, rfl, rfl⟩
      have hlive : (modify c.storage o (fun p => { p with newer := some n }) n).isSome := by
        rw [isSome_of_dataOf hdata]
        exact hn n hnew
      refine ⟨?_, ?_, rfl, rfl, rfl, rfl, rfl, rfl, rfl, rfl, ?_, ?_⟩
      · show linkOf Entry.newer (modify (modify _ o _) n _) = _
        rw [linkOf_modify_of_same]
        · exact linkOf_modify_of_write (fun _ => rfl) (ho o hold)
        · exact fun _ => rfl
      · show linkOf Entry.older (modify (modify _ o _) n _) = _
        refine (linkOf_modify_of_write (x := some o) (fun _ => rfl) hlive).trans ?_
        rw [linkOf_modify_of_same]
        · rfl
        · exact fun _ => rfl
      · show linkOf Entry.bucketNext (modify (modify _ o _) n _) = _
        rw [linkOf_modify_of_same, linkOf_modify_of_same]
        · exact fun _ => rfl
        · exact fun _ => rfl
      · show dataOf (modify _ n _) = _
        rw [dataOf_modify, hdata]
        exact fun _ => ⟨rfl, rfl, rfl⟩

theorem unlinkFromLru_spec (h : c.Lru (l₁ ++ s :: l₂)) (hnd : (l₁ ++ s :: l₂).Nodup)
    (hlive : ∀ t ∈ l₁ ++ s :: l₂, (c.storage t).isSome) {e : Entry Op R}
    (he : c.storage s = some e) :
    (c.unlinkFromLru e).Lru (l₁ ++ l₂) ∧ SameButLru c (c.unlinkFromLru e) := by
  have hold : e.older = l₁.getLast? := (linkOf_of_eq_some he).symm.trans h.older_eq
  have hnew : e.newer = l₂.head? := (linkOf_of_eq_some he).symm.trans h.newer_eq
  obtain ⟨hn, ho, hf, hb, hsame⟩ := unlinkFromLru_links (c := c) (e := e) (fun o h => hlive o (by
      have := List.mem_of_getLast? (hold ▸ h)
      exact List.mem_append_left _ this))
    (fun n h => hlive n (by
      have := List.mem_of_head? (hnew ▸ h)
      exact List.mem_append_right _ (List.mem_cons_of_mem _ this)))
  refine ⟨⟨?_, ?_⟩, hsame⟩
  · have := Chain.unlink h.forward hnd
    rw [linkOf_of_eq_some he, ← hold] at this
    rw [hn, hf]
    exact this
  · -- backwards the predecessor is the next newer entry
    have hback := h.backward
    have hrev : (l₁ ++ s :: l₂).reverse = l₂.reverse ++ s :: l₁.reverse := by simp
    rw [hrev] at hback
    have := Chain.unlink hback (hrev ▸ List.nodup_reverse.mpr hnd)
    rw [linkOf_of_eq_some he, List.getLast?_reverse, ← hnew] at this
    rw [ho, hb, List.reverse_append]
    exact this

theorem linkAsNewest_spec (h : c.Lru order) (hnd : order.Nodup) (hs : s ∉ order)
    (hlive : ∀ t ∈ order, (c.storage t).isSome) (hcell : (c.storage s).isSome) :
    (c.linkAsNewest s).Lru (order ++ [s]) ∧ SameButLru c (c.linkAsNewest s) ∧
      (c.linkAsNewest s).back = some s := by
  have hlast : c.back = order.getLast? := by
    rw [Chain.head_eq h.backward, List.head?_reverse]
  have hf := Chain.snoc h.forward hnd hs
  have hb := Chain.push h.backward (s := s) (fun hm => hs (List.mem_reverse.mp hm))
  have hrev : (order ++ [s]).reverse = s :: order.reverse := by simp
  rw [← hlast] at hf
  unfold linkAsNewest
  -- the links of `s` itself are written first
  have hdata : dataOf (modify c.storage s fun e => { e with older := c.back, newer := none }) =
      dataOf c.storage := dataOf_modify fun _ => ⟨rfl, rfl, rfl⟩
  have hnewer : linkOf Entry.newer
      (modify c.storage s fun e => { e with older := c.back, newer := none }) =
      Function.update (linkOf Entry.newer c.storage) s none :=
    linkOf_modify_of_write (fun _ => rfl) hcell
  have holder : linkOf Entry.older
      (modify c.storage s fun e => { e with older := c.back, newer := none }) =
      Function.update (linkOf Entry.older c.storage) s c.back :=
    linkOf_modify_of_write (fun _ => rfl) hcell
  have hbucket : linkOf Entry.bucketNext
      (modify c.storage s fun e => { e with older := c.back, newer := none }) =
      linkOf Entry.bucketNext c.storage := linkOf_modify_of_same fun _ => rfl
  cases hback : c.back with
  | none =>
    rw [hback] at hf hb holder hnewer hdata hbucket
    refine ⟨⟨?_, ?_⟩, ⟨rfl, rfl, rfl, rfl, rfl, rfl, hbucket, hdata⟩, rfl⟩
    · exact hnewer ▸ hf
    · rw [hrev]
      exact holder ▸ hb
  | some b =>
    rw [hback] at hf hb holder hnewer hdata hbucket
    have hlive' : (modify c.storage s (fun e => { e with older := some b, newer := none })
        b).isSome := by
      rw [isSome_of_dataOf hdata]
      exact hlive b (List.mem_of_getLast? (hlast ▸ hback))
    refine ⟨⟨?_, ?_⟩, ⟨rfl, rfl, rfl, rfl, rfl, rfl, ?_, ?_⟩, rfl⟩
    · show Chain (linkOf Entry.newer (modify _ b _)) _ _
      have hnewer' := linkOf_modify_of_write (g := Entry.newer) (x := some s)
        (f := fun p => { p with newer := some s }) (fun _ => rfl) hlive'
      rw [hnewer', hnewer]
      exact hf
    · show Chain (linkOf Entry.older (modify _ b _)) _ _
      rw [linkOf_modify_of_same, holder, hrev]
      · exact hb
      · exact fun _ => rfl
    · show linkOf Entry.bucketNext (modify _ b _) = _
      rw [linkOf_modify_of_same, hbucket]
      exact fun _ => rfl
    · show dataOf (modify _ b _) = _
      rw [dataOf_modify, hdata]
      exact fun _ => ⟨rfl, rfl, rfl⟩

/-- Touching moves an entry to the end. -/
theorem touch_spec {hash : Op → Nat} (h : Rep hash c (l₁ ++ s :: l₂)) :
    ∃ c', c.touch s = some c' ∧ Rep hash c' (l₁ ++ l₂ ++ [s]) ∧ SameButLru c c' := by
  have hlast : c.back = (l₁ ++ s :: l₂).getLast? := by
    rw [Chain.head_eq h.lru.backward, List.head?_reverse]
  have hperm : (l₁ ++ l₂ ++ [s]).Perm (l₁ ++ s :: l₂) := by
    rw [List.append_assoc]
    exact (List.perm_append_singleton s l₂).append_left l₁
  have hmem : s ∈ l₁ ++ s :: l₂ := List.mem_append_right _ List.mem_cons_self
  have hnd := h.nodup
  unfold touch
  by_cases hb : c.back = some s
  · rw [if_pos hb]
    refine ⟨c, rfl, ?_, .refl c⟩
    -- the last entry is already there
    obtain rfl : l₂ = [] := by
      rw [hlast, List.getLast?_append, List.getLast?_cons] at hb
      rcases List.eq_nil_or_concat l₂ with rfl | ⟨l, t, rfl⟩
      · rfl
      · rw [List.concat_eq_append] at hb hnd
        simp only [List.getLast?_concat, Option.getD_some, Option.some_or, Option.some.injEq] at hb
        subst hb
        have hcons := (List.nodup_append.mp hnd).2.1
        exact absurd (List.mem_append_right l (List.mem_singleton.mpr rfl))
          (List.nodup_cons.mp hcons).1
    simpa using h
  · rw [if_neg hb]
    obtain ⟨e, he⟩ := Option.isSome_iff_exists.mp ((h.live s).mp hmem)
    rw [he]
    obtain ⟨hlru, hsame⟩ := unlinkFromLru_spec h.lru hnd (fun t ht => (h.live t).mp ht) he
    have hsub : ∀ t ∈ l₁ ++ l₂, t ∈ l₁ ++ s :: l₂ := fun t ht =>
      hperm.subset (List.mem_append_left _ ht)
    have hnd' : (l₁ ++ l₂ ++ [s]).Nodup := hperm.nodup_iff.mpr hnd
    obtain ⟨hlru', hsame', -⟩ := linkAsNewest_spec hlru (List.nodup_append.mp hnd').1
      (fun hm => (List.nodup_append.mp hnd').2.2 s hm s (List.mem_singleton.mpr rfl) rfl)
      (fun t ht => by
        rw [isSome_of_dataOf hsame.data]
        exact (h.live t).mp (hsub t ht))
      (by
        rw [isSome_of_dataOf hsame.data, he]
        rfl)
    exact ⟨_, rfl, h.reorder (hsame.trans hsame') hlru' hperm, hsame.trans hsame'⟩

end Recency

/-! ## The chain of a bucket -/

section Buckets

variable {c : Cache Op R} {order : List Nat} {s : Nat}

theorem findFrom_spec [DecidableEq Op] {storage : Slots Op R} (h : Nat) (op : Op) {l : List Nat} :
    ∀ {fuel : Nat} {link : Option Nat}, Chain (linkOf Entry.bucketNext storage) link l →
    (∀ t ∈ l, (storage t).isSome) → l.length ≤ fuel →
    (∃ s ∈ l, ∃ e, storage s = some e ∧ e.operation = op ∧
      findFrom storage h op fuel link = some (s, e.result)) ∨
    (findFrom storage h op fuel link = none ∧
      ∀ s ∈ l, ∀ e, storage s = some e → e.hash = h → e.operation ≠ op) := by
  induction l with
  | nil =>
    intro fuel link hchain _ _
    obtain rfl : link = none := hchain
    refine .inr ⟨?_, fun s hs => by cases hs⟩
    cases fuel <;> rfl
  | cons s l ih =>
    intro fuel link hchain hlive hfuel
    obtain ⟨rfl, hchain⟩ := hchain
    obtain ⟨fuel, rfl⟩ := Nat.exists_eq_add_of_le' (Nat.one_le_of_lt hfuel)
    obtain ⟨e, he⟩ := Option.isSome_iff_exists.mp (hlive s List.mem_cons_self)
    rw [linkOf_of_eq_some he] at hchain
    simp only [findFrom, he]
    by_cases hop : e.hash = h ∧ e.operation = op
    · rw [if_pos hop]
      exact .inl ⟨s, List.mem_cons_self .., e, he, hop.2, rfl⟩
    · rw [if_neg hop]
      have hle : l.length ≤ fuel := Nat.le_of_succ_le_succ hfuel
      rcases ih hchain (fun t ht => hlive t (List.mem_cons_of_mem _ ht)) hle with
        ⟨t, ht, e', he', hop', heq⟩ | ⟨heq, hnone⟩
      · exact .inl ⟨t, List.mem_cons_of_mem _ ht, e', he', hop', heq⟩
      · refine .inr ⟨heq, fun t ht e' he' hh => ?_⟩
        rcases List.mem_cons.mp ht with rfl | ht
        · obtain rfl := Option.some.inj (he.symm.trans he')
          exact fun hop' => hop ⟨hh, hop'⟩
        · exact hnone t ht e' he' hh

theorem linkOwner_spec {storage : Slots Op R} {l₁ l₂ : List Nat} :
    ∀ {fuel : Nat} (owner : Option Nat) {link : Option Nat},
    Chain (linkOf Entry.bucketNext storage) link (l₁ ++ s :: l₂) → s ∉ l₁ → l₁.length < fuel →
    linkOwner storage s fuel owner link = some (l₁.getLast?.or owner) := by
  induction l₁ with
  | nil =>
    intro fuel owner link hchain _ hfuel
    obtain ⟨fuel, rfl⟩ := Nat.exists_eq_add_of_le' hfuel
    exact if_pos hchain.1
  | cons p l ih =>
    intro fuel owner link hchain hs hfuel
    obtain ⟨fuel, rfl⟩ := Nat.exists_eq_add_of_le' (Nat.one_le_of_lt hfuel)
    obtain ⟨rfl, hchain⟩ := hchain
    have hps : p ≠ s := fun h => hs (h ▸ List.mem_cons_self ..)
    have hlt : l.length < fuel := Nat.lt_of_succ_lt_succ hfuel
    rw [linkOwner, if_neg fun h => hps (Option.some.inj h)]
    refine (ih _ hchain (fun h => hs (List.mem_cons_of_mem _ h)) hlt).trans ?_
    rw [List.getLast?_cons]
    cases l.getLast? <;> rfl

/-- A chain is no longer than there are slots. -/
theorem Rep.chain_length {hash : Op → Nat} (h : Rep hash c order) {l : List Nat} (hnd : l.Nodup)
    (hsub : ∀ t ∈ l, t ∈ order) : l.length ≤ c.capacity := by
  have hle := (List.subperm_of_subset hnd hsub).length_le
  have := h.length_add
  omega

/-- The operations that are held are the ones that are found. -/
theorem find_spec [DecidableEq Op] {hash : Op → Nat} (h : Rep hash c order) (op : Op) :
    (∃ s ∈ order, ∃ e, c.storage s = some e ∧ e.operation = op ∧
      c.find (hash op) op = some (s, e.result)) ∨
    (c.find (hash op) op = none ∧ ∀ s ∈ order, ∀ e, c.storage s = some e → e.operation ≠ op) := by
  obtain ⟨l, hnd, hchain, hmem⟩ := h.chained _ (bucket_lt h.buckets_pos (hash op))
  have hsub : ∀ t ∈ l, t ∈ order := fun t ht => ((hmem t).mp ht).1
  rcases findFrom_spec (hash op) op hchain (fun t ht => (h.live t).mp (hsub t ht))
    (h.chain_length hnd hsub) with ⟨s, hs, e, he, hop, heq⟩ | ⟨heq, hnone⟩
  · exact .inl ⟨s, hsub s hs, e, he, hop, heq⟩
  · refine .inr ⟨heq, fun s hs e he hop => ?_⟩
    have hh : e.hash = hash op := by rw [h.hashed s e he, hop]
    exact hnone s ((hmem s).mpr ⟨hs, e, he, by rw [hh]⟩) e he hh hop

/-- Nothing but the links of the buckets has changed. -/
structure SameButBuckets (c c' : Cache Op R) : Prop where
  capacity : c'.capacity = c.capacity
  evictBatch : c'.evictBatch = c.evictBatch
  length : c'.buckets.length = c.buckets.length
  free : c'.free = c.free
  size : c'.size = c.size
  filter : c'.filter = c.filter
  front : c'.front = c.front
  back : c'.back = c.back
  newer : linkOf Entry.newer c'.storage = linkOf Entry.newer c.storage
  older : linkOf Entry.older c'.storage = linkOf Entry.older c.storage
  data : dataOf c'.storage = dataOf c.storage

/-- Unlinking bends the link to the entry, wherever that is. -/
theorem unlinkFromBucket_links {e : Entry Op R} {owner : Option Nat}
    (howner : linkOwner c.storage s c.capacity none (c.buckets.getD (c.bucket e.hash) none) =
      some owner) (hpos : 0 < c.buckets.length)
    (hlive : ∀ p, owner = some p → (c.storage p).isSome) :
    ∃ c', c.unlinkFromBucket s e = some c' ∧ SameButBuckets c c' ∧
      linkOf Entry.bucketNext c'.storage =
        skip (linkOf Entry.bucketNext c.storage) owner e.bucketNext ∧
      ∀ b, c'.buckets.getD b none = if b = c.bucket e.hash
        then skipHead (c.buckets.getD b none) owner e.bucketNext else c.buckets.getD b none := by
  unfold unlinkFromBucket
  rw [howner]
  cases owner with
  | none =>
    refine ⟨_, rfl, ⟨rfl, rfl, List.length_set .., rfl, rfl, rfl, rfl, rfl, rfl, rfl, rfl⟩, rfl,
      fun b => ?_⟩
    simp only [List.getD_eq_getElem?_getD, List.getElem?_set]
    by_cases hb : b = c.bucket e.hash
    · subst hb
      rw [if_pos rfl, if_pos rfl, if_pos (bucket_lt hpos e.hash)]
      rfl
    · rw [if_neg hb, if_neg fun h => hb h.symm]
  | some p =>
    refine ⟨_, rfl, ⟨rfl, rfl, rfl, rfl, rfl, rfl, rfl, rfl, ?_, ?_, ?_⟩, ?_, fun b => ?_⟩
    · exact linkOf_modify_of_same fun _ => rfl
    · exact linkOf_modify_of_same fun _ => rfl
    · exact dataOf_modify fun _ => ⟨rfl, rfl, rfl⟩
    · exact linkOf_modify_of_write (fun _ => rfl) (hlive p rfl)
    · exact (ite_self _).symm

/-- The entry is out of its chain, every other one is still in its own. -/
theorem unlinkFromBucket_spec {hash : Op → Nat} (h : Rep hash c (s :: order)) {e : Entry Op R}
    (he : c.storage s = some e) :
    ∃ c', c.unlinkFromBucket s e = some c' ∧ SameButBuckets c c' ∧ c'.Chained order := by
  obtain ⟨l, hnd, hchain, hmem⟩ := h.chained _ (bucket_lt h.buckets_pos e.hash)
  obtain ⟨l₁, l₂, rfl⟩ := List.append_of_mem ((hmem s).mpr ⟨List.mem_cons_self .., e, he, rfl⟩)
  have hs₁ : s ∉ l₁ := fun hm =>
    (List.nodup_append.mp hnd).2.2 s hm s List.mem_cons_self rfl
  have hlen := h.chain_length hnd fun t ht => ((hmem t).mp ht).1
  have hlt : l₁.length < c.capacity := by
    rw [List.length_append, List.length_cons] at hlen
    omega
  have howner := linkOwner_spec none hchain hs₁ hlt
  rw [Option.or_none] at howner
  have hnotin : s ∉ order := (List.nodup_cons.mp h.nodup).1
  have hin : ∀ p, l₁.getLast? = some p → p ∈ l₁ ++ s :: l₂ := fun p hp =>
    List.mem_append_left _ (List.mem_of_getLast? hp)
  obtain ⟨c', heq, hsame, hlinks, hheads⟩ := unlinkFromBucket_links howner h.buckets_pos
    fun p hp => (h.live p).mp ((hmem p).mp (hin p hp)).1
  refine ⟨c', heq, hsame, fun b hb => ?_⟩
  rw [hsame.length] at hb
  have hbucket := bucket_congr hsame.length
  -- the same entries, apart from `s`
  have hmem' : ∀ t, t ≠ s → ((t ∈ s :: order ∧ ∃ e, c.storage t = some e ∧ c.bucket e.hash = b) ↔
      (t ∈ order ∧ ∃ e, c'.storage t = some e ∧ c'.bucket e.hash = b)) := by
    intro t hts
    rw [List.mem_cons, or_iff_right hts, and_congr_right_iff]
    intro _
    constructor
    · rintro ⟨e, he, rfl⟩
      obtain ⟨e', he', hh, -⟩ := exists_of_dataOf hsame.data he
      exact ⟨e', he', by rw [hbucket, hh]⟩
    · rintro ⟨e', he', rfl⟩
      obtain ⟨e, he, hh, -⟩ := exists_of_dataOf hsame.data.symm he'
      exact ⟨e, he, by rw [hbucket, hh]⟩
  rw [hlinks, hheads b]
  by_cases hbe : b = c.bucket e.hash
  · subst hbe
    rw [if_pos rfl]
    refine ⟨l₁ ++ l₂, ?_, ?_, fun t => ?_⟩
    · exact hnd.sublist (List.Sublist.append_left (List.sublist_cons_self ..) _)
    · have := Chain.unlink hchain hnd
      rwa [linkOf_of_eq_some he] at this
    · by_cases hts : t = s
      · subst hts
        refine iff_of_false (fun hm => ?_) fun hm => hnotin hm.1
        have hperm : (l₁ ++ t :: l₂).Perm (t :: (l₁ ++ l₂)) := List.perm_middle
        exact (List.nodup_cons.mp (hperm.nodup_iff.mp hnd)).1 hm
      · rw [← hmem' t hts, ← hmem t, List.mem_append, List.mem_append, List.mem_cons,
          or_iff_right hts]
  · rw [if_neg hbe]
    obtain ⟨l, hnd', hchain', hmem''⟩ := h.chained b hb
    refine ⟨l, hnd', ?_, fun t => ?_⟩
    · cases hlast : l₁.getLast? with
      | none => exact hchain'
      | some p =>
        refine Seg.update_of_notMem hchain' fun hp => hbe ?_
        obtain ⟨-, e₁, he₁, h₁⟩ := (hmem'' p).mp hp
        obtain ⟨-, e₂, he₂, h₂⟩ := (hmem p).mp (hin p hlast)
        obtain rfl := Option.some.inj (he₁.symm.trans he₂)
        rw [← h₁, h₂]
    · by_cases hts : t = s
      · subst hts
        refine iff_of_false (fun hm => hbe ?_) fun hm => hnotin hm.1
        obtain ⟨-, e₁, he₁, h₁⟩ := (hmem'' t).mp hm
        obtain rfl := Option.some.inj (he₁.symm.trans he)
        exact h₁.symm
      · rw [hmem'' t, hmem' t hts]

end Buckets

/-! ## Eviction and insertion -/

section Storage

variable {hash : Op → Nat} {c : Cache Op R} {order : List Nat} {s : Nat}

theorem linkOf_release (g : Entry Op R → Option Nat) (storage : Slots Op R) (s : Nat) :
    linkOf g (Function.update storage s none) = Function.update (linkOf g storage) s none := by
  funext t
  unfold linkOf
  by_cases ht : t = s
  · subst ht
    rw [Function.update_self, Function.update_self]
    rfl
  · rw [Function.update_of_ne ht, Function.update_of_ne ht]

theorem linkOf_construct (g : Entry Op R → Option Nat) (storage : Slots Op R) (s : Nat)
    (e : Entry Op R) :
    linkOf g (Function.update storage s (some e)) = Function.update (linkOf g storage) s (g e) := by
  funext t
  unfold linkOf
  by_cases ht : t = s
  · subst ht
    rw [Function.update_self, Function.update_self]
    rfl
  · rw [Function.update_of_ne ht, Function.update_of_ne ht]

theorem dataOf_update {storage : Slots Op R} {x : Option (Entry Op R)} {t : Nat} (ht : t ≠ s) :
    dataOf (Function.update storage s x) t = dataOf storage t := by
  unfold dataOf
  rw [Function.update_of_ne ht]

theorem Lru.of_same {c' : Cache Op R} (h : c.Lru order) (hs : SameButBuckets c c') :
    c'.Lru order := by
  refine ⟨?_, ?_⟩
  · rw [hs.newer, hs.front]
    exact h.forward
  · rw [hs.older, hs.back]
    exact h.backward

/-- The oldest entry goes, the others stay as they are. -/
theorem evictOldest_spec (h : Rep hash c (s :: order)) : ∃ c', c.evictOldest = some c' ∧
    Rep hash c' order ∧ (∀ t ∈ order, dataOf c'.storage t = dataOf c.storage t) ∧
    c'.capacity = c.capacity ∧ c'.evictBatch = c.evictBatch ∧ c'.filter = c.filter := by
  have hfront : c.front = some s := Chain.head_eq h.lru.forward
  obtain ⟨e, he⟩ := Option.isSome_iff_exists.mp ((h.live s).mp List.mem_cons_self)
  obtain ⟨c₁, heq₁, hsame₁, hchained⟩ := unlinkFromBucket_spec h he
  obtain ⟨e₁, he₁, -⟩ := exists_of_dataOf hsame₁.data he
  have hnotin : s ∉ order := (List.nodup_cons.mp h.nodup).1
  have hold : e₁.older = e.older := by
    have := congrFun hsame₁.older s
    rwa [linkOf_of_eq_some he₁, linkOf_of_eq_some he] at this
  have hnew : e₁.newer = e.newer := by
    have := congrFun hsame₁.newer s
    rwa [linkOf_of_eq_some he₁, linkOf_of_eq_some he] at this
  have hunlink : c₁.unlinkFromLru e = c₁.unlinkFromLru e₁ := by
    unfold unlinkFromLru
    rw [hold, hnew]
  have hlru₁ : c₁.Lru ([] ++ s :: order) := h.lru.of_same hsame₁
  obtain ⟨hlru, hsame₂⟩ := unlinkFromLru_spec hlru₁ h.nodup (fun t ht => by
      rw [isSome_of_dataOf hsame₁.data]
      exact (h.live t).mp ht) he₁
  rw [List.nil_append] at hlru
  have hne : ∀ t ∈ order, t ≠ s := fun t ht hts => hnotin (hts ▸ ht)
  have hdata := hsame₂.data.trans hsame₁.data
  unfold evictOldest
  rw [hfront, Option.bind_eq_bind, Option.bind_some, he, Option.bind_eq_bind, Option.bind_some,
    heq₁, Option.bind_eq_bind, Option.bind_some, hunlink]
  refine ⟨_, rfl, ⟨⟨?_, ?_⟩, fun b hb => ?_, fun t => ?_, fun t e' he' => ?_, ?_, ?_, ?_⟩,
    ?_, ?_, ?_, ?_⟩
  · dsimp only
    rw [linkOf_release]
    exact Seg.update_of_notMem hlru.forward hnotin
  · dsimp only
    rw [linkOf_release]
    exact Seg.update_of_notMem hlru.backward fun hm => hnotin (List.mem_reverse.mp hm)
  · obtain ⟨l, hnd, hchain, hmem⟩ := Rep.chained_of_same hchained hsame₂ (.refl _) b hb
    refine ⟨l, hnd, ?_, fun t => ?_⟩
    · dsimp only
      rw [linkOf_release]
      exact Seg.update_of_notMem hchain fun hm => hnotin ((hmem s).mp hm).1
    · rw [hmem t, and_congr_right_iff]
      intro ht
      dsimp only
      rw [Function.update_of_ne (hne t ht)]
      rfl
  · dsimp only
    by_cases hts : t = s
    · subst hts
      rw [Function.update_self]
      exact iff_of_false hnotin Bool.false_ne_true
    · rw [Function.update_of_ne hts, isSome_of_dataOf hdata, ← h.live t, List.mem_cons,
        or_iff_right hts]
  · dsimp only at he'
    by_cases hts : t = s
    · subst hts
      rw [Function.update_self] at he'
      cases he'
    · rw [Function.update_of_ne hts] at he'
      obtain ⟨e'', he'', hh, hop, -⟩ := exists_of_dataOf hdata.symm he'
      rw [← hh, ← hop]
      exact h.hashed t e'' he''
  · dsimp only
    rw [hsame₂.free, hsame₁.free, hsame₂.capacity, hsame₁.capacity, List.cons_append]
    exact List.perm_middle.symm.trans h.slots
  · dsimp only
    rw [hsame₂.size, hsame₁.size, h.size_eq]
    rfl
  · dsimp only
    rw [hsame₂.buckets, hsame₁.length]
    exact h.buckets_pos
  · intro t ht
    rw [dataOf_update (hne t ht), hdata]
  · exact hsame₂.capacity.trans hsame₁.capacity
  · exact hsame₂.evictBatch.trans hsame₁.evictBatch
  · exact hsame₂.filter.trans hsame₁.filter

/-- So many of the oldest go. -/
theorem evictTimes_spec : ∀ {n : Nat} {c : Cache Op R} {order : List Nat}, Rep hash c order →
    n ≤ order.length → ∃ c', evictTimes n c = some c' ∧ Rep hash c' (order.drop n) ∧
      (∀ t ∈ order.drop n, dataOf c'.storage t = dataOf c.storage t) ∧
      c'.capacity = c.capacity ∧ c'.evictBatch = c.evictBatch ∧ c'.filter = c.filter := by
  intro n
  induction n with
  | zero => exact fun h _ => ⟨_, rfl, h, fun _ _ => rfl, rfl, rfl, rfl⟩
  | succ n ih =>
    intro c order h hn
    obtain ⟨s, order, rfl⟩ := List.exists_cons_of_length_pos (Nat.zero_lt_of_lt hn)
    obtain ⟨c₁, heq, hrep, hcon, hcap, hbatch, hfilter⟩ := evictOldest_spec h
    have hle : n ≤ order.length := Nat.le_of_succ_le_succ hn
    obtain ⟨c', heq', hrep', hcon', hcap', hbatch', hfilter'⟩ := ih hrep hle
    refine ⟨c', ?_, hrep', ?_, hcap'.trans hcap, hbatch'.trans hbatch, hfilter'.trans hfilter⟩
    · rw [evictTimes, heq, Option.bind_eq_bind, Option.bind_some, heq']
    · intro t ht
      rw [hcon' t ht, hcon t (List.mem_of_mem_drop ht)]

/-- The new entry is the newest. -/
theorem insert_spec (h : Rep hash c order) (op : Op) (r : R) (hfree : c.free ≠ []) :
    ∃ c' s e, c.insert (hash op) op r = some c' ∧ Rep hash c' (order ++ [s]) ∧
      (∀ t ∈ order, dataOf c'.storage t = dataOf c.storage t) ∧
      c'.back = some s ∧ c'.storage s = some e ∧ e.operation = op ∧ e.result = r ∧
      c'.capacity = c.capacity ∧ c'.evictBatch = c.evictBatch ∧ c'.filter = c.filter := by
  obtain ⟨s, free, hcons⟩ := List.exists_cons_of_ne_nil hfree
  have hnd := h.slots.nodup_iff.mpr List.nodup_range
  rw [hcons, List.cons_append] at hnd
  have hnotin : s ∉ order := fun hm =>
    (List.nodup_cons.mp hnd).1 (List.mem_append_right _ hm)
  have hne : ∀ t ∈ order, t ≠ s := fun t ht hts => hnotin (hts ▸ ht)
  unfold insert
  rw [hcons]
  dsimp only
  generalize he : (⟨c.buckets.getD (c.bucket (hash op)) none, none, none, hash op, op, r⟩ :
    Entry Op R) = e
  generalize hc₁ : ({ c with
    free := free, storage := Function.update c.storage s (some e),
    buckets := c.buckets.set (c.bucket (hash op)) (some s) } : Cache Op R) = c₁
  have hst : c₁.storage = Function.update c.storage s (some e) := by rw [← hc₁]
  have hcell : c₁.storage s = some e := by rw [hst, Function.update_self]
  have hother : ∀ t, t ≠ s → c₁.storage t = c.storage t := fun t ht => by
    rw [hst, Function.update_of_ne ht]
  have hlength : c₁.buckets.length = c.buckets.length := by
    rw [← hc₁]
    exact List.length_set ..
  have hbucket := bucket_congr hlength
  have hlru : c₁.Lru order := by
    refine ⟨?_, ?_⟩
    · rw [hst, linkOf_construct, show c₁.front = c.front by rw [← hc₁]]
      exact Seg.update_of_notMem h.lru.forward hnotin
    · rw [hst, linkOf_construct, show c₁.back = c.back by rw [← hc₁]]
      exact Seg.update_of_notMem h.lru.backward fun hm => hnotin (List.mem_reverse.mp hm)
  obtain ⟨hlru', hsame, hback⟩ := linkAsNewest_spec hlru h.nodup hnotin
    (fun t ht => by rw [hother t (hne t ht)]; exact (h.live t).mp ht)
    (by rw [hcell]; rfl)
  obtain ⟨e', he', -, hop', hr'⟩ := exists_of_dataOf hsame.data hcell
  have hchained : c₁.Chained (order ++ [s]) := by
    intro b hb
    rw [hlength] at hb
    obtain ⟨l, hndl, hchain, hmem⟩ := h.chained b hb
    have hsl : s ∉ l := fun hm => hnotin ((hmem s).mp hm).1
    -- the entries of the bucket from before
    have hmem' : ∀ t, t ≠ s → (t ∈ l ↔
        t ∈ order ++ [s] ∧ ∃ e, c₁.storage t = some e ∧ c₁.bucket e.hash = b) := by
      intro t ht
      rw [hmem t, hother t ht, List.mem_append, List.mem_singleton, or_iff_left ht,
        and_congr_right_iff]
      intro _
      simp only [hbucket]
    have hhead : c₁.buckets.getD b none =
        if b = c.bucket (hash op) then some s else c.buckets.getD b none := by
      rw [← hc₁]
      simp only [List.getD_eq_getElem?_getD, List.getElem?_set]
      by_cases hbe : b = c.bucket (hash op)
      · subst hbe
        rw [if_pos rfl, if_pos rfl, if_pos (bucket_lt h.buckets_pos _)]
        rfl
      · rw [if_neg hbe, if_neg fun h => hbe h.symm]
    rw [hst, linkOf_construct, hhead, ← hst]
    have hehash : e.hash = hash op := by rw [← he]
    by_cases hbe : b = c.bucket (hash op)
    · rw [if_pos hbe]
      refine ⟨s :: l, List.nodup_cons.mpr ⟨hsl, hndl⟩, ?_, fun t => ?_⟩
      · rw [show e.bucketNext = c.buckets.getD b none by rw [← he, hbe]]
        exact Chain.push hchain hsl
      · by_cases hts : t = s
        · subst hts
          refine iff_of_true List.mem_cons_self ⟨by simp, e, hcell, ?_⟩
          rw [hbucket, hehash, hbe]
        · rw [List.mem_cons, or_iff_right hts, hmem' t hts]
    · rw [if_neg hbe]
      refine ⟨l, hndl, Seg.update_of_notMem hchain hsl, fun t => ?_⟩
      by_cases hts : t = s
      · subst hts
        refine iff_of_false hsl ?_
        rintro ⟨-, e₁, he₁, h₁⟩
        obtain rfl := Option.some.inj (hcell.symm.trans he₁)
        rw [hbucket, hehash] at h₁
        exact hbe h₁.symm
      · exact hmem' t hts
  refine ⟨_, s, e', rfl, ⟨⟨hlru'.forward, hlru'.backward⟩, ?_, fun t => ?_, fun t e₁ he₁ => ?_, ?_,
    ?_, ?_⟩, fun t ht => ?_, hback, he', ?_, ?_, ?_, ?_, ?_⟩
  · have hchained' := Rep.chained_of_same hchained hsame (.refl _)
    exact fun b hb => hchained' b hb
  · show t ∈ order ++ [s] ↔ ((c₁.linkAsNewest s).storage t).isSome
    rw [isSome_of_dataOf hsame.data]
    by_cases hts : t = s
    · subst hts
      rw [hcell]
      exact iff_of_true (by simp) rfl
    · rw [hother t hts, ← h.live t, List.mem_append, List.mem_singleton, or_iff_left hts]
  · obtain ⟨e₂, he₂, hh, hop, -⟩ := exists_of_dataOf hsame.data.symm he₁
    rw [← hh, ← hop]
    by_cases hts : t = s
    · subst hts
      obtain rfl := Option.some.inj (hcell.symm.trans he₂)
      rw [← he]
    · rw [hother t hts] at he₂
      exact h.hashed t e₂ he₂
  · show ((c₁.linkAsNewest s).free ++ (order ++ [s])).Perm
      (List.range (c₁.linkAsNewest s).capacity)
    rw [hsame.free, hsame.capacity, ← hc₁]
    refine List.Perm.trans ?_ h.slots
    rw [hcons, ← List.append_assoc]
    exact List.perm_append_singleton s (free ++ order)
  · show (c₁.linkAsNewest s).size + 1 = (order ++ [s]).length
    rw [hsame.size, List.length_append, ← h.size_eq, ← hc₁]
    rfl
  · show 0 < (c₁.linkAsNewest s).buckets.length
    rw [hsame.buckets, hlength]
    exact h.buckets_pos
  · show dataOf (c₁.linkAsNewest s).storage t = dataOf c.storage t
    rw [hsame.data, hst, dataOf_update (hne t ht)]
  · rw [hop', ← he]
  · rw [hr', ← he]
  · exact hsame.capacity.trans (by rw [← hc₁])
  · exact hsame.evictBatch.trans (by rw [← hc₁])
  · exact hsame.filter.trans (by rw [← hc₁])

theorem clearFrom_spec : ∀ {order : List Nat} {fuel : Nat} {link : Option Nat}
    {storage : Slots Op R} {free : List Nat}, Chain (linkOf Entry.newer storage) link order →
    order.Nodup → order.length ≤ fuel →
    clearFrom fuel link storage free =
      (fun t => if t ∈ order then none else storage t, order.reverse ++ free) := by
  intro order
  induction order with
  | nil =>
    intro fuel link storage free hchain _ _
    obtain rfl : link = none := hchain
    cases fuel <;> simp [clearFrom]
  | cons s order ih =>
    intro fuel link storage free hchain hnd hfuel
    obtain ⟨rfl, hchain⟩ := hchain
    obtain ⟨fuel, rfl⟩ := Nat.exists_eq_add_of_le' (Nat.one_le_of_lt hfuel)
    obtain ⟨hs, hnd⟩ := List.nodup_cons.mp hnd
    have hchain' : Chain (linkOf Entry.newer (Function.update storage s none))
        (linkOf Entry.newer storage s) order := by
      rw [linkOf_release]
      exact Seg.update_of_notMem hchain hs
    refine (ih hchain' hnd (Nat.le_of_succ_le_succ hfuel)).trans ?_
    rw [List.reverse_cons, List.append_assoc, List.singleton_append]
    congr 1
    funext t
    by_cases hts : t = s
    · subst hts
      rw [if_neg hs, Function.update_self, if_pos List.mem_cons_self]
    · rw [Function.update_of_ne hts]
      simp only [List.mem_cons, hts, false_or]

theorem getD_replicate_none (n b : Nat) :
    (List.replicate n (none : Option Nat)).getD b none = none := by
  rw [List.getD_eq_getElem?_getD, List.getElem?_replicate]
  split <;> rfl

theorem clear_spec (h : Rep hash c order) : Rep hash c.clear [] ∧ c.clear.capacity = c.capacity ∧
    c.clear.evictBatch = c.evictBatch ∧ c.clear.filter = c.filter := by
  have hle : order.length ≤ c.capacity := by
    have := h.length_add
    omega
  have hclear : clearFrom c.capacity c.front c.storage c.free =
      (fun _ => none, order.reverse ++ c.free) := by
    rw [clearFrom_spec h.lru.forward h.nodup hle]
    congr 1
    funext t
    by_cases ht : t ∈ order
    · rw [if_pos ht]
    · rw [if_neg ht]
      exact Option.not_isSome_iff_eq_none.mp fun hs => ht ((h.live t).mpr hs)
  refine ⟨?_, rfl, rfl, rfl⟩
  unfold clear
  rw [hclear]
  refine ⟨⟨rfl, rfl⟩, fun b hb => ⟨[], List.nodup_nil, ?_, fun t => ?_⟩, fun t => ?_,
    fun t e he => ?_, ?_, rfl, ?_⟩
  · show (c.buckets.map fun _ => none).getD b none = none
    rw [List.map_const']
    exact getD_replicate_none ..
  · exact iff_of_false List.not_mem_nil fun hm => List.not_mem_nil hm.1
  · exact iff_of_false List.not_mem_nil Bool.false_ne_true
  · cases he
  · show (order.reverse ++ c.free ++ []).Perm _
    rw [List.append_nil]
    refine List.Perm.trans ?_ h.slots
    exact (order.reverse_perm.append_right _).trans List.perm_append_comm
  · show 0 < (c.buckets.map fun _ => none).length
    rw [List.length_map]
    exact h.buckets_pos

theorem doubleUpTo_pos (n : Nat) : ∀ (fuel : Nat) {p : Nat}, 0 < p → 0 < doubleUpTo n fuel p := by
  intro fuel
  induction fuel with
  | zero => exact fun hp => hp
  | succ fuel ih =>
    intro p hp
    rw [doubleUpTo]
    split
    · exact ih (Nat.mul_pos hp (by decide))
    · exact hp

theorem new_spec (capacity evictBatch : Nat) :
    Rep hash (new capacity evictBatch : Cache Op R) [] := by
  refine ⟨⟨rfl, rfl⟩, fun b hb => ⟨[], List.nodup_nil, ?_, fun t => ?_⟩, fun t => ?_,
    fun t e he => ?_, ?_, rfl, ?_⟩
  · exact getD_replicate_none ..
  · exact iff_of_false List.not_mem_nil fun hm => List.not_mem_nil hm.1
  · exact iff_of_false List.not_mem_nil Bool.false_ne_true
  · cases he
  · show (List.range _ ++ []).Perm _
    rw [List.append_nil]
    exact .refl _
  · show 0 < (List.replicate _ none).length
    rw [List.length_replicate]
    exact doubleUpTo_pos _ _ (by decide)

end Storage

/-! ## The memo the cache stands for -/

/-- The cache holds these operations and results, the least recently used first. -/
def Holds (hash : Op → Nat) (c : Cache Op R) (memo : List (Op × R)) : Prop :=
  ∃ order, Rep hash c order ∧ contentOf c.storage order = memo

end Cache

end LibHSC.Mem
