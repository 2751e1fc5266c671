import LibHSC.Mem.CacheRep

/-!
The memo a cache stands for, without links or slots: a list of operations and
results, least recently used first. Both halves of a request are read as steps of
the memo, and neither of them follows a null link.
-/

namespace LibHSC.Mem

namespace Memo

variable {Op R : Type} [DecidableEq Op]

def find (memo : List (Op × R)) (op : Op) : Option R :=
  (memo.find? fun x => decide (x.1 = op)).map Prod.snd

/-- The operation moves to the end. -/
def touch (memo : List (Op × R)) (op : Op) : List (Op × R) :=
  memo.filter (fun x => !decide (x.1 = op)) ++ memo.filter fun x => decide (x.1 = op)

/-- A full memo makes room at the front. -/
def insert (memo : List (Op × R)) (capacity evictBatch : Nat) (op : Op) (r : R) : List (Op × R) :=
  (if memo.length = capacity then memo.drop (min evictBatch memo.length) else memo) ++ [(op, r)]

/-- The second half of a request. -/
def leave (memo : List (Op × R)) (capacity evictBatch : Nat) (cacheResults : Bool) (op : Op)
    (r : R) : R × List (Op × R) :=
  match find memo op with
  | some raced => (raced, touch memo op)
  | none => if cacheResults then (r, insert memo capacity evictBatch op r) else (r, memo)

/-- No operation is held twice. -/
def Distinct (memo : List (Op × R)) : Prop := (memo.map Prod.fst).Nodup

section Facts

variable {memo A B : List (Op × R)} {op : Op} {r : R}

theorem find_eq_some (h : Distinct memo) : find memo op = some r ↔ (op, r) ∈ memo := by
  unfold find
  rw [Option.map_eq_some_iff]
  constructor
  · rintro ⟨⟨op', r'⟩, hx, rfl⟩
    have hop := List.find?_some hx
    obtain rfl : op' = op := of_decide_eq_true hop
    exact List.mem_of_find?_eq_some hx
  · intro hm
    cases hx : memo.find? (fun x => decide (x.1 = op)) with
    | none =>
      have := List.find?_eq_none.mp hx _ hm
      exact absurd (decide_eq_true rfl) this
    | some x =>
      refine ⟨x, rfl, ?_⟩
      have heq : x = (op, r) := by
        have hdec := List.find?_some hx
        have hop : x.1 = op := of_decide_eq_true hdec
        exact List.inj_on_of_nodup_map h (List.mem_of_find?_eq_some hx) hm hop
      rw [heq]

theorem find_eq_none : find memo op = none ↔ op ∉ memo.map Prod.fst := by
  unfold find
  rw [Option.map_eq_none_iff, List.find?_eq_none]
  constructor
  · intro h hm
    obtain ⟨x, hx, rfl⟩ := List.mem_map.mp hm
    exact h x hx (decide_eq_true rfl)
  · intro h x hx heq
    exact h (List.mem_map.mpr ⟨x, hx, of_decide_eq_true heq⟩)

theorem touch_perm (memo : List (Op × R)) (op : Op) : (touch memo op).Perm memo := by
  refine List.perm_append_comm.trans ?_
  exact List.filter_append_perm (fun x => decide (x.1 = op)) memo

theorem touch_append (h : Distinct (A ++ (op, r) :: B)) :
    touch (A ++ (op, r) :: B) op = A ++ B ++ [(op, r)] := by
  unfold Distinct at h
  rw [List.map_append, List.map_cons] at h
  obtain ⟨-, hB, hAB⟩ := List.nodup_append.mp h
  have hA' : ∀ x ∈ A, x.1 ≠ op := fun x hx =>
    hAB _ (List.mem_map_of_mem hx) _ List.mem_cons_self
  have hB' : ∀ x ∈ B, x.1 ≠ op := fun x hx heq =>
    (List.nodup_cons.mp hB).1 (List.mem_map.mpr ⟨x, hx, heq⟩)
  have hdrop : ∀ L : List (Op × R), (∀ x ∈ L, x.1 ≠ op) →
      L.filter (fun x => !decide (x.1 = op)) = L ∧ L.filter (fun x => decide (x.1 = op)) = [] := by
    intro L hL
    refine ⟨List.filter_eq_self.mpr fun x hx => ?_, List.filter_eq_nil_iff.mpr fun x hx => ?_⟩
    · simp [hL x hx]
    · simp [hL x hx]
  unfold touch
  rw [List.filter_append, List.filter_append, (hdrop A hA').1, (hdrop A hA').2, List.nil_append,
    List.filter_cons_of_neg (by simp), List.filter_cons_of_pos (by simp), (hdrop B hB').1,
    (hdrop B hB').2]

theorem distinct_touch (h : Distinct memo) : Distinct (touch memo op) :=
  ((touch_perm memo op).map Prod.fst).nodup_iff.mpr h

omit [DecidableEq Op] in
theorem insert_sublist (memo : List (Op × R)) (capacity evictBatch : Nat) (op : Op) (r : R) :
    (insert memo capacity evictBatch op r).Sublist (memo ++ [(op, r)]) := by
  unfold insert
  refine List.Sublist.append_right ?_ _
  split
  · exact List.drop_sublist ..
  · exact .refl _

omit [DecidableEq Op] in
theorem distinct_insert (h : Distinct memo) (hop : op ∉ memo.map Prod.fst)
    (capacity evictBatch : Nat) : Distinct (insert memo capacity evictBatch op r) := by
  refine List.Nodup.sublist ((insert_sublist memo capacity evictBatch op r).map Prod.fst) ?_
  rw [List.map_append]
  refine List.nodup_append.mpr ⟨h, List.nodup_singleton _, fun a ha b hb => ?_⟩
  obtain rfl := List.mem_singleton.mp hb
  rintro rfl
  exact hop ha

theorem distinct_leave (h : Distinct memo) (capacity evictBatch : Nat) (cacheResults : Bool) :
    Distinct (leave memo capacity evictBatch cacheResults op r).2 := by
  unfold leave
  split
  · exact distinct_touch h
  · next hnone =>
    split
    · exact distinct_insert h (find_eq_none.mp hnone) ..
    · exact h

/-- What a request leaves behind was there before, or is its own result. -/
theorem mem_leave {capacity evictBatch : Nat} {cacheResults : Bool} {x : Op × R}
    (h : x ∈ (leave memo capacity evictBatch cacheResults op r).2) : x ∈ memo ∨ x = (op, r) := by
  unfold leave at h
  split at h
  · exact .inl ((touch_perm memo op).subset h)
  · split at h
    · have := (insert_sublist memo capacity evictBatch op r).subset h
      rwa [List.mem_append, List.mem_singleton] at this
    · exact .inl h

/-- A request answers from the memo, or with the value of the evaluation. -/
theorem leave_result {capacity evictBatch : Nat} {cacheResults : Bool} (h : Distinct memo) :
    (op, (leave memo capacity evictBatch cacheResults op r).1) ∈ memo ∨
      (leave memo capacity evictBatch cacheResults op r).1 = r := by
  unfold leave
  split
  · next raced hraced => exact .inl ((find_eq_some h).mp hraced)
  · split <;> exact .inr rfl

end Facts

end Memo

/-! ## The cache does what the memo does -/

namespace Cache

variable {Op R : Type} {hash : Op → Nat} {c : Cache Op R} {memo : List (Op × R)}

/-- What no request changes. -/
structure Kept (c c' : Cache Op R) : Prop where
  capacity : c'.capacity = c.capacity
  evictBatch : c'.evictBatch = c.evictBatch
  filter : c'.filter = c.filter

theorem length_contentOf {storage : Slots Op R} {order : List Nat}
    (h : ∀ s ∈ order, (storage s).isSome) : (contentOf storage order).length = order.length := by
  induction order with
  | nil => rfl
  | cons s order ih =>
    obtain ⟨e, he⟩ := Option.isSome_iff_exists.mp (h s List.mem_cons_self)
    have hcons := contentOf_append storage [s] order
    rw [contentOf_singleton he, List.singleton_append, List.singleton_append] at hcons
    rw [hcons, List.length_cons, List.length_cons, ih fun t ht => h t (List.mem_cons_of_mem _ ht)]

theorem Rep.length_content {order : List Nat} (h : Rep hash c order) :
    (contentOf c.storage order).length = order.length :=
  length_contentOf fun s hs => (h.live s).mp hs

theorem Holds.size_eq (h : Holds hash c memo) : c.size = memo.length := by
  obtain ⟨order, hrep, rfl⟩ := h
  rw [hrep.length_content, hrep.size_eq]

theorem Holds.length_le (h : Holds hash c memo) : memo.length ≤ c.capacity := by
  obtain ⟨order, hrep, rfl⟩ := h
  have := hrep.length_add
  rw [hrep.length_content]
  omega

theorem Holds.free_eq_nil (h : Holds hash c memo) : c.free = [] ↔ memo.length = c.capacity := by
  obtain ⟨order, hrep, rfl⟩ := h
  have := hrep.length_add
  rw [hrep.length_content, ← List.length_eq_zero_iff]
  omega

variable [DecidableEq Op] {op : Op}

/-- An operation of the memo is found and touched. -/
theorem find_touch_holds (h : Holds hash c memo) (hd : Memo.Distinct memo) {r : R}
    (hop : Memo.find memo op = some r) : ∃ s c', c.find (hash op) op = some (s, r) ∧
      c.touch s = some c' ∧ Holds hash c' (Memo.touch memo op) ∧ Kept c c' := by
  obtain ⟨order, hrep, rfl⟩ := h
  have hmem := (Memo.find_eq_some hd).mp hop
  rcases find_spec hrep op with ⟨s, hs, e, he, rfl, heq⟩ | ⟨-, hnone⟩
  · obtain ⟨l₁, l₂, rfl⟩ := List.append_of_mem hs
    obtain ⟨c', htouch, hrep', hsame⟩ := touch_spec hrep
    have hcon : contentOf c.storage (l₁ ++ s :: l₂) =
        contentOf c.storage l₁ ++ (e.operation, e.result) :: contentOf c.storage l₂ := by
      rw [contentOf_append, ← List.singleton_append, contentOf_append, contentOf_singleton he,
        List.singleton_append]
    have hr : e.result = r := by
      have hself : (e.operation, e.result) ∈ contentOf c.storage (l₁ ++ s :: l₂) := by
        rw [hcon]
        exact List.mem_append_right _ List.mem_cons_self
      exact congrArg Prod.snd (List.inj_on_of_nodup_map hd hself hmem rfl)
    refine ⟨s, c', by rw [heq, hr], htouch, ⟨_, hrep', ?_⟩, hsame.capacity, hsame.evictBatch,
      hsame.filter⟩
    rw [hcon] at hd ⊢
    rw [Memo.touch_append hd, contentOf_congr fun t _ => congrFun hsame.data t, contentOf_append,
      contentOf_append, contentOf_singleton he]
  · obtain ⟨s, hs, e, he, hop', -⟩ := mem_contentOf.mp hmem
    exact absurd hop' (hnone s hs e he)

/-- An operation the memo lacks is not found. -/
theorem find_holds_none (h : Holds hash c memo) (hop : Memo.find memo op = none) :
    c.find (hash op) op = none := by
  obtain ⟨order, hrep, rfl⟩ := h
  rcases find_spec hrep op with ⟨s, hs, e, he, rfl, -⟩ | ⟨heq, -⟩
  · refine absurd ?_ (Memo.find_eq_none.mp hop)
    exact List.mem_map.mpr ⟨_, mem_contentOf.mpr ⟨s, hs, e, he, rfl, rfl⟩, rfl⟩
  · exact heq

omit [DecidableEq Op] in
theorem evict_holds (h : Holds hash c memo) : ∃ c', c.evict = some c' ∧
    Holds hash c' (memo.drop (min c.evictBatch memo.length)) ∧ Kept c c' := by
  have hsize := h.size_eq
  obtain ⟨order, hrep, rfl⟩ := h
  have hle : min c.evictBatch c.size ≤ order.length := by
    rw [hrep.size_eq]
    exact Nat.min_le_right ..
  obtain ⟨c', heq, hrep', hdata, hcap, hbatch, hfilter⟩ := evictTimes_spec hrep hle
  refine ⟨c', heq, ⟨_, hrep', ?_⟩, hcap, hbatch, hfilter⟩
  rw [contentOf_congr hdata, ← hsize]
  have hsplit := contentOf_append c.storage (order.take (min c.evictBatch c.size))
    (order.drop (min c.evictBatch c.size))
  rw [List.take_append_drop] at hsplit
  have hlen : (contentOf c.storage (order.take (min c.evictBatch c.size))).length =
      min c.evictBatch c.size := by
    rw [length_contentOf fun s hs => (hrep.live s).mp (List.mem_of_mem_take hs), List.length_take]
    omega
  rw [hsplit, List.drop_left' hlen]

/-- The first half of a request. -/
theorem enter_holds (h : Holds hash c memo) (hd : Memo.Distinct memo) (cacheable : Op → Bool)
    (op : Op) :
    ∃ entered c', c.enter cacheable hash op = some (entered, c') ∧ Kept c c' ∧
      ((entered = .filtered ∧ (cacheable op && c.filter op) = false ∧ Holds hash c' memo) ∨
        ((cacheable op && c.filter op) = true ∧
          ((∃ r, entered = .hit r ∧ Memo.find memo op = some r ∧
              Holds hash c' (Memo.touch memo op)) ∨
            (entered = .miss ∧ Memo.find memo op = none ∧ Holds hash c' memo)))) := by
  unfold enter
  cases hadm : (cacheable op && c.filter op) with
  | false => exact ⟨_, _, rfl, ⟨rfl, rfl, rfl⟩, .inl ⟨rfl, rfl, h⟩⟩
  | true =>
    rw [if_neg (fun hn => hn rfl)]
    cases hop : Memo.find memo op with
    | some r =>
      obtain ⟨s, c', hfind, htouch, hh, hkept⟩ := find_touch_holds h hd hop
      refine ⟨.hit r, c', ?_, hkept, .inr ⟨rfl, .inl ⟨r, rfl, rfl, hh⟩⟩⟩
      rw [hfind]
      dsimp only
      rw [htouch]
      rfl
    | none =>
      refine ⟨.miss, c, ?_, ⟨rfl, rfl, rfl⟩, .inr ⟨rfl, .inr ⟨rfl, rfl, h⟩⟩⟩
      rw [find_holds_none h hop]

/-- The second half of a request. -/
theorem leave_holds (h : Holds hash c memo) (hd : Memo.Distinct memo) (hcap : 0 < c.capacity)
    (hbatch : 0 < c.evictBatch) (cacheResults : Bool) (op : Op) (r : R) :
    ∃ c', c.leave cacheResults hash op r =
        some ((Memo.leave memo c.capacity c.evictBatch cacheResults op r).1, c') ∧
      Holds hash c' (Memo.leave memo c.capacity c.evictBatch cacheResults op r).2 ∧ Kept c c' := by
  unfold leave Memo.leave
  cases hop : Memo.find memo op with
  | some raced =>
    obtain ⟨s, c', hfind, htouch, hh, hkept⟩ := find_touch_holds h hd hop
    refine ⟨c', ?_, hh, hkept⟩
    rw [hfind]
    dsimp only
    rw [htouch]
    rfl
  | none =>
    rw [find_holds_none h hop]
    cases cacheResults with
    | false => exact ⟨c, rfl, h, rfl, rfl, rfl⟩
    | true =>
      dsimp only
      rw [if_neg (fun hn => hn rfl), if_pos rfl]
      -- a full cache makes room first
      have hroom : ∃ c₁, c.makeRoom = some c₁ ∧ Holds hash c₁ (if memo.length = c.capacity then
            memo.drop (min c.evictBatch memo.length) else memo) ∧ Kept c c₁ := by
        unfold makeRoom
        by_cases hfull : c.free = []
        · rw [if_pos hfull, if_pos (h.free_eq_nil.mp hfull)]
          exact evict_holds h
        · rw [if_neg hfull, if_neg fun hl => hfull (h.free_eq_nil.mpr hl)]
          exact ⟨c, rfl, h, rfl, rfl, rfl⟩
      obtain ⟨c₁, heq₁, hh₁, hkept₁⟩ := hroom
      have hfree : c₁.free ≠ [] := by
        intro hn
        have hlen := hh₁.free_eq_nil.mp hn
        have hle := h.length_le
        rw [hkept₁.capacity] at hlen
        split at hlen
        · rw [List.length_drop] at hlen
          omega
        · contradiction
      obtain ⟨order, hrep, hcon⟩ := hh₁
      obtain ⟨c', s, e, heq, hrep', hdata, hback, he, hop', hr, hcap', hbatch', hfilter'⟩ :=
        insert_spec hrep op r hfree
      refine ⟨c', ?_, ⟨_, hrep', ?_⟩, hcap'.trans hkept₁.capacity,
        hbatch'.trans hkept₁.evictBatch, hfilter'.trans hkept₁.filter⟩
      · simp only [heq₁, heq, hback, he, hr, Option.bind_eq_bind, Option.bind_some]
        rfl
      · rw [contentOf_append, contentOf_singleton he, contentOf_congr hdata, hcon, hop', hr]
        rfl

end Cache

end LibHSC.Mem
