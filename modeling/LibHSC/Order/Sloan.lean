import LibHSC.Order.Bandwidth

/-!
Sloan's order: the vertices numbered from one end of each component, by a heap
of priorities whose stale entries are skipped. A vertex in the front has an entry
of its priority, and the neighbours of an active or numbered one are in the
front, so an empty heap has numbered whole components.
-/

namespace LibHSC.Order

open Worklist

inductive Status where
  | inactive
  | preactive
  | active
  | postactive
  deriving DecidableEq

structure Front where
  status : List Status
  prio : List Int
  heap : List (Int × Nat)
  out : List Nat

def Front.statusOf (st : Front) (v : Nat) : Status := st.status.getD v .inactive

def Front.prioOf (st : Front) (v : Nat) : Int := st.prio.getD v 0

/-- The order of `std::priority_queue` on pairs: its top is the greatest. -/
def before (a b : Int × Nat) : Bool := decide (b.1 < a.1) || (a.1 == b.1 && decide (b.2 ≤ a.2))

/-- The heap as its pairs in the order they are popped. -/
def pushHeap (x : Int × Nat) (heap : List (Int × Nat)) : List (Int × Nat) :=
  heap.orderedInsert (fun a b => before a b = true) x

def raise (st : Front) (v : Nat) (by_ : Int) : Front :=
  let p := st.prioOf v + by_
  { st with
    prio := st.prio.set v p
    heap := if st.statusOf v = .postactive then st.heap else pushHeap (p, v) st.heap }

/-- A neighbour enters the front, if it is not there. -/
def wake (w2 : Int) (st : Front) (w : Nat) : Front :=
  raise (if st.statusOf w = .inactive then { st with status := st.status.set w .preactive } else st)
    w w2

/-- A neighbour of the vertex numbered becomes active and wakes its own. -/
def activate (w2 : Int) (adj : Adjacency) (st : Front) (w : Nat) : Front :=
  if st.statusOf w ≠ .preactive then st
  else (row adj w).foldl (fun st x => if st.statusOf x = .postactive then st else wake w2 st x)
    (raise { st with status := st.status.set w .active } w w2)

/-- Number the vertex `v`. -/
def number (w2 : Int) (adj : Adjacency) (st : Front) (v : Nat) : Front :=
  let st := if st.statusOf v = .preactive then (row adj v).foldl (wake w2) st else st
  (row adj v).foldl (activate w2 adj)
    { st with status := st.status.set v .postactive, out := st.out ++ [v] }

/-- Stale entries are skipped. -/
def frontStep (w2 : Int) (adj : Adjacency) (st : Front) : Option Front :=
  match st.heap with
  | [] => none
  | (p, v) :: heap =>
    let st := { st with heap := heap }
    if st.statusOf v = .postactive ∨ p ≠ st.prioOf v then some st
    else some (number w2 adj st v)

/-- The priorities of a component, by the distances to its end. -/
def prioritize (w1 w2 : Int) (adj : Adjacency) (de : List Int) (prio : List Int) : List Int :=
  (List.range adj.length).foldl (fun prio v =>
      if 0 ≤ de.getD v (-1) then prio.set v (w1 * de.getD v (-1) - w2 * (degree adj v + 1))
      else prio) prio

def frontFrom (fuel : Nat) (w1 w2 : Int) (adj : Adjacency) (st : Front) (root : Nat) :
    Option Front :=
  match ends fuel adj root with
  | none => none
  | some (s, e) =>
    match distances fuel adj e with
    | none => none
    | some de =>
      let prio := prioritize w1 w2 adj de st.prio
      loop (frontStep w2 adj) fuel ⟨st.status.set s .preactive, prio, [(prio.getD s 0, s)], st.out⟩

def sloan (fuel : Nat) (n : Nat) (edges : List (Int × Int)) (w1 w2 : Int) : Option (List Nat) :=
  let adj := build n edges
  (sweep (fun st v => decide (st.statusOf v ≠ .inactive)) (frontFrom fuel w1 w2 adj)
    (List.range n) ⟨List.replicate n .inactive, List.replicate n 0, [], []⟩).map Front.out

/-! ## The front -/

/-- The vertices numbered are those listed, each once; the heap is of vertices
that are in the front or numbered. A vertex of the front has an entry, but for
`pending`; an active or numbered vertex has its neighbours in the front, but for
`partly`. -/
structure Front.Sound (adj : Adjacency) (pending partly : Nat → Prop) (st : Front) : Prop where
  status : st.status.length = adj.length
  prio : st.prio.length = adj.length
  nodup : st.out.Nodup
  listed : ∀ v, v ∈ st.out ↔ st.statusOf v = .postactive
  heap : ∀ x ∈ st.heap, st.statusOf x.2 ≠ .inactive
  entry : ∀ v, ¬pending v → st.statusOf v = .preactive ∨ st.statusOf v = .active →
    (st.prioOf v, v) ∈ st.heap
  next : ∀ v, ¬partly v → st.statusOf v = .active ∨ st.statusOf v = .postactive →
    ∀ w ∈ row adj v, st.statusOf w ≠ .inactive

theorem statusOf_set (st : Front) (w v : Nat) (x : Status) :
    Front.statusOf { st with status := st.status.set w x } v =
      if w = v ∧ w < st.status.length then x else st.statusOf v := by
  rw [Front.statusOf, Front.statusOf, List.getD_eq_getElem?_getD, List.getD_eq_getElem?_getD,
    List.getElem?_set]
  by_cases hv : w = v
  · subst hv
    by_cases hlt : w < st.status.length
    · simp [hlt]
    · simp [hlt]
  · simp [hv]

theorem mem_pushHeap {x y : Int × Nat} {heap : List (Int × Nat)} :
    y ∈ pushHeap x heap ↔ y = x ∨ y ∈ heap := by
  rw [pushHeap, List.mem_orderedInsert]

section Raise

variable {adj : Adjacency} {pending partly : Nat → Prop} {st : Front} {v : Nat} {b : Int}

theorem raise_status (u : Nat) : (raise st v b).statusOf u = st.statusOf u := rfl

theorem raise_prio (hv : v < st.prio.length) (u : Nat) :
    (raise st v b).prioOf u = if v = u then st.prioOf v + b else st.prioOf u := by
  show (st.prio.set v (st.prioOf v + b)).getD u 0 = _
  rw [List.getD_eq_getElem?_getD, List.getElem?_set, Front.prioOf, Front.prioOf,
    List.getD_eq_getElem?_getD, List.getD_eq_getElem?_getD]
  split
  · simp [hv]
  · rfl

theorem mem_raise_heap {x : Int × Nat} : x ∈ (raise st v b).heap ↔
    (st.statusOf v ≠ .postactive ∧ x = (st.prioOf v + b, v)) ∨ x ∈ st.heap := by
  unfold raise
  by_cases hp : st.statusOf v = .postactive
  · simp [hp]
  · simp [hp, mem_pushHeap]

theorem raise_heap_length (st : Front) (v : Nat) (b : Int) :
    (raise st v b).heap.length ≤ st.heap.length + 1 := by
  unfold raise
  dsimp only
  split
  · exact Nat.le_succ _
  · rw [pushHeap, List.orderedInsert_length]

/-- A raised vertex has an entry of its new priority. -/
theorem raise_sound (h : st.Sound adj (fun u => pending u ∨ u = v) partly) (hv : v < adj.length)
    (hin : st.statusOf v ≠ .inactive) : (raise st v b).Sound adj pending partly := by
  have hlen : v < st.prio.length := by rw [h.prio]; exact hv
  refine ⟨h.status, by show (st.prio.set v _).length = _; rw [List.length_set, h.prio], h.nodup,
    h.listed, fun x hx => ?_, fun u hu hfront => ?_, h.next⟩
  · rcases mem_raise_heap.mp hx with ⟨-, rfl⟩ | hx
    · exact hin
    · exact h.heap x hx
  · rw [raise_prio hlen, mem_raise_heap]
    rw [raise_status] at hfront
    split
    · next huv =>
      subst huv
      refine .inl ⟨fun hp => ?_, rfl⟩
      rw [hp] at hfront
      rcases hfront with hf | hf <;> cases hf
    · next huv => exact .inr (h.entry u (fun hor => hor.elim hu fun he => huv he.symm) hfront)

end Raise

/-! ## Waking -/

/-- Vertices enter the front, nothing else changes. -/
structure Grows (st st' : Front) : Prop where
  status : ∀ u, st'.statusOf u = st.statusOf u ∨
    (st.statusOf u = .inactive ∧ st'.statusOf u = .preactive)
  out : st'.out = st.out

theorem Grows.refl (st : Front) : Grows st st := ⟨fun _ => .inl rfl, rfl⟩

theorem Grows.trans {st st' st'' : Front} (h : Grows st st') (h' : Grows st' st'') :
    Grows st st'' := by
  refine ⟨fun u => ?_, h'.out.trans h.out⟩
  rcases h'.status u with h2 | ⟨h2, h3⟩
  · rw [h2]
    exact h.status u
  · rcases h.status u with h1 | ⟨-, h1⟩
    · exact .inr ⟨h1 ▸ h2, h3⟩
    · rw [h1] at h2
      cases h2

theorem Grows.ne_inactive {st st' : Front} (h : Grows st st') {u : Nat}
    (hu : st.statusOf u ≠ .inactive) : st'.statusOf u ≠ .inactive := by
  rcases h.status u with h1 | ⟨h1, -⟩
  · rwa [h1]
  · exact absurd h1 hu

/-- A status that is not inactive stays. -/
theorem Grows.same {st st' : Front} (h : Grows st st') {u : Nat}
    (hu : st.statusOf u ≠ .inactive) : st'.statusOf u = st.statusOf u := by
  rcases h.status u with h1 | ⟨h1, -⟩
  · exact h1
  · exact absurd h1 hu

/-- What a visit of `w` does. -/
structure Woken (adj : Adjacency) (pending partly : Nat → Prop) (w : Nat) (st st' : Front) :
    Prop where
  sound : st'.Sound adj pending partly
  inside : st'.statusOf w ≠ .inactive
  grows : Grows st st'
  heap : st'.heap.length ≤ st.heap.length + 1

section Wake

variable {adj : Adjacency} {pending partly : Nat → Prop} {st : Front} {w : Nat} {w2 : Int}

theorem Front.Sound.weaken (h : st.Sound adj pending partly) {pending' partly' : Nat → Prop}
    (hp : ∀ u, pending u → pending' u) (hq : ∀ u, partly u → partly' u) :
    st.Sound adj pending' partly' :=
  ⟨h.status, h.prio, h.nodup, h.listed, h.heap, fun u hu => h.entry u fun hpu => hu (hp u hpu),
    fun u hu => h.next u fun hqu => hu (hq u hqu)⟩

/-- `w` takes the status `x`. -/
def Front.become (st : Front) (w : Nat) (x : Status) : Front :=
  { st with status := st.status.set w x }

theorem Front.Sound.become_statusOf (h : st.Sound adj pending partly) (hw : w < adj.length)
    (x : Status) (u : Nat) : (st.become w x).statusOf u = if w = u then x else st.statusOf u := by
  have hlen : w < st.status.length := by rw [h.status]; exact hw
  rw [Front.become, statusOf_set]
  simp only [hlen, and_true]

theorem Front.Sound.become_ne_inactive (h : st.Sound adj pending partly) (hw : w < adj.length)
    {x : Status} (hx : x ≠ .inactive) {u : Nat} (hu : st.statusOf u ≠ .inactive) :
    (st.become w x).statusOf u ≠ .inactive := by
  rw [h.become_statusOf hw]
  split
  · exact hx
  · exact hu

/-- A vertex that is not numbered takes a status of the front; its entry and its
neighbours are to come. -/
theorem Front.Sound.become (h : st.Sound adj pending partly) (hw : w < adj.length) {x : Status}
    (hin : x ≠ .inactive) (hpost : x ≠ .postactive) (hold : st.statusOf w ≠ .postactive) :
    (st.become w x).Sound adj (fun u => pending u ∨ u = w) (fun u => partly u ∨ u = w) := by
  refine ⟨by rw [Front.become, List.length_set, h.status], h.prio, h.nodup, fun u => ?_,
    fun x hx => h.become_ne_inactive hw hin (h.heap x hx), fun u hu hfront => ?_,
    fun u hu hfront x hx => h.become_ne_inactive hw hin ?_⟩
  · rw [h.become_statusOf hw]
    split
    · next hu =>
      subst hu
      exact iff_of_false (fun hmem => hold ((h.listed w).mp hmem)) hpost
    · exact h.listed u
  · rw [h.become_statusOf hw, if_neg fun hwu => hu (.inr hwu.symm)] at hfront
    exact h.entry u (fun hpu => hu (.inl hpu)) hfront
  · rw [h.become_statusOf hw, if_neg fun hwu => hu (.inr hwu.symm)] at hfront
    exact h.next u (fun hqu => hu (.inl hqu)) hfront x hx

/-- An inactive vertex enters the front; its entry is to come. -/
theorem enter_sound (h : st.Sound adj pending partly) (hw : w < adj.length)
    (hin : st.statusOf w = .inactive) :
    (st.become w .preactive).Sound adj (fun u => pending u ∨ u = w) partly ∧
      Grows st (st.become w .preactive) := by
  have hset := h.become_statusOf hw .preactive
  have hsound := h.become hw (x := .preactive) (by decide) (by decide) (by rw [hin]; decide)
  refine ⟨⟨hsound.status, hsound.prio, hsound.nodup, hsound.listed, hsound.heap, hsound.entry,
    fun u hu hfront => hsound.next u (fun hor => hor.elim hu fun huw => ?_) hfront⟩,
    fun u => ?_, rfl⟩
  · -- preactive, it promises nothing of its neighbours
    rw [hset, if_pos huw.symm] at hfront
    rcases hfront with hf | hf <;> cases hf
  · rw [hset]
    split
    · next hu => exact .inr ⟨hu ▸ hin, rfl⟩
    · exact .inl rfl

theorem wake_woken (h : st.Sound adj pending partly) (hw : w < adj.length) :
    Woken adj pending partly w st (wake w2 st w) := by
  unfold wake
  split
  · next hin =>
    obtain ⟨h1, h2⟩ := enter_sound h hw hin
    have hset : (st.become w .preactive).statusOf w ≠ .inactive := by
      rw [h.become_statusOf hw, if_pos rfl]
      decide
    exact ⟨raise_sound h1 hw hset, hset, ⟨h2.status, h2.out⟩, raise_heap_length _ _ _⟩
  · next hin =>
    exact ⟨raise_sound (h.weaken (fun _ => .inl) fun _ hq => hq) hw hin, hin,
      ⟨fun _ => .inl rfl, rfl⟩, raise_heap_length _ _ _⟩

/-- The visits of a row wake it. -/
theorem woken_fold {f : Front → Nat → Front} {ws : List Nat}
    (hf : ∀ st, ∀ w ∈ ws, Front.Sound adj pending partly st →
      Woken adj pending partly w st (f st w)) :
    ∀ {st : Front}, st.Sound adj pending partly → (ws.foldl f st).Sound adj pending partly ∧
      (∀ w ∈ ws, (ws.foldl f st).statusOf w ≠ .inactive) ∧ Grows st (ws.foldl f st) ∧
      (ws.foldl f st).heap.length ≤ st.heap.length + ws.length := by
  induction ws with
  | nil => exact fun h => ⟨h, by simp, .refl _, Nat.le_refl _⟩
  | cons w ws ih =>
    intro st h
    have hw := hf st w List.mem_cons_self h
    obtain ⟨h1, h2, h3, h4⟩ :=
      ih (fun st x hx => hf st x (List.mem_cons_of_mem _ hx)) hw.sound
    refine ⟨h1, List.forall_mem_cons.mpr ⟨h3.ne_inactive hw.inside, h2⟩, hw.grows.trans h3, ?_⟩
    have := hw.heap
    rw [List.length_cons]
    rw [List.foldl_cons]
    omega

end Wake

/-! ## Numbering -/

/-- Every row is as long as `D` at most. -/
def RowsWithin (adj : Adjacency) (D : Nat) : Prop := ∀ v, (row adj v).length ≤ D

theorem exists_rowsWithin (adj : Adjacency) : ∃ D, RowsWithin adj D := by
  refine ⟨adj.flatten.length, fun v => ?_⟩
  rw [row, List.getD_eq_getElem?_getD]
  cases h : adj[v]? with
  | none => exact Nat.zero_le _
  | some a => exact (List.sublist_flatten_of_mem (List.mem_of_getElem? h)).length_le

section Number

variable {n : Nat} {adj : Adjacency} (hadj : Symmetric n adj) {D : Nat} (hD : RowsWithin adj D)
  {pending partly : Nat → Prop} {st : Front} (w2 : Int)

include hadj

theorem row_lt {v w : Nat} (hw : w ∈ row adj v) : w < adj.length := by
  rw [hadj.length]
  exact hadj.lt v w hw

include hD

/-- What numbering the neighbours of a vertex does with one of them. -/
theorem activate_spec {w : Nat} (h : st.Sound adj pending partly) (hw : w < adj.length) :
    (activate w2 adj st w).Sound adj pending partly ∧ (activate w2 adj st w).out = st.out ∧
      (∀ u, st.statusOf u ≠ .inactive → (activate w2 adj st w).statusOf u ≠ .inactive) ∧
      (activate w2 adj st w).heap.length ≤ st.heap.length + (1 + D) := by
  unfold activate
  split
  · exact ⟨h, rfl, fun _ hu => hu, Nat.le_add_right _ _⟩
  · next hpre =>
    have hpre : st.statusOf w = .preactive := not_not.mp hpre
    have hold : st.statusOf w ≠ .postactive := by
      rw [hpre]
      decide
    have hactive := h.become hw (x := .active) (by decide) (by decide) hold
    have hraised := raise_sound (b := w2) hactive hw (by
      rw [h.become_statusOf hw, if_pos rfl]
      decide)
    have hvisit : ∀ st, ∀ x ∈ row adj w, Front.Sound adj pending (fun u => partly u ∨ u = w) st →
        Woken adj pending (fun u => partly u ∨ u = w) x st
          (if st.statusOf x = .postactive then st else wake w2 st x) := by
      intro st x hx hst
      split
      · next hpost =>
        exact ⟨hst, (by rw [hpost]; decide), .refl _, Nat.le_succ _⟩
      · exact wake_woken hst (row_lt hadj hx)
    obtain ⟨h1, h2, h3, h4⟩ := woken_fold hvisit hraised
    refine ⟨⟨h1.status, h1.prio, h1.nodup, h1.listed, h1.heap, h1.entry, fun u hu hfront => ?_⟩,
      h3.out, fun u hu => h3.ne_inactive (h.become_ne_inactive hw (by decide) hu), ?_⟩
    · by_cases huw : u = w
      · subst huw
        exact h2
      · exact h1.next u (fun hor => hor.elim hu huw) hfront
    · have hlen1 := raise_heap_length (st.become w .active) w w2
      have hlen2 := hD w
      rw [show (st.become w .active).heap = st.heap from rfl] at hlen1
      dsimp only [Front.become] at h4 hlen1
      omega

theorem activate_fold : ∀ {ws : List Nat} {st : Front}, (∀ w ∈ ws, w < adj.length) →
    st.Sound adj pending partly →
    (ws.foldl (activate w2 adj) st).Sound adj pending partly ∧
      (ws.foldl (activate w2 adj) st).out = st.out ∧
      (∀ u, st.statusOf u ≠ .inactive → (ws.foldl (activate w2 adj) st).statusOf u ≠ .inactive) ∧
      (ws.foldl (activate w2 adj) st).heap.length ≤ st.heap.length + ws.length * (1 + D) := by
  intro ws
  induction ws with
  | nil => exact fun _ h => ⟨h, rfl, fun _ hu => hu, Nat.le_add_right _ _⟩
  | cons w ws ih =>
    intro st hws h
    obtain ⟨hw, hws⟩ := List.forall_mem_cons.mp hws
    obtain ⟨h1, h2, h3, h4⟩ := activate_spec hadj hD w2 h hw
    obtain ⟨h5, h6, h7, h8⟩ := ih hws h1
    refine ⟨h5, h6.trans h2, fun u hu => h7 u (h3 u hu), ?_⟩
    rw [List.length_cons, Nat.succ_mul]
    rw [List.foldl_cons]
    omega

/-- The pushes of numbering one vertex. -/
def pushes (D : Nat) : Nat := D + D * (1 + D)

/-- A vertex of the front is numbered. -/
theorem number_spec {v : Nat} (h : st.Sound adj (fun u => u = v) fun _ => False)
    (hv : v < adj.length) (hin : st.statusOf v ≠ .inactive) (hpost : st.statusOf v ≠ .postactive) :
    (number w2 adj st v).Sound adj (fun _ => False) (fun _ => False) ∧
      (number w2 adj st v).out = st.out ++ [v] ∧
      (∀ u, st.statusOf u ≠ .inactive → (number w2 adj st v).statusOf u ≠ .inactive) ∧
      (number w2 adj st v).heap.length ≤ st.heap.length + pushes D := by
  -- the neighbours enter the front, unless they are there
  obtain ⟨st₁, hst₁, h1, h2, h3, h4⟩ : ∃ st₁,
      (if st.statusOf v = .preactive then (row adj v).foldl (wake w2) st else st) = st₁ ∧
      st₁.Sound adj (fun u => u = v) (fun _ => False) ∧
      (∀ w ∈ row adj v, st₁.statusOf w ≠ .inactive) ∧ Grows st st₁ ∧
      st₁.heap.length ≤ st.heap.length + D := by
    split
    · have hvisit : ∀ st, ∀ w ∈ row adj v, Front.Sound adj (fun u => u = v) (fun _ => False) st →
          Woken adj (fun u => u = v) (fun _ => False) w st (wake w2 st w) :=
        fun st w hw hst => wake_woken hst (row_lt hadj hw)
      obtain ⟨h1, h2, h3, h4⟩ := woken_fold hvisit h
      exact ⟨_, rfl, h1, h2, h3, h4.trans (Nat.add_le_add_left (hD v) _)⟩
    · next hpre =>
      refine ⟨st, rfl, h, h.next v (fun hf => hf) (.inl ?_), .refl _, Nat.le_add_right _ _⟩
      cases hs : st.statusOf v with
      | inactive => exact absurd hs hin
      | preactive => exact absurd hs hpre
      | active => rfl
      | postactive => exact absurd hs hpost
  have hset : ∀ u, Front.statusOf { st₁ with
      status := st₁.status.set v .postactive, out := st₁.out ++ [v] } u =
      if v = u then .postactive else st₁.statusOf u := h1.become_statusOf hv .postactive
  have hkeep : ∀ u, st₁.statusOf u ≠ .inactive → Front.statusOf { st₁ with
      status := st₁.status.set v .postactive, out := st₁.out ++ [v] } u ≠ .inactive :=
    fun u => h1.become_ne_inactive hv (by decide)
  have hnew : v ∉ st₁.out := by
    rw [h1.listed, h3.same hin]
    exact hpost
  have hsound : Front.Sound adj (fun _ => False) (fun _ => False)
      { st₁ with status := st₁.status.set v .postactive, out := st₁.out ++ [v] } := by
    refine ⟨by rw [List.length_set, h1.status], h1.prio, ?_, fun u => ?_,
      fun x hx => hkeep _ (h1.heap x hx), fun u _ hfront => ?_, fun u _ hfront x hx => hkeep x ?_⟩
    · refine List.nodup_append.mpr ⟨h1.nodup, List.nodup_singleton _, fun a ha b hb hab => ?_⟩
      obtain rfl := List.mem_singleton.mp hb
      exact hnew (hab ▸ ha)
    · rw [hset, List.mem_append, List.mem_singleton]
      split
      · next hu => exact iff_of_true (.inr hu.symm) rfl
      · next hu =>
        rw [← h1.listed]
        exact or_iff_left fun he => hu he.symm
    · rw [hset] at hfront
      split at hfront
      · rcases hfront with hf | hf <;> cases hf
      · next hu => exact h1.entry u (fun he => hu he.symm) hfront
    · rw [hset] at hfront
      split at hfront
      · next hu => exact h2 x (hu ▸ hx)
      · exact h1.next u (fun hf => hf) hfront x hx
  obtain ⟨h5, h6, h7, h8⟩ := activate_fold hadj hD w2 (fun w hw => row_lt hadj hw) hsound
  unfold number
  rw [hst₁]
  refine ⟨h5, h6.trans (congrArg (· ++ [v]) h3.out),
    fun u hu => h7 u (hkeep u (h3.ne_inactive hu)), ?_⟩
  have hmul := Nat.mul_le_mul_right (1 + D) (hD v)
  dsimp only at h8
  unfold pushes
  dsimp only
  omega

omit hadj hD in
/-- What is listed are vertices. -/
theorem Front.Sound.out_lt (h : st.Sound adj pending partly) {v : Nat} (hv : v ∈ st.out) :
    v < adj.length := by
  have hpost := (h.listed v).mp hv
  by_contra hlt
  rw [Front.statusOf, List.getD_eq_getElem?_getD,
    List.getElem?_eq_none (by rw [h.status]; omega)] at hpost
  cases hpost

omit hadj hD in
theorem Front.Sound.out_length (h : st.Sound adj pending partly) :
    st.out.length ≤ adj.length := by
  have hsub : st.out ⊆ List.range adj.length := fun v hv => List.mem_range.mpr (h.out_lt hv)
  have hle := (List.subperm_of_subset h.nodup hsub).length_le
  rwa [List.length_range] at hle

/-- The pairs to come: those of the heap and those of the vertices not numbered. -/
def frontVariant (adj : Adjacency) (D : Nat) (st : Front) : Nat :=
  st.heap.length + (pushes D + 1) * (adj.length - st.out.length)

theorem frontStep_spec {base : Nat → Prop} {st' : Front}
    (h : st.Sound adj (fun _ => False) (fun _ => False))
    (hbase : ∀ v, base v → st.statusOf v ≠ .inactive) (hst : frontStep w2 adj st = some st') :
    (st'.Sound adj (fun _ => False) (fun _ => False) ∧ ∀ v, base v → st'.statusOf v ≠ .inactive) ∧
      frontVariant adj D st' < frontVariant adj D st := by
  unfold frontStep at hst
  split at hst
  · cases hst
  · next p v heap hheap =>
    dsimp only at hst
    have hmem : (p, v) ∈ st.heap := by rw [hheap]; exact List.mem_cons_self
    have hin : st.statusOf v ≠ .inactive := h.heap _ hmem
    split at hst
    · next hskip =>
      cases hst
      refine ⟨⟨⟨h.status, h.prio, h.nodup, h.listed,
        fun x hx => h.heap x (by rw [hheap]; exact List.mem_cons_of_mem _ hx),
        fun u hu hfront => ?_, h.next⟩, hbase⟩, ?_⟩
      · have hmem := h.entry u hu hfront
        rw [hheap] at hmem
        rcases List.mem_cons.mp hmem with he | hmem
        · obtain ⟨rfl, rfl⟩ := Prod.mk.inj he
          rcases hskip with hs | hs
          · have hfront' : st.statusOf u = .preactive ∨ st.statusOf u = .active := hfront
            have hs' : st.statusOf u = .postactive := hs
            rw [hs'] at hfront'
            rcases hfront' with hf | hf <;> cases hf
          · exact absurd rfl hs
        · exact hmem
      · simp only [frontVariant, hheap, List.length_cons]
        omega
    · next hlive =>
      cases hst
      obtain ⟨hpost, -⟩ := not_or.mp hlive
      have hv : v < adj.length := by
        by_contra hlt
        apply hin
        rw [Front.statusOf, List.getD_eq_getElem?_getD,
          List.getElem?_eq_none (by rw [h.status]; omega)]
        rfl
      have hrest : Front.Sound adj (fun u => u = v) (fun _ => False)
          { st with heap := heap } := by
        refine ⟨h.status, h.prio, h.nodup, h.listed,
          fun x hx => h.heap x (by rw [hheap]; exact List.mem_cons_of_mem _ hx),
          fun u hu hfront => ?_, h.next⟩
        have hmem := h.entry u (fun hf => hf) hfront
        rw [hheap] at hmem
        rcases List.mem_cons.mp hmem with he | hmem
        · exact absurd (Prod.mk.inj he).2 hu
        · exact hmem
      obtain ⟨h1, h2, h3, h4⟩ := number_spec hadj hD w2 hrest hv hin hpost
      refine ⟨⟨h1, fun u hu => h3 u (hbase u hu)⟩, ?_⟩
      have hout := h1.out_length
      rw [h2, List.length_append, List.length_singleton] at hout
      simp only [frontVariant, hheap, h2, List.length_append, List.length_cons, List.length_nil]
      dsimp only at h4 hout
      obtain ⟨k, hk⟩ := Nat.exists_eq_add_of_le hout
      rw [show adj.length - (st.out.length + (0 + 1)) = k by omega,
        show adj.length - st.out.length = k + 1 by omega, Nat.mul_succ]
      omega

end Number

/-! ## Every vertex once -/

section Components

variable {n : Nat} {adj : Adjacency} (hadj : Symmetric n adj) {D : Nat} (hD : RowsWithin adj D)
  (w1 w2 : Int) {st : Front}

theorem prioritize_length (de prio : List Int) :
    (prioritize w1 w2 adj de prio).length = prio.length := by
  refine List.foldlRecOn (motive := fun prio' : List Int => prio'.length = prio.length) _ _ rfl
    fun prio' h v _ => ?_
  split
  · rw [List.length_set, h]
  · exact h

/-- Between two components the heap is empty. -/
def Front.Rests (adj : Adjacency) (st : Front) : Prop :=
  st.Sound adj (fun _ => False) (fun _ => False) ∧ st.heap = []

/-- Then a vertex in the front is numbered. -/
theorem Front.Rests.mem_out (h : st.Rests adj) {v : Nat} (hv : st.statusOf v ≠ .inactive) :
    v ∈ st.out := by
  rw [h.1.listed]
  have hfront : ¬(st.statusOf v = .preactive ∨ st.statusOf v = .active) := by
    intro hfront
    have hmem := h.1.entry v (fun hf => hf) hfront
    rw [h.2] at hmem
    cases hmem
  cases hs : st.statusOf v with
  | inactive => exact absurd hs hv
  | preactive => exact absurd (.inl hs) hfront
  | active => exact absurd (.inr hs) hfront
  | postactive => rfl

theorem Front.Rests.mem_out_iff (h : st.Rests adj) {v : Nat} :
    v ∈ st.out ↔ st.statusOf v ≠ .inactive := by
  refine ⟨fun hv => ?_, h.mem_out⟩
  rw [(h.1.listed v).mp hv]
  exact fun he => by cases he

/-- The vertices numbered are whole components. -/
theorem Front.Rests.closed (h : st.Rests adj) : Closed (row adj) {v | v ∈ st.out} :=
  fun v hv w hw => h.mem_out (h.1.next v (fun hf => hf) (.inr ((h.1.listed v).mp hv)) w hw)

/-- The front of a component is one vertex. -/
theorem start_sound (h : st.Rests adj) {s : Nat} (hs : s < adj.length)
    (hin : st.statusOf s = .inactive) {prio : List Int} (hprio : prio.length = adj.length) :
    Front.Sound adj (fun _ => False) (fun _ => False)
      ⟨st.status.set s .preactive, prio, [(prio.getD s 0, s)], st.out⟩ ∧
    ∀ v, v = s ∨ st.statusOf v ≠ .inactive → Front.statusOf
      ⟨st.status.set s .preactive, prio, [(prio.getD s 0, s)], st.out⟩ v ≠ .inactive := by
  obtain ⟨h1, h2⟩ := enter_sound h.1 hs hin
  have hself : (st.become s .preactive).statusOf s ≠ .inactive := by
    rw [h.1.become_statusOf hs, if_pos rfl]
    decide
  refine ⟨⟨h1.status, hprio, h1.nodup, h1.listed, fun x hx => ?_, fun v _ hfront => ?_, h1.next⟩,
    fun v hv => ?_⟩
  · rw [List.mem_singleton.mp hx]
    exact hself
  · -- whoever else was in the front had an entry of the empty heap
    by_cases hvs : v = s
    · subst hvs
      exact List.mem_singleton_self _
    · have hmem := h1.entry v (fun hor => hor.elim (fun hf => hf) hvs) hfront
      rw [show (st.become s .preactive).heap = [] from h.2] at hmem
      cases hmem
  · rcases hv with rfl | hv
    · exact hself
    · exact h2.ne_inactive hv

include hadj hD

/-- A component is numbered from an inactive vertex of it. -/
theorem frontFrom_spec {fuel : Nat} (hfuel : 1 + (pushes D + 1) * n < fuel) {root : Nat}
    (hroot : root < n) (h : st.Rests adj) (hnew : st.statusOf root = .inactive) :
    ∃ st', frontFrom fuel w1 w2 adj st root = some st' ∧ st'.Rests adj ∧
      st'.statusOf root ≠ .inactive ∧
      ∀ v, st.statusOf v ≠ .inactive → st'.statusOf v ≠ .inactive := by
  have hwalk : n + 1 < fuel := by
    have hle : n ≤ (pushes D + 1) * n := Nat.le_mul_of_pos_left n (Nat.succ_pos _)
    omega
  obtain ⟨⟨s, e⟩, hends, hreach, hreach'⟩ := ends_spec hadj hroot hwalk
  obtain ⟨de, hde, -, -, -⟩ := distances_spec hadj (lt_of_reach hadj hroot hreach') hwalk
  -- the start is in the component of an inactive vertex
  have hs : st.statusOf s = .inactive := by
    have hout := h.closed.fresh hadj.symm (fun hr => h.mem_out_iff.mp hr hnew) hreach
    exact not_not.mp fun hne => hout (h.mem_out hne)
  have hslen : s < adj.length := by
    rw [hadj.length]
    exact lt_of_reach hadj hroot hreach
  have hprio : (prioritize w1 w2 adj de st.prio).length = adj.length := by
    rw [prioritize_length, h.1.prio]
  obtain ⟨hstart, hbase⟩ := start_sound h hslen hs hprio
  have hvariant : frontVariant adj D ⟨st.status.set s .preactive, prioritize w1 w2 adj de st.prio,
        [((prioritize w1 w2 adj de st.prio).getD s 0, s)], st.out⟩ < fuel := by
    have hle := Nat.mul_le_mul_left (pushes D + 1) (Nat.sub_le adj.length st.out.length)
    rw [hadj.length] at hle
    simp only [frontVariant, List.length_singleton, hadj.length]
    omega
  obtain ⟨st', h1, ⟨h2, h3⟩, h4⟩ := loop_spec
    (fun st' : Front => st'.Sound adj (fun _ => False) (fun _ => False) ∧
      ∀ v, v = s ∨ st.statusOf v ≠ .inactive → st'.statusOf v ≠ .inactive) (frontVariant adj D)
    (fun _ _ hinv hst => frontStep_spec hadj hD w2 hinv.1 hinv.2 hst) ⟨hstart, hbase⟩ hvariant
  have hheap : st'.heap = [] := by
    unfold frontStep at h4
    split at h4
    · next hq => exact hq
    · dsimp only at h4
      split at h4 <;> cases h4
  have hrests : st'.Rests adj := ⟨h2, hheap⟩
  have hs' : s ∈ st'.out := hrests.mem_out (h3 s (.inl rfl))
  refine ⟨st', ?_, hrests, ?_, fun v hv => h3 v (.inr hv)⟩
  · rw [frontFrom]
    simp only [hends, hde]
    exact h1
  · exact hrests.mem_out_iff.mp (hrests.closed.reach hs' (hreach.symm hadj.symm))

end Components

/-- With the fuel of its pushes, Sloan's order returns, with every vertex once. -/
theorem sloan_perm (n : Nat) (edges : List (Int × Int)) (w1 w2 : Int) :
    ∃ N, ∀ fuel, N ≤ fuel →
      ∃ out, sloan fuel n edges w1 w2 = some out ∧ out.Perm (List.range n) := by
  have hadj := build_symmetric n edges
  obtain ⟨D, hD⟩ := exists_rowsWithin (build n edges)
  refine ⟨2 + (pushes D + 1) * n, fun fuel hfuel => ?_⟩
  have hget : ∀ v, Front.statusOf ⟨List.replicate n .inactive, List.replicate n 0, [], []⟩ v =
      .inactive := by
    intro v
    rw [Front.statusOf, List.getD_eq_getElem?_getD, List.getElem?_replicate]
    split <;> rfl
  have hstart : Front.Rests (build n edges)
      ⟨List.replicate n .inactive, List.replicate n 0, [], []⟩ := by
    refine ⟨⟨by rw [List.length_replicate, hadj.length], by rw [List.length_replicate, hadj.length],
      List.nodup_nil, fun v => ?_, by simp, fun v _ hfront => ?_, fun v _ hfront => ?_⟩, rfl⟩
    · rw [hget]
      exact iff_of_false (by simp) fun he => by cases he
    · rw [hget] at hfront
      rcases hfront with hf | hf <;> cases hf
    · rw [hget] at hfront
      rcases hfront with hf | hf <;> cases hf
  obtain ⟨st, h1, h2, h3, -⟩ := sweep_spec
    (fun (st : Front) v => decide (st.statusOf v ≠ .inactive))
    (U := (· < n))
    (fun st v hv hrest hnew => by
      obtain ⟨st', h1, h2, h3, h4⟩ := frontFrom_spec hadj hD w1 w2
        (show 1 + (pushes D + 1) * n < fuel by omega) hv hrest
        (not_not.mp (of_decide_eq_false hnew))
      exact ⟨st', h1, h2, decide_eq_true h3,
        fun w hw => decide_eq_true (h4 w (of_decide_eq_true hw))⟩)
    (fun v hv => List.mem_range.mp hv) hstart
  refine ⟨st.out, by rw [sloan, h1]; rfl, perm_range h2.1.nodup (fun v hv => ?_) fun v hv => ?_⟩
  · rw [← hadj.length]
    exact h2.1.out_lt hv
  · exact h2.mem_out (of_decide_eq_true (h3 v (List.mem_range.mpr hv)))

end LibHSC.Order
