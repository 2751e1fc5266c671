import LibHSC.Library.Worklist
import Mathlib.Data.List.Sort
import Mathlib.Data.List.Dedup

/-!
Bandwidth-reducing orders of a dependency graph: the graph, the pseudo-peripheral
pair of a component, and reverse Cuthill–McKee. Each component is walked from a
vertex of it, so a walk never meets a vertex of an earlier one, and the listing
has every vertex once.

`none` is a loop that is out of fuel.
-/

namespace LibHSC.Order

open Worklist

/-! ## The graph -/

abbrev Adjacency := List (List Nat)

def row (adj : Adjacency) (v : Nat) : List Nat := adj.getD v []

def degree (adj : Adjacency) (v : Nat) : Nat := (row adj v).length

/-- `std::ranges::sort` and `std::unique`. -/
def sortUnique (a : List Nat) : List Nat := a.dedup.insertionSort (· ≤ ·)

/-- One edge, unless it is a loop or leaves the vertices. -/
def pushEdge (n : Nat) (adj : Adjacency) (e : Int × Int) : Adjacency :=
  if e.1 = e.2 ∨ e.1 < 0 ∨ e.2 < 0 ∨ n ≤ e.1 ∨ n ≤ e.2 then adj
  else (adj.modify e.1.toNat (· ++ [e.2.toNat])).modify e.2.toNat (· ++ [e.1.toNat])

def build (n : Nat) (edges : List (Int × Int)) : Adjacency :=
  (edges.foldl (pushEdge n) (List.replicate n [])).map sortUnique

/-! ## Distances -/

structure Levels where
  d : List Int
  queue : List Nat

/-- A neighbour of `v`. -/
def discover (v : Nat) (st : Levels) (w : Nat) : Levels :=
  if st.d.getD w (-1) < 0 then ⟨st.d.set w (st.d.getD v (-1) + 1), st.queue ++ [w]⟩ else st

def distanceStep (adj : Adjacency) (st : Levels) : Option Levels :=
  match st.queue with
  | [] => none
  | v :: q => some ((row adj v).foldl (discover v) ⟨st.d, q⟩)

/-- Breadth-first distances from `s` inside the component; -1 elsewhere. -/
def distances (fuel : Nat) (adj : Adjacency) (s : Nat) : Option (List Int) :=
  (loop (distanceStep adj) fuel ⟨(List.replicate adj.length (-1)).set s 0, [s]⟩).map Levels.d

/-- `std::ranges::max_element`. -/
def maxElement (d : List Int) : Int := d.foldl max (d.headD 0)

/-- `numeric_limits<size_t>::max()`. -/
def sizeMax : Nat := 18446744073709551615

/-- A vertex of least degree at distance `ecc`, or `s`. -/
def farthest (adj : Adjacency) (d : List Int) (ecc : Int) (s : Nat) : Nat :=
  ((List.range adj.length).foldl
    (fun st v => if d.getD v (-1) = ecc ∧ degree adj v < st.2 then (v, degree adj v) else st)
    (s, sizeMax)).1

/-- The rounds of `peripheral`, from `s` with its distances and eccentricity. -/
def peripheralRounds (fuel : Nat) (adj : Adjacency) :
    Nat → Nat → List Int → Int → Option (Nat × Nat)
  | 0, s, _, _ => some (s, s)
  | round + 1, s, d, ecc =>
    let e := farthest adj d ecc s
    match distances fuel adj e with
    | none => none
    | some de =>
      if maxElement de ≤ ecc then some (s, e)
      else peripheralRounds fuel adj round e de (maxElement de)

/-- A pseudo-peripheral pair of the component of `start`. -/
def peripheral (fuel : Nat) (adj : Adjacency) (start : Nat) : Option (Nat × Nat) :=
  match distances fuel adj start with
  | none => none
  | some d => peripheralRounds fuel adj 8 start d (maxElement d)

/-- A vertex of least degree in the component of `root`. -/
def seedOf (adj : Adjacency) (dr : List Int) (root : Nat) : Nat :=
  (List.range adj.length).foldl
    (fun seed v => if 0 ≤ dr.getD v (-1) ∧ degree adj v < degree adj seed then v else seed) root

/-- The pair a walk of the component of `root` starts from. -/
def ends (fuel : Nat) (adj : Adjacency) (root : Nat) : Option (Nat × Nat) :=
  match distances fuel adj root with
  | none => none
  | some dr => peripheral fuel adj (seedOf adj dr root)

/-! ## Reverse Cuthill–McKee -/

/-- `std::ranges::sort` by a key; how equal keys end up is not said. -/
structure Sorter where
  sort : (Nat → Nat) → List Nat → List Nat
  perm : ∀ key l, (sort key l).Perm l
  sorted : ∀ key l, (sort key l).Pairwise fun a b => key a ≤ key b

/-- The stable one is one of them. -/
instance : Inhabited Sorter where
  default :=
    { sort := fun key l => l.mergeSort fun a b => decide (key a ≤ key b)
      perm := fun key l => List.mergeSort_perm l _
      sorted := fun key l => by
        have htrans : ∀ a b c : Nat, decide (key a ≤ key b) = true →
            decide (key b ≤ key c) = true → decide (key a ≤ key c) = true := by
          intro a b c hab hbc
          simp only [decide_eq_true_eq] at *
          omega
        have htotal : ∀ a b : Nat, (decide (key a ≤ key b) || decide (key b ≤ key a)) = true := by
          intro a b
          simp only [Bool.or_eq_true, decide_eq_true_eq]
          omega
        exact (List.pairwise_mergeSort htrans htotal l).imp fun h => of_decide_eq_true h }

structure Walk where
  seen : List Bool
  queue : List Nat
  out : List Nat

/-- A neighbour of the vertex in turn: the marks, and what it adds to the queue. -/
def mark (st : List Bool × List Nat) (w : Nat) : List Bool × List Nat :=
  if st.1.getD w false then st else (st.1.set w true, st.2 ++ [w])

def walkStep (S : Sorter) (adj : Adjacency) (st : Walk) : Option Walk :=
  match st.queue with
  | [] => none
  | v :: q =>
    let r := (row adj v).foldl mark (st.seen, [])
    some ⟨r.1, q ++ S.sort (degree adj) r.2, st.out ++ [v]⟩

/-- The walk of one component. -/
def walkFrom (S : Sorter) (fuel : Nat) (adj : Adjacency) (st : Walk) (root : Nat) :
    Option Walk :=
  match ends fuel adj root with
  | none => none
  | some (s, _) => loop (walkStep S adj) fuel ⟨st.seen.set s true, [s], st.out⟩

def rcm (S : Sorter) (fuel : Nat) (n : Nat) (edges : List (Int × Int)) : Option (List Nat) :=
  let adj := build n edges
  (sweep (fun st v => st.seen.getD v false) (walkFrom S fuel adj) (List.range n)
    ⟨List.replicate n false, [], []⟩).map fun st => st.out.reverse

/-- The places of the flat unit of a net, in the order of a listing. -/
def ordered (pnames : List String) (listing : List Nat) : List String := relist pnames listing

/-! ## The rows -/

/-- Rows of vertices below `n`, in both directions. -/
structure Symmetric (n : Nat) (adj : Adjacency) : Prop where
  length : adj.length = n
  lt : ∀ v w, w ∈ row adj v → w < n
  symm : ∀ v w, w ∈ row adj v → v ∈ row adj w

theorem mem_sortUnique {a : List Nat} {x : Nat} : x ∈ sortUnique a ↔ x ∈ a := by
  rw [sortUnique, (List.perm_insertionSort _ _).mem_iff, List.mem_dedup]

theorem row_map_sortUnique (adj : Adjacency) (v : Nat) :
    row (adj.map sortUnique) v = sortUnique (row adj v) := by
  rw [row, row, List.getD_eq_getElem?_getD, List.getD_eq_getElem?_getD, List.getElem?_map]
  cases adj[v]? with
  | none => rfl
  | some a => rfl

theorem mem_row_modify {adj : Adjacency} {a b v w : Nat} (ha : a < adj.length) :
    w ∈ row (adj.modify a (· ++ [b])) v ↔ w ∈ row adj v ∨ (v = a ∧ w = b) := by
  rw [row, row, List.getD_eq_getElem?_getD, List.getD_eq_getElem?_getD, List.getElem?_modify]
  by_cases hv : a = v
  · subst hv
    rw [List.getElem?_eq_getElem ha]
    simp
  · have hv' : v ≠ a := fun h => hv h.symm
    cases adj[v]? with
    | none => simp [hv']
    | some l => simp [hv, hv']

theorem pushEdge_symmetric {n : Nat} {adj : Adjacency} (h : Symmetric n adj) (e : Int × Int) :
    Symmetric n (pushEdge n adj e) := by
  unfold pushEdge
  split
  · exact h
  · next he =>
    obtain ⟨hne, h1, h2, h3, h4⟩ : e.1 ≠ e.2 ∧ 0 ≤ e.1 ∧ 0 ≤ e.2 ∧ e.1 < n ∧ e.2 < n := by
      omega
    have ha : e.1.toNat < adj.length := by
      rw [h.length]
      omega
    have hb : e.2.toNat < (adj.modify e.1.toNat (· ++ [e.2.toNat])).length := by
      rw [List.length_modify, h.length]
      omega
    refine ⟨by rw [List.length_modify, List.length_modify, h.length], fun v w hw => ?_,
      fun v w hw => ?_⟩
    · rw [mem_row_modify hb, mem_row_modify ha] at hw
      rcases hw with (hw | ⟨-, rfl⟩) | ⟨-, rfl⟩
      · exact h.lt v w hw
      · omega
      · omega
    · rw [mem_row_modify hb, mem_row_modify ha] at hw ⊢
      rcases hw with (hw | ⟨rfl, rfl⟩) | ⟨rfl, rfl⟩
      · exact .inl (.inl (h.symm v w hw))
      · exact .inr ⟨rfl, rfl⟩
      · exact .inl (.inr ⟨rfl, rfl⟩)

theorem build_symmetric (n : Nat) (edges : List (Int × Int)) : Symmetric n (build n edges) := by
  have hfold : ∀ (edges : List (Int × Int)) (adj : Adjacency), Symmetric n adj →
      Symmetric n (edges.foldl (pushEdge n) adj) := by
    intro edges
    induction edges with
    | nil => exact fun adj h => h
    | cons e edges ih => exact fun adj h => ih _ (pushEdge_symmetric h e)
  have hnil : Symmetric n (List.replicate n []) := by
    have hrow : ∀ v, row (List.replicate n []) v = [] := by
      intro v
      rw [row, List.getD_eq_getElem?_getD, List.getElem?_replicate]
      split <;> rfl
    refine ⟨List.length_replicate, fun v w hw => ?_, fun v w hw => ?_⟩
    · rw [hrow] at hw
      cases hw
    · rw [hrow] at hw
      cases hw
  have h := hfold edges _ hnil
  refine ⟨by rw [build, List.length_map, h.length], fun v w hw => ?_, fun v w hw => ?_⟩
  · rw [build, row_map_sortUnique, mem_sortUnique] at hw
    exact h.lt v w hw
  · rw [build, row_map_sortUnique, mem_sortUnique] at hw ⊢
    exact h.symm v w hw

/-! ## A component and its ends -/

section Ends

variable {n : Nat} {adj : Adjacency} (hadj : Symmetric n adj)

/-- Vertices at a distance are reached; the queue holds such. -/
structure Levels.Sound (adj : Adjacency) (s : Nat) (st : Levels) : Prop where
  length : st.d.length = adj.length
  reached : ∀ v, 0 ≤ st.d.getD v (-1) → Reach (row adj) s v
  queued : ∀ v ∈ st.queue, 0 ≤ st.d.getD v (-1)
  start : 0 ≤ st.d.getD s (-1)

def Levels.open_ (st : Levels) : Nat := st.d.countP fun x => decide (x < 0)

theorem getD_set (d : List Int) (w v : Nat) (x : Int) :
    (d.set w x).getD v (-1) = if w = v ∧ v < d.length then x else d.getD v (-1) := by
  rw [List.getD_eq_getElem?_getD, List.getD_eq_getElem?_getD, List.getElem?_set]
  by_cases hv : w = v
  · subst hv
    by_cases hlt : w < d.length
    · simp [hlt]
    · simp [hlt]
  · simp [hv]

include hadj

theorem discover_sound {s v w : Nat} {st : Levels} (h : st.Sound adj s) (hv : Reach (row adj) s v)
    (hdv : 0 ≤ st.d.getD v (-1)) (hw : w ∈ row adj v) :
    (discover v st w).Sound adj s ∧ 0 ≤ (discover v st w).d.getD v (-1) ∧
      (discover v st w).queue.length + (discover v st w).open_ = st.queue.length + st.open_ := by
  unfold discover
  split
  · next hneg =>
    have hlt : w < st.d.length := by
      rw [h.length, hadj.length]
      exact hadj.lt v w hw
    have hset : ∀ u, 0 ≤ st.d.getD u (-1) →
        0 ≤ (st.d.set w (st.d.getD v (-1) + 1)).getD u (-1) := by
      intro u hu
      rw [getD_set]
      split
      · omega
      · exact hu
    refine ⟨⟨by rw [List.length_set, h.length], fun u hu => ?_, fun u hu => ?_, hset s h.start⟩,
      hset v hdv, ?_⟩
    · rw [getD_set] at hu
      split at hu
      · next hwu => exact hwu.1 ▸ hv.step hw
      · exact h.reached u hu
    · rcases List.mem_append.mp hu with hu | hu
      · exact hset u (h.queued u hu)
      · rw [List.mem_singleton.mp hu, getD_set, if_pos ⟨rfl, hlt⟩]
        omega
    · have hcount := List.countP_set (p := fun x : Int => decide (x < 0))
        (a := st.d.getD v (-1) + 1) hlt
      have hget : st.d[w] < 0 := by
        rw [List.getD_eq_getElem?_getD, List.getElem?_eq_getElem hlt] at hneg
        exact hneg
      have hpos : st.d.countP (fun x => decide (x < 0)) > 0 :=
        List.countP_pos_iff.mpr ⟨_, List.getElem_mem hlt, by simpa using hget⟩
      have hnew : ¬ (st.d.getD v (-1) + 1 < 0) := by omega
      simp only [Levels.open_, List.length_append, List.length_singleton]
      rw [hcount]
      simp only [hget, hnew, decide_true, decide_false, ite_true]
      simp
      omega
  · exact ⟨h, hdv, rfl⟩

theorem discover_fold {s v : Nat} (hv : Reach (row adj) s v) : ∀ {ws : List Nat} {st : Levels},
    st.Sound adj s → 0 ≤ st.d.getD v (-1) → (∀ w ∈ ws, w ∈ row adj v) →
    (ws.foldl (discover v) st).Sound adj s ∧
      (ws.foldl (discover v) st).queue.length + (ws.foldl (discover v) st).open_ =
        st.queue.length + st.open_ := by
  intro ws
  induction ws with
  | nil => exact fun h _ _ => ⟨h, rfl⟩
  | cons w ws ih =>
    intro st h hdv hws
    obtain ⟨hw, hws⟩ := List.forall_mem_cons.mp hws
    obtain ⟨h1, h2, h3⟩ := discover_sound hadj h hv hdv hw
    obtain ⟨h4, h5⟩ := ih h1 h2 hws
    exact ⟨h4, h5.trans h3⟩

/-- The distances of `s` are found, and only of what it reaches. -/
theorem distances_spec {s fuel : Nat} (hs : s < n) (hfuel : n + 1 < fuel) :
    ∃ d, distances fuel adj s = some d ∧ d.length = adj.length ∧ 0 ≤ d.getD s (-1) ∧
      ∀ v, 0 ≤ d.getD v (-1) → Reach (row adj) s v := by
  have hlen : ((List.replicate adj.length (-1 : Int)).set s 0).length = adj.length := by
    rw [List.length_set, List.length_replicate]
  have hget : ∀ v, ((List.replicate adj.length (-1 : Int)).set s 0).getD v (-1) =
      if s = v then 0 else -1 := by
    intro v
    rw [getD_set, List.length_replicate, hadj.length]
    by_cases hsv : s = v
    · subst hsv
      rw [if_pos ⟨rfl, hs⟩, if_pos rfl]
    · rw [if_neg (fun h => hsv h.1), if_neg hsv, List.getD_eq_getElem?_getD,
        List.getElem?_replicate]
      split <;> rfl
  have hstart : Levels.Sound adj s ⟨(List.replicate adj.length (-1)).set s 0, [s]⟩ := by
    refine ⟨hlen, fun v hv => ?_, fun v hv => ?_, ?_⟩
    · rw [hget] at hv
      split at hv
      · next h => exact h ▸ .refl _
      · omega
    · rw [hget, List.mem_singleton.mp hv, if_pos rfl]
    · rw [hget, if_pos rfl]
  have hstep : ∀ st st', st.Sound adj s → distanceStep adj st = some st' →
      st'.Sound adj s ∧ st'.queue.length + st'.open_ < st.queue.length + st.open_ := by
    intro st st' h hst
    unfold distanceStep at hst
    split at hst
    · cases hst
    · next v q hq =>
      cases hst
      have hdv := h.queued v (by rw [hq]; exact List.mem_cons_self)
      have hrest : Levels.Sound adj s ⟨st.d, q⟩ :=
        ⟨h.length, h.reached,
          fun u hu => h.queued u (by rw [hq]; exact List.mem_cons_of_mem _ hu), h.start⟩
      obtain ⟨h1, h2⟩ := discover_fold hadj (h.reached v hdv) hrest hdv fun w hw => hw
      refine ⟨h1, ?_⟩
      rw [h2, hq]
      simp only [Levels.open_, List.length_cons]
      omega
  have hvariant : ([s] : List Nat).length +
      Levels.open_ ⟨(List.replicate adj.length (-1)).set s 0, [s]⟩ < fuel := by
    have hle : Levels.open_ ⟨(List.replicate adj.length (-1)).set s 0, [s]⟩ ≤ n := by
      refine List.countP_le_length.trans ?_
      rw [hlen, hadj.length]
    rw [List.length_singleton]
    omega
  obtain ⟨st, h1, h2, -⟩ := loop_spec (Levels.Sound adj s)
    (fun st => st.queue.length + st.open_) hstep hstart hvariant
  exact ⟨st.d, by rw [distances, h1]; rfl, h2.length, h2.start, h2.reached⟩

omit hadj in
theorem foldl_max_le (d : List Int) :
    ∀ x : Int, x ≤ d.foldl max x ∧ ∀ y ∈ d, y ≤ d.foldl max x := by
  induction d with
  | nil => exact fun x => ⟨le_refl x, by simp⟩
  | cons z d ih =>
    intro x
    obtain ⟨h1, h2⟩ := ih (max x z)
    exact ⟨(le_max_left x z).trans h1, List.forall_mem_cons.mpr ⟨(le_max_right x z).trans h1, h2⟩⟩

omit hadj in
/-- The greatest distance is none of outside. -/
theorem maxElement_nonneg {d : List Int} {s : Nat} (h : 0 ≤ d.getD s (-1)) : 0 ≤ maxElement d := by
  have hmem : d.getD s (-1) ∈ d := by
    rw [List.getD_eq_getElem?_getD] at h ⊢
    cases hs : d[s]? with
    | none =>
      rw [hs] at h
      exact absurd h (by simp)
    | some x => exact List.mem_of_getElem? hs
  exact h.trans ((foldl_max_le d _).2 _ hmem)

omit hadj in
theorem farthest_spec {d : List Int} {ecc : Int} {s : Nat} (hecc : 0 ≤ ecc)
    (hs : 0 ≤ d.getD s (-1)) : 0 ≤ d.getD (farthest adj d ecc s) (-1) := by
  refine List.foldlRecOn (motive := fun st : Nat × Nat => 0 ≤ d.getD st.1 (-1)) _ _ hs
    fun st h v _ => ?_
  split
  · next hv =>
    rw [hv.1]
    exact hecc
  · exact h

omit hadj in
theorem seedOf_spec {dr : List Int} {root : Nat} (hs : 0 ≤ dr.getD root (-1)) :
    0 ≤ dr.getD (seedOf adj dr root) (-1) := by
  refine List.foldlRecOn (motive := fun seed : Nat => 0 ≤ dr.getD seed (-1)) _ _ hs
    fun seed h v _ => ?_
  split
  · next hv => exact hv.1
  · exact h

theorem lt_of_reach {s v : Nat} (hs : s < n) (h : Reach (row adj) s v) : v < n := by
  induction h with
  | refl => exact hs
  | tail _ hstep _ => exact hadj.lt _ _ hstep

/-- The rounds stay in the component. -/
theorem peripheralRounds_spec {start fuel : Nat} (hstart : start < n) (hfuel : n + 1 < fuel) :
    ∀ (round : Nat) {s : Nat} {d : List Int} {ecc : Int}, Reach (row adj) start s →
      0 ≤ d.getD s (-1) → (∀ v, 0 ≤ d.getD v (-1) → Reach (row adj) s v) → 0 ≤ ecc →
      ∃ p, peripheralRounds fuel adj round s d ecc = some p ∧ Reach (row adj) start p.1 ∧
        Reach (row adj) start p.2 := by
  intro round
  induction round with
  | zero => exact fun hs _ _ _ => ⟨_, rfl, hs, hs⟩
  | succ round ih =>
    intro s d ecc hs hds hd hecc
    have hfar : 0 ≤ d.getD (farthest adj d ecc s) (-1) := farthest_spec hecc hds
    have he := hs.trans (hd _ hfar)
    obtain ⟨de, hde, -, hee, hreach⟩ := distances_spec hadj (lt_of_reach hadj hstart he) hfuel
    rw [peripheralRounds]
    simp only [hde]
    split
    · exact ⟨_, rfl, hs, he⟩
    · exact ih he hee hreach (maxElement_nonneg hee)

theorem ends_spec {root fuel : Nat} (hroot : root < n) (hfuel : n + 1 < fuel) :
    ∃ p, ends fuel adj root = some p ∧ Reach (row adj) root p.1 ∧ Reach (row adj) root p.2 := by
  obtain ⟨dr, hdr, -, hrr, hreach⟩ := distances_spec hadj hroot hfuel
  have hseen : 0 ≤ dr.getD (seedOf adj dr root) (-1) := seedOf_spec hrr
  have hseed := hreach _ hseen
  obtain ⟨d, hd, -, hds, hreach'⟩ := distances_spec hadj (lt_of_reach hadj hroot hseed) hfuel
  obtain ⟨p, hp, h1, h2⟩ := peripheralRounds_spec hadj (lt_of_reach hadj hroot hseed) hfuel 8
    (.refl _) hds hreach' (maxElement_nonneg hds)
  refine ⟨p, ?_, hseed.trans h1, hseed.trans h2⟩
  rw [ends]
  simp only [hdr, peripheral, hd]
  exact hp

end Ends

/-! ## The walk lists every vertex once -/

section Rcm

/-- The marks after some neighbours, and the new ones among them. -/
structure Marked (seen : List Bool) (st : List Bool × List Nat) : Prop where
  length : st.1.length = seen.length
  iff : ∀ u, st.1.getD u false = true ↔ seen.getD u false = true ∨ u ∈ st.2
  nodup : st.2.Nodup
  fresh : ∀ u ∈ st.2, seen.getD u false = false
  count : st.2.length + st.1.count false = seen.count false

theorem getD_set_true (seen : List Bool) {w : Nat} (hw : w < seen.length) (u : Nat) :
    (seen.set w true).getD u false = true ↔ seen.getD u false = true ∨ u = w := by
  rw [List.getD_eq_getElem?_getD, List.getD_eq_getElem?_getD, List.getElem?_set]
  by_cases hu : w = u
  · subst hu
    simp [hw]
  · have hu' : u ≠ w := fun h => hu h.symm
    simp [hu, hu']

theorem count_set_true {seen : List Bool} {w : Nat} (hw : w < seen.length)
    (hf : seen.getD w false = false) : (seen.set w true).count false + 1 = seen.count false := by
  have hget : seen[w] = false := by
    rw [List.getD_eq_getElem?_getD, List.getElem?_eq_getElem hw] at hf
    exact hf
  have hpos : 0 < seen.count false := List.count_pos_iff.mpr (hget ▸ List.getElem_mem hw)
  rw [List.count_set hw, hget]
  simp
  omega

theorem mark_marked {seen : List Bool} {st : List Bool × List Nat} (h : Marked seen st) {w : Nat}
    (hw : w < seen.length) : Marked seen (mark st w) ∧ (mark st w).1.getD w false = true := by
  have hlen : w < st.1.length := by rw [h.length]; exact hw
  unfold mark
  split
  · next hm => exact ⟨h, hm⟩
  · next hm =>
    have hf : st.1.getD w false = false := Bool.eq_false_iff.mpr hm
    have hnot : ¬(seen.getD w false = true ∨ w ∈ st.2) := fun hor => hm ((h.iff w).mpr hor)
    refine ⟨⟨by rw [List.length_set, h.length], fun u => ?_, ?_, fun u hu => ?_, ?_⟩,
      (getD_set_true _ hlen w).mpr (.inr rfl)⟩
    · rw [getD_set_true _ hlen, h.iff, List.mem_append, List.mem_singleton, or_assoc]
    · rw [List.nodup_append]
      refine ⟨h.nodup, List.nodup_singleton _, fun a ha b hb hab => ?_⟩
      obtain rfl := List.mem_singleton.mp hb
      exact hnot (.inr (hab ▸ ha))
    · rcases List.mem_append.mp hu with hu | hu
      · exact h.fresh u hu
      · rw [List.mem_singleton.mp hu]
        exact Bool.eq_false_iff.mpr fun ht => hnot (.inl ht)
    · have h1 := count_set_true hlen hf
      have h2 := h.count
      simp only [List.length_append, List.length_singleton]
      omega

theorem mark_fold {seen : List Bool} : ∀ {ws : List Nat} {st : List Bool × List Nat},
    Marked seen st → (∀ w ∈ ws, w < seen.length) →
    Marked seen (ws.foldl mark st) ∧ (∀ w ∈ ws, (ws.foldl mark st).1.getD w false = true) ∧
      ∀ u, st.1.getD u false = true → (ws.foldl mark st).1.getD u false = true := by
  intro ws
  induction ws with
  | nil => exact fun h _ => ⟨h, by simp, fun _ hu => hu⟩
  | cons w ws ih =>
    intro st h hws
    obtain ⟨hw, hws⟩ := List.forall_mem_cons.mp hws
    obtain ⟨h1, h2⟩ := mark_marked h hw
    obtain ⟨h3, h4, h5⟩ := ih h1 hws
    refine ⟨h3, List.forall_mem_cons.mpr ⟨h5 w h2, h4⟩, fun u hu => h5 u ?_⟩
    unfold mark
    split
    · exact hu
    · exact (getD_set_true _ (by rw [h.length]; exact hw) u).mpr (.inl hu)

/-- The marked vertices are those listed and those queued, each once; the rows of
the listed ones are marked. -/
structure Walk.Sound (adj : Adjacency) (base : Nat → Prop) (st : Walk) : Prop where
  length : st.seen.length = adj.length
  seen : ∀ v, st.seen.getD v false = true ↔ v ∈ st.out ++ st.queue
  nodup : (st.out ++ st.queue).Nodup
  done : ∀ v ∈ st.out, ∀ w ∈ row adj v, w ∈ st.out ++ st.queue
  base : ∀ v, base v → v ∈ st.out ++ st.queue

variable {n : Nat} {adj : Adjacency} (hadj : Symmetric n adj) {S : Sorter} {base : Nat → Prop}

include hadj

theorem walkStep_sound {st st' : Walk} (h : st.Sound adj base)
    (hst : walkStep S adj st = some st') :
    st'.Sound adj base ∧
      st'.queue.length + st'.seen.count false < st.queue.length + st.seen.count false := by
  unfold walkStep at hst
  split at hst
  · cases hst
  · next v q hq =>
    cases hst
    have hstart : Marked st.seen (st.seen, []) :=
      ⟨rfl, fun u => by simp, List.nodup_nil, by simp, Nat.zero_add _⟩
    have hrow : ∀ w ∈ row adj v, w < st.seen.length := by
      intro w hw
      rw [h.length, hadj.length]
      exact hadj.lt v w hw
    obtain ⟨hm, hall, -⟩ := mark_fold hstart hrow
    generalize (row adj v).foldl mark (st.seen, []) = r at hm hall
    have hsort := S.perm (degree adj) r.2
    have hperm : ((st.out ++ [v]) ++ (q ++ S.sort (degree adj) r.2)).Perm
        ((st.out ++ st.queue) ++ r.2) := by
      rw [hq]
      simp only [List.append_assoc, List.cons_append]
      exact (List.Perm.cons v (hsort.append_left q)).append_left st.out
    have hmem : ∀ u, u ∈ (st.out ++ [v]) ++ (q ++ S.sort (degree adj) r.2) ↔
        r.1.getD u false = true := by
      intro u
      rw [hperm.mem_iff, List.mem_append, hm.iff, h.seen]
    refine ⟨⟨hm.length.trans h.length, fun u => (hmem u).symm, ?_, fun u hu w hw => ?_,
      fun u hu => ?_⟩, ?_⟩
    · rw [hperm.nodup_iff, List.nodup_append]
      refine ⟨h.nodup, hm.nodup, fun a ha b hb hab => ?_⟩
      have hfresh := hm.fresh b hb
      rw [← hab, (h.seen a).mpr ha] at hfresh
      cases hfresh
    · rw [hmem]
      rcases List.mem_append.mp hu with hu | hu
      · exact (hm.iff w).mpr (.inl ((h.seen w).mpr (h.done u hu w hw)))
      · rw [List.mem_singleton.mp hu] at hw
        exact hall w hw
    · exact (hmem u).mpr ((hm.iff u).mpr (.inl ((h.seen u).mpr (h.base u hu))))
    · have hcount := hm.count
      rw [hq]
      simp only [List.length_append, List.length_cons, hsort.length_eq]
      omega

/-- Between two walks the queue is empty. -/
def Walk.Rests (adj : Adjacency) (st : Walk) : Prop :=
  st.Sound adj (fun _ => False) ∧ st.queue = []

theorem walkFrom_spec {fuel : Nat} (hfuel : n + 1 < fuel) {st : Walk} {root : Nat}
    (hroot : root < n) (h : st.Rests adj) (hnew : st.seen.getD root false = false) :
    ∃ st', walkFrom S fuel adj st root = some st' ∧ st'.Rests adj ∧
      st'.seen.getD root false = true ∧
      ∀ v, st.seen.getD v false = true → st'.seen.getD v false = true := by
  obtain ⟨⟨s, e⟩, hends, hreach, -⟩ := ends_spec hadj hroot hfuel
  obtain ⟨hsound, hqueue⟩ := h
  have hout : ∀ v, st.seen.getD v false = true ↔ v ∈ st.out := by
    intro v
    rw [hsound.seen, hqueue, List.append_nil]
  have hclosed : Closed (row adj) {v | v ∈ st.out} := by
    intro v hv w hw
    have := hsound.done v hv w hw
    rwa [hqueue, List.append_nil] at this
  -- the start is in the component of an unmarked vertex
  have hs : s ∉ st.out := by
    refine hclosed.fresh hadj.symm (fun hr => ?_) hreach
    rw [(hout root).mpr hr] at hnew
    cases hnew
  have hslen : s < st.seen.length := by
    rw [hsound.length, hadj.length]
    exact lt_of_reach hadj hroot hreach
  have hstart : Walk.Sound adj (fun v => v = s ∨ v ∈ st.out) ⟨st.seen.set s true, [s], st.out⟩ := by
    refine ⟨by rw [List.length_set, hsound.length], fun v => ?_, ?_, fun v hv w hw => ?_,
      fun v hv => ?_⟩
    · rw [getD_set_true _ hslen, hout, List.mem_append, List.mem_singleton]
    · have hnd := hsound.nodup
      rw [hqueue, List.append_nil] at hnd
      rw [List.nodup_append]
      refine ⟨hnd, List.nodup_singleton _, fun a ha b hb hab => ?_⟩
      obtain rfl := List.mem_singleton.mp hb
      exact hs (hab ▸ ha)
    · exact List.mem_append_left _ (hclosed v hv w hw)
    · rcases hv with rfl | hv
      · exact List.mem_append_right _ (List.mem_singleton_self v)
      · exact List.mem_append_left _ hv
  have hvariant : ([s] : List Nat).length + (st.seen.set s true).count false < fuel := by
    have hle := List.count_le_length (a := false) (l := st.seen.set s true)
    rw [List.length_set, hsound.length, hadj.length] at hle
    rw [List.length_singleton]
    omega
  obtain ⟨st', h1, h2, h3⟩ := loop_spec (Walk.Sound adj fun v => v = s ∨ v ∈ st.out)
    (fun st => st.queue.length + st.seen.count false)
    (fun _ _ hinv hst => walkStep_sound (S := S) hadj hinv hst) hstart hvariant
  have hqueue' : st'.queue = [] := by
    unfold walkStep at h3
    split at h3
    · next hq => exact hq
    · cases h3
  have hmem : ∀ v, v ∈ st'.out ++ st'.queue ↔ v ∈ st'.out := by
    intro v
    rw [hqueue', List.append_nil]
  have hclosed' : Closed (row adj) {v | v ∈ st'.out} :=
    fun v hv w hw => (hmem w).mp (h2.done v hv w hw)
  have hs' : s ∈ st'.out := (hmem s).mp (h2.base s (.inl rfl))
  refine ⟨st', ?_, ⟨⟨h2.length, h2.seen, h2.nodup, h2.done, fun _ h => h.elim⟩, hqueue'⟩, ?_,
    fun v hv => ?_⟩
  · rw [walkFrom]
    simp only [hends]
    exact h1
  · exact (h2.seen root).mpr ((hmem root).mpr (hclosed'.reach hs' (hreach.symm hadj.symm)))
  · exact (h2.seen v).mpr (h2.base v (.inr ((hout v).mp hv)))

end Rcm

/-- Reverse Cuthill–McKee returns, with every vertex once. -/
theorem rcm_perm (S : Sorter) {fuel n : Nat} (hfuel : n + 1 < fuel) (edges : List (Int × Int)) :
    ∃ out, rcm S fuel n edges = some out ∧ out.Perm (List.range n) := by
  have hadj := build_symmetric n edges
  have hstart : Walk.Rests (build n edges) ⟨List.replicate n false, [], []⟩ := by
    refine ⟨⟨by rw [List.length_replicate, hadj.length], fun v => ?_, List.nodup_nil, by simp,
      fun _ h => h.elim⟩, rfl⟩
    rw [List.getD_eq_getElem?_getD, List.getElem?_replicate]
    split <;> simp
  obtain ⟨st, h1, ⟨h2, hq⟩, h3, -⟩ := sweep_spec
    (fun (st : Walk) v => st.seen.getD v false) (U := (· < n))
    (fun st v hv hrest hnew => walkFrom_spec (S := S) hadj hfuel hv hrest hnew)
    (fun v hv => List.mem_range.mp hv) hstart
  have hseen : ∀ v, st.seen.getD v false = true ↔ v ∈ st.out := by
    intro v
    rw [h2.seen, hq, List.append_nil]
  refine ⟨st.out.reverse, by rw [rcm, h1]; rfl, (List.reverse_perm _).trans (perm_range ?_ ?_ ?_)⟩
  · have hnd := h2.nodup
    rwa [hq, List.append_nil] at hnd
  · intro v hv
    have hmark := (hseen v).mpr hv
    by_contra hlt
    rw [List.getD_eq_getElem?_getD, List.getElem?_eq_none (by
      rw [h2.length, hadj.length]
      omega)] at hmark
    cases hmark
  · exact fun v hv => (hseen v).mp (h3 v (List.mem_range.mpr hv))

end LibHSC.Order
