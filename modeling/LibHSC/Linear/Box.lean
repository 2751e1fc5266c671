import LibHSC.Linear.Knapsack
import LibHSC.Order.Domains

/-!
The product of the leaf domains, built once for each sort and position, and the domains read
back from a diagram: the primes met on the way down. A leaf that is the tail of a pair is not
a prime of any arc, and nothing is read for it.
-/

namespace LibHSC.Linear

open Tables

/-! ## The product -/

/-- Two places with one packed key. -/
structure Clash where
  key : Nat

abbrev Placed (F : Shape → Type) := StateT (Table fun k : Place => F k.1) (Except Clash)

/-- The rectangle of two parts that are there. -/
def boxNode {C D : Type} [DecidableEq C] [DecidableEq D] (H : SupportAlgebra C)
    (T : SupportAlgebra D) (prime : C) (sub : D) : List (Arc C D) :=
  if prime = H.none ∨ sub = T.none then [] else rectangle H T prime sub

section Build

variable (N : Numbering) (ids : ShapeIds) (domain : Nat → IntSet)

def build : (s : Shape) → Nat → Placed Code (Code s)
  | .unit, _ => pure true
  | .leaf, first => pure (domain first)
  | .pair h t, first =>
    rememberPacked ids.pack ⟨ids.pack (.pair h t, first)⟩ (.pair h t, first) do
      let prime ← build h first
      let sub ← build t (first + h.width)
      pure (boxNode (algebra N h) (algebra N t) prime sub)

def fullBox (top : Shape) : Except Clash (Code top) := (build N ids domain top 0 []).map Prod.fst

end Build

/-- The words whose every value is in the domain of its position. -/
def product (domain : Nat → IntSet) : (s : Shape) → Nat → Set (Word s)
  | .unit, _ => Set.univ
  | .leaf, first => {v : Int | v ∈ domain first}
  | .pair h t, first =>
    {w : Word h × Word t | w.1 ∈ product domain h first ∧ w.2 ∈ product domain t (first + h.width)}

/-- A code of the product of a place. -/
def BoxOf (N : Numbering) (domain : Nat → IntSet) (k : Place) (x : Code k.1) : Prop :=
  Canon N k.1 x ∧ den k.1 x = product domain k.1 k.2

/-- The entries of a table sit where packed keys tell places apart. -/
def Placewise {F : Shape → Type} (P : (k : Place) → F k.1 → Prop) (k : Place) (v : F k.1) : Prop :=
  k.2 < 2 ^ 24 ∧ P k v

theorem gives_placed {F : Shape → Type} (ids : ShapeIds) {P : (k : Place) → F k.1 → Prop}
    {k : Place} {wrong : Clash} {compute : Placed F (F k.1)} (hk : k.2 < 2 ^ 24)
    (h : Gives (Sound (Placewise P)) (P k) (fun _ => False) compute) :
    Gives (Sound (Placewise P)) (P k) (fun _ => False)
      (rememberPacked ids.pack wrong k compute) := by
  refine (gives_rememberPacked (P := Placewise P) (fun k' v' hk' he => ?_)
    (h.mono fun v hv => ⟨hk, hv⟩)).mono fun v hv => hv.2
  exact ids.pack_inj hk'.1 hk he

section Build

variable {N : Numbering} (ids : ShapeIds) {domain : Nat → IntSet}

theorem boxNode_spec {h t : Shape} {prime : Code h} {sub : Code t} (hp : Canon N h prime)
    (hs : Canon N t sub) :
    Canon N (.pair h t) (boxNode (algebra N h) (algebra N t) prime sub) ∧
      den (.pair h t) (boxNode (algebra N h) (algebra N t) prime sub) =
        den h prime ×ˢ den t sub := by
  unfold boxNode
  split
  · next hnone =>
    refine ⟨(laws N (.pair h t)).canon_none, ((laws N (.pair h t)).den_none).trans ?_⟩
    rcases hnone with rfl | rfl
    · rw [(laws N h).den_none, Set.empty_prod]
      rfl
    · rw [(laws N t).den_none, Set.prod_empty]
      rfl
  · exact rectangle_correct (laws N h) (laws N t) hp hs

theorem build_gives : (s : Shape) → (first : Nat) → first + s.width < 2 ^ 24 →
    (∀ p, first ≤ p → p < first + s.width → IntSet.Canon (domain p)) →
    Gives (Sound (Placewise (BoxOf N domain))) (BoxOf N domain (s, first)) (fun _ => False)
      (build N ids domain s first)
  | .unit, first, _, _ => gives_pure ⟨trivial, Set.eq_univ_of_forall fun _ => rfl⟩
  | .leaf, first, _, hdom => gives_pure ⟨hdom first le_rfl (Nat.lt_succ_self _), rfl⟩
  | .pair h t, first, hsmall, hdom => by
    rw [Shape.width] at hsmall hdom
    refine gives_placed ids (by show first < _; omega) ?_
    refine (build_gives h first (by omega) fun p h1 h2 => hdom p h1 (by omega)).bind ?_
    intro (prime : Code h) hprime
    refine (build_gives t (first + h.width) (by omega)
      fun p h1 h2 => hdom p (by omega) (by omega)).bind ?_
    intro (sub : Code t) hsub
    refine gives_pure ?_
    obtain ⟨hc, hd⟩ := boxNode_spec hprime.1 hsub.1
    refine ⟨hc, hd.trans ?_⟩
    rw [hprime.2, hsub.2]
    rfl

/-- The box is the product of the domains, at every shape of less than 2^24 leaves. -/
theorem fullBox_gives {top : Shape} (hwidth : top.width < 2 ^ 24)
    (hdom : ∀ p < top.width, IntSet.Canon (domain p)) :
    ∃ box, fullBox N ids domain top = .ok box ∧ Canon N top box ∧
      den top box = product domain top 0 := by
  have h := build_gives (N := N) ids top 0 (by omega) (fun p _ hp => hdom p (by omega)) [] sound_nil
  unfold fullBox
  generalize build N ids domain top 0 [] = r at h ⊢
  cases r with
  | error e => exact h.elim
  | ok r => exact ⟨r.1, rfl, h.1⟩

end Build

/-! ## Words of a product -/

theorem mem_product_iff {domain : Nat → IntSet} : (s : Shape) → (first : Nat) → (w : Word s) →
    (w ∈ product domain s first ↔ ∀ i v, (frontier s w)[i]? = some v → v ∈ domain (first + i))
  | .unit, _, _ => ⟨fun _ i v h => absurd h (by simp [frontier]), fun _ => trivial⟩
  | .leaf, first, w => by
    constructor
    · intro hw i v h
      obtain ⟨hlt, rfl⟩ := List.getElem?_eq_some_iff.mp h
      have hlt : i < 1 := hlt
      obtain rfl : i = 0 := by omega
      exact hw
    · exact fun h => h 0 w rfl
  | .pair h t, first, w => by
    have hlen := frontier_length h w.1
    show w.1 ∈ product domain h first ∧ w.2 ∈ product domain t (first + h.width) ↔ _
    rw [mem_product_iff h, mem_product_iff t, frontier]
    constructor
    · rintro ⟨hh, ht⟩ i v hv
      rw [List.getElem?_append, hlen] at hv
      split at hv
      · exact hh i v hv
      · have hin := ht _ v hv
        rwa [show first + h.width + (i - h.width) = first + i by omega] at hin
    · intro hall
      refine ⟨fun i v hv => hall i v ?_, fun i v hv => ?_⟩
      · rw [List.getElem?_append_left (List.getElem?_eq_some_iff.mp hv).1]
        exact hv
      · have hin := hall (h.width + i) v (by
          rw [List.getElem?_append_right (by omega), hlen, Nat.add_sub_cancel_left]
          exact hv)
        rwa [← Nat.add_assoc] at hin

/-- The word with value `f p` at every position `p`. -/
def wordAt (f : Nat → Int) : (s : Shape) → Nat → Word s
  | .unit, _ => ()
  | .leaf, first => f first
  | .pair h t, first => (wordAt f h first, wordAt f t (first + h.width))

theorem frontier_wordAt (f : Nat → Int) : (s : Shape) → (first : Nat) →
    frontier s (wordAt f s first) = (List.range s.width).map fun i => f (first + i)
  | .unit, _ => rfl
  | .leaf, _ => rfl
  | .pair h t, first => by
    show frontier h (wordAt f h first) ++ frontier t (wordAt f t (first + h.width)) = _
    rw [frontier_wordAt f h, frontier_wordAt f t, Shape.width, List.range_add,
      List.map_append, List.map_map]
    simp only [Function.comp_def, Nat.add_assoc]

theorem wordAt_mem {domain : Nat → IntSet} {f : Nat → Int} {s : Shape}
    (h : ∀ p < s.width, f p ∈ domain p) : wordAt f s 0 ∈ product domain s 0 := by
  rw [mem_product_iff, frontier_wordAt]
  intro i v hv
  obtain ⟨j, hj, rfl⟩ := List.mem_map.mp (List.mem_of_getElem? hv)
  rw [List.getElem?_map] at hv
  obtain ⟨k, hk, hjk⟩ := Option.map_eq_some_iff.mp hv
  obtain ⟨hlt, rfl⟩ := List.getElem?_eq_some_iff.mp hk
  rw [List.getElem_range] at hjk
  rw [← hjk, Nat.zero_add]
  rw [List.length_range] at hlt
  exact h i hlt

/-- Where no domain is empty, a position takes every value of its domain. -/
theorem valuesAt_product {domain : Nat → IntSet} {s : Shape} {x : Code s}
    (hx : den s x = product domain s 0) (hne : ∀ p < s.width, domain p ≠ []) {p : Nat}
    (hp : p < s.width) (v : Int) : v ∈ Order.valuesAt s x 0 p ↔ v ∈ domain p := by
  constructor
  · rintro ⟨w, hw, -, hv⟩
    rw [hx, mem_product_iff] at hw
    have hin := hw _ v hv
    rwa [Nat.sub_zero, Nat.zero_add] at hin
  · intro hv
    have hfill : ∀ q < s.width, (Function.update (fun q => (domain q).headD 0) p v)
        q ∈ domain q := by
      intro q hq
      by_cases hqp : q = p
      · subst hqp
        rwa [Function.update_self]
      · rw [Function.update_of_ne hqp]
        obtain ⟨u, us, hu⟩ := List.exists_cons_of_ne_nil (hne q hq)
        rw [hu]
        exact List.mem_cons_self ..
    refine ⟨_, hx ▸ wordAt_mem hfill, Nat.zero_le p, ?_⟩
    rw [frontier_wordAt, List.getElem?_map, Nat.sub_zero, List.getElem?_range hp, Option.map_some,
      Nat.zero_add, Function.update_self]

/-! ## The domains read back -/

/-- The primes of a leaf head are read, another head is walked. -/
def readHead : (h : Shape) → (Code h → Nat → (Nat → List Int) → Nat → List Int) →
    Code h → Nat → (Nat → List Int) → Nat → List Int
  | .leaf, _ => fun (u : IntSet) first domains =>
    Function.update domains first (domains first ++ u)
  | .unit, read => read
  | .pair _ _, read => read

def read : (s : Shape) → Code s → Nat → (Nat → List Int) → Nat → List Int
  | .unit, _, _, domains => domains
  | .leaf, _, _, domains => domains
  | .pair h t, n, first, domains =>
    List.foldl (fun domains a =>
      read t a.sub (first + h.width) (readHead h (read h) a.prime first domains)) domains n

/-- Sorted, and each value once. -/
def domainsOf (top : Shape) (box : Code top) (p : Nat) : IntSet :=
  IntSet.of (read top box 0 (fun _ => []) p)

theorem mem_readHead {h : Shape} (hh : ∀ c first domains p v,
    v ∈ read h c first domains p ↔ v ∈ domains p ∨ v ∈ Order.recorded h c first p)
    (c : Code h) (first : Nat) (domains : Nat → List Int) (p : Nat) (v : Int) :
    v ∈ readHead h (read h) c first domains p ↔
      v ∈ domains p ∨ v ∈ Order.recordedHead h (Order.recorded h) c first p := by
  cases h with
  | unit => exact hh c first domains p v
  | pair _ _ => exact hh c first domains p v
  | leaf =>
    change IntSet at c
    show v ∈ Function.update domains first (domains first ++ c) p ↔
      v ∈ domains p ∨ (p = first ∧ v ∈ c)
    by_cases hp : p = first
    · subst hp
      rw [Function.update_self]
      exact List.mem_append.trans (or_congr_right (and_iff_right rfl).symm)
    · rw [Function.update_of_ne hp]
      exact (or_iff_left fun hin => hp hin.1).symm

/-- What is read for a position is what the walk over the primes records for it. -/
theorem mem_read : (s : Shape) → (c : Code s) → (first : Nat) → (domains : Nat → List Int) →
    (p : Nat) → (v : Int) →
    (v ∈ read s c first domains p ↔ v ∈ domains p ∨ v ∈ Order.recorded s c first p)
  | .unit, _, _, _, _, _ => (or_iff_left fun h => nomatch h).symm
  | .leaf, _, _, _, _, _ => (or_iff_left fun h => nomatch h).symm
  | .pair h t, c, first, domains, p, v => by
    change List (Arc (Code h) (Code t)) at c
    have harc := fun a domains => mem_readHead (h := h) (mem_read h) (a : Code h) first domains p v
    rw [Order.mem_recorded_pair]
    show v ∈ List.foldl _ domains c p ↔ _
    induction c generalizing domains with
    | nil => exact (or_iff_left fun ⟨_, ha, _⟩ => nomatch ha).symm
    | cons a c ih =>
      rw [List.foldl_cons, ih, mem_read t, harc, List.exists_mem_cons_iff, or_assoc, or_assoc,
        or_assoc]

theorem mem_domainsOf {top : Shape} {box : Code top} {p : Nat} {v : Int} :
    v ∈ domainsOf top box p ↔ v ∈ Order.recorded top box 0 p := by
  rw [domainsOf, IntSet.mem_of, mem_read]
  exact or_iff_right List.not_mem_nil

/-- The domains read are the ones of the product when every leaf is the head of a pair. -/
theorem product_domainsOf {N : Numbering} {domain : Nat → IntSet} {s : Shape} {box : Code s}
    (hc : Canon N s box) (hbox : den s box = product domain s 0)
    (hne : ∀ p < s.width, domain p ≠ []) (hhead : s.headed = true) :
    product (domainsOf s box) s 0 = product domain s 0 := by
  ext w
  rw [mem_product_iff, mem_product_iff]
  refine forall_congr' fun i => forall_congr' fun v => imp_congr_right fun hv => ?_
  have hi : i < s.width := frontier_length s w ▸ (List.getElem?_eq_some_iff.mp hv).1
  rw [Nat.zero_add, mem_domainsOf, Order.recorded_eq s hhead box hc 0 i,
    valuesAt_product hbox hne hi]

/-- A leaf that is no head of a pair has no domain, and the product is empty. -/
theorem product_domainsOf_unheaded {s : Shape} (box : Code s) (hhead : s.headed = false) :
    product (domainsOf s box) s 0 = ∅ := by
  obtain ⟨i, hi, hnone⟩ := Order.exists_unrecorded s hhead
  refine Set.eq_empty_of_forall_notMem fun w hw => ?_
  have hlt : i < (frontier s w).length := frontier_length s w ▸ hi
  have hin := (mem_product_iff s 0 w).mp hw i _ (List.getElem?_eq_getElem hlt)
  rw [mem_domainsOf, hnone] at hin
  exact hin

theorem recorded_inInt32 {N : Numbering} : (s : Shape) → (c : Code s) → Canon N s c →
    ∀ first p v, v ∈ Order.recorded s c first p → InInt32 v
  | .unit, _, _, _, _, _, hv => nomatch hv
  | .leaf, _, _, _, _, _, hv => nomatch hv
  | .pair h t, c, hc, first, p, v, hv => by
    have hc : NodeCanon (algebra N h) (algebra N t) (den h) (Canon N h) (Canon N t) c := hc
    obtain ⟨a, ha, hv | hv⟩ := hv
    · have hprime := (hc.canon a ha).1
      have hrec := fun first => recorded_inInt32 h a.prime hprime first p v
      cases h with
      | unit => exact hrec first hv
      | leaf => exact hprime.2 v hv.2
      | pair _ _ => exact hrec first hv
    · exact recorded_inInt32 t a.sub (hc.canon a ha).2 _ p v hv

end LibHSC.Linear
