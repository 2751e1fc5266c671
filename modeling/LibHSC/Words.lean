import LibHSC.Shape
import LibHSC.Library.Memo
import Mathlib.Algebra.BigOperators.Ring.List
import Mathlib.Data.List.ProdSigma
import Mathlib.Data.Set.Card

/-!
Counting the words of a diagram and listing them. Both walk the arcs of a node, the one
adding products of cardinals that a table shares between equal nodes, the other threading one
budget through nested continuations. `wordList` is what both amount to: the words in the
order of the arcs, each once because the primes of a node are disjoint.
-/

namespace LibHSC

/-! ## The listing -/

section Arcs

variable {C D V W : Type} (wh : C → List V) (wt : D → List W)

/-- The words of a list of arcs: the products, one after the other. -/
def arcWords (as : List (Arc C D)) : List (V × W) := as.flatMap fun a => wh a.prime ×ˢ wt a.sub

variable {wh wt}

theorem mem_arcWords {as : List (Arc C D)} {w : V × W} :
    w ∈ arcWords wh wt as ↔ ∃ a ∈ as, w.1 ∈ wh a.prime ∧ w.2 ∈ wt a.sub :=
  List.mem_flatMap.trans (exists_congr fun _ => and_congr_right fun _ => List.mem_product)

theorem arcWords_cons (a : Arc C D) (as : List (Arc C D)) :
    arcWords wh wt (a :: as) = wh a.prime ×ˢ wt a.sub ++ arcWords wh wt as :=
  List.flatMap_cons

end Arcs

def unitWords (c : Bool) : List Unit := if c = true then [()] else []

/-- The words of a code, in the order of the arcs. -/
def wordList : (s : Shape) → Code s → List (Word s)
  | .unit, c => unitWords c
  | .leaf, c => c
  | .pair h t, c => arcWords (wordList h) (wordList t) c

theorem mem_wordList : (s : Shape) → (c : Code s) → (w : Word s) → (w ∈ wordList s c ↔ w ∈ den s c)
  | .unit, c, w => by
    have hunit : ∀ (b : Bool) (u : Unit), u ∈ unitWords b ↔ b = true := by
      intro b u
      cases b <;> simp [unitWords]
    exact hunit c w
  | .leaf, _, _ => Iff.rfl
  | .pair h t, c, w => by
    refine (mem_arcWords (w := w)).trans (Iff.trans ?_ (mem_nodeDen (den h) (den t)).symm)
    exact exists_congr fun a => and_congr_right fun _ =>
      and_congr (mem_wordList h a.prime w.1) (mem_wordList t a.sub w.2)

/-- By induction on the sort: the words of two arcs differ in the head, the primes being
disjoint. -/
theorem wordList_nodup {N : Numbering} : (s : Shape) → (c : Code s) → Canon N s c →
    (wordList s c).Nodup
  | .unit, c, _ => by
    have hunit : ∀ b : Bool, (unitWords b).Nodup := by
      intro b
      cases b <;> simp [unitWords]
    exact hunit c
  | .leaf, c, hc => (show IntSet.Canon c from hc).1.imp fun h => Int.ne_of_lt h
  | .pair h t, c, hc => by
    have hc : NodeCanon (algebra N h) (algebra N t) (den h) (Canon N h) (Canon N t) c := hc
    refine List.nodup_flatMap.mpr ⟨fun a ha => ?_, ?_⟩
    · exact (wordList_nodup h a.prime (hc.canon a ha).1).product
        (wordList_nodup t a.sub (hc.canon a ha).2)
    · refine hc.disjoint.imp fun {a b} hab w hwa hwb => ?_
      have h1 := (mem_wordList h a.prime w.1).mp (List.mem_product.mp hwa).1
      have h2 := (mem_wordList h b.prime w.1).mp (List.mem_product.mp hwb).1
      exact Set.disjoint_left.mp hab h1 h2

theorem ncard_den {N : Numbering} {s : Shape} {c : Code s} (hc : Canon N s c) :
    (den s c).ncard = (wordList s c).length := by
  classical
  have hset : den s c = ↑(wordList s c).toFinset := by
    ext w
    simp [mem_wordList]
  rw [hset, Set.ncard_coe_finset, List.toFinset_card_of_nodup (wordList_nodup s c hc)]

/-! ## The frontier of a word -/

theorem frontier_length : (s : Shape) → (w : Word s) → (frontier s w).length = s.width
  | .unit, _ => rfl
  | .leaf, _ => rfl
  | .pair h t, w => by
    rw [frontier, List.length_append, frontier_length h w.1, frontier_length t w.2]
    rfl

/-- A word is its values from left to right. -/
theorem frontier_injective : (s : Shape) → Function.Injective (frontier s)
  | .unit, _, _, _ => rfl
  | .leaf, _, _, h => List.head_eq_of_cons_eq h
  | .pair h t, v, w, he => by
    obtain ⟨h1, h2⟩ := List.append_inj he
      ((frontier_length h v.1).trans (frontier_length h w.1).symm)
    exact Prod.ext (frontier_injective h h1) (frontier_injective t h2)

/-! ## Counting -/

def IntSet.cardinal (c : IntSet) : Nat := c.length

/-- A node of any sort: an id of the intern table names both. -/
abbrev NodeKey := (s : Shape) × Code s

section Sum

variable {C D M : Type} (head : C → M → Nat × M) (tail : D → M → Nat × M)

/-- The sum over the arcs of the products of the two sides. -/
def sumArcs : List (Arc C D) → Nat → M → Nat × M
  | [], total, memo => (total, memo)
  | a :: as, total, memo =>
    let x := head a.prime memo
    let y := tail a.sub x.2
    sumArcs as (total + x.1 * y.1) y.2

end Sum

/-- The terminal has one word, the empty one. -/
def terminalCount (c : Bool) : Nat := if c = false then 0 else 1

/-- A node is counted once: the memo holds what is known. -/
def countNode {C D K : Type} [DecidableEq K] [DecidableEq C] [DecidableEq D]
    (head : C → List (K × Nat) → Nat × List (K × Nat))
    (tail : D → List (K × Nat) → Nat × List (K × Nat)) (key : K) (c : List (Arc C D))
    (memo : List (K × Nat)) : Nat × List (K × Nat) :=
  if c = [] then (0, memo) else Memo.remember key (sumArcs head tail c 0) memo

/-- The number of words of a code. A leaf theory counts its own sets: the engine is asked for
diagrams, and asks the theory for the leaf sides of their arcs. -/
def cardinalAs : (s : Shape) → Code s → List (NodeKey × Nat) → Nat × List (NodeKey × Nat)
  | .unit, c, memo => (terminalCount c, memo)
  | .leaf, c, memo => (IntSet.cardinal c, memo)
  | .pair h t, c, memo => countNode (cardinalAs h) (cardinalAs t) ⟨.pair h t, c⟩ c memo

/-- The engine's nodes by their ids, and the ids that the leaf theory gives its sets: two
tables, numbered apart. -/
structure CodeTables (N : Numbering) where
  node : Nat → Option NodeKey
  terminal : node 1 = some ⟨.unit, true⟩
  canon : ∀ i k, node i = some k → Canon N k.1 k.2
  setId : IntSet → Nat

section Engine

variable {N : Numbering} (T : CodeTables N)

/-- The node the engine reads for a code. It has no sort to tell a theory's code by: at a
bare leaf the id of the set is taken for one of its own. -/
def topNode : (s : Shape) → Code s → Option NodeKey
  | .unit, c => some ⟨.unit, c⟩
  | .leaf, c => T.node (T.setId c)
  | .pair h t, c => some ⟨.pair h t, c⟩

/-- `cardinal_exact`; an id past the end of the nodes is `none`. -/
def cardinalExact (s : Shape) (c : Code s) (memo : List (NodeKey × Nat)) :
    Option Nat × List (NodeKey × Nat) :=
  if c = (algebra N s).none then (some 0, memo)
  else
    match topNode T s c with
    | none => (none, memo)
    | some k => ((cardinalAs k.1 k.2 memo).1, (cardinalAs k.1 k.2 memo).2)

end Engine

/-- The right answer for a node. -/
def Counted (k : NodeKey) (n : Nat) : Prop := n = (wordList k.1 k.2).length

theorem sum_map_product {V W : Type} (f : V → Nat) (g : W → Nat) (vs : List V) (ws : List W) :
    ((vs ×ˢ ws).map fun w => f w.1 * g w.2).sum = (vs.map f).sum * (ws.map g).sum := by
  induction vs with
  | nil => simp
  | cons v vs ih =>
    have hrow : ((ws.map fun w => (v, w)).map fun w => f w.1 * g w.2).sum =
        f v * (ws.map g).sum := by
      rw [List.map_map]
      exact List.sum_map_mul_left ws g (f v)
    rw [List.product_cons, List.map_append, List.sum_append, ih, hrow, List.map_cons,
      List.sum_cons, Nat.add_mul]

/-- When each side gives a sum over its words, the arcs give the sum over theirs. -/
theorem sumArcs_gives {C D V W K : Type} {P : K → Nat → Prop} {wh : C → List V} {wt : D → List W}
    (f : V → Nat) (g : W → Nat) {head : C → List (K × Nat) → Nat × List (K × Nat)}
    {tail : D → List (K × Nat) → Nat × List (K × Nat)} :
    ∀ as : List (Arc C D), (∀ a ∈ as, Memo.Gives P (· = ((wh a.prime).map f).sum) (head a.prime)) →
      (∀ a ∈ as, Memo.Gives P (· = ((wt a.sub).map g).sum) (tail a.sub)) → ∀ total : Nat,
      Memo.Gives P (· = total + ((arcWords wh wt as).map fun w => f w.1 * g w.2).sum)
        (sumArcs head tail as total) := by
  intro as
  induction as with
  | nil => exact fun _ _ total => Memo.gives_pure rfl
  | cons a as ih =>
    intro hh ht total
    refine Memo.Gives.bind (hh a List.mem_cons_self) (d := fun x memo =>
      sumArcs head tail as (total + x * (tail a.sub memo).1) (tail a.sub memo).2) fun x hx => ?_
    refine Memo.Gives.bind (ht a List.mem_cons_self) (d := fun y =>
      sumArcs head tail as (total + x * y)) fun y hy => ?_
    have hsum : total + ((arcWords wh wt (a :: as)).map fun w => f w.1 * g w.2).sum =
        total + x * y + ((arcWords wh wt as).map fun w => f w.1 * g w.2).sum := by
      rw [arcWords_cons, List.map_append, List.sum_append, sum_map_product, hx, hy, Nat.add_assoc]
    rw [hsum]
    exact ih (fun b hb => hh b (List.mem_cons_of_mem a hb))
      (fun b hb => ht b (List.mem_cons_of_mem a hb)) (total + x * y)

theorem length_eq_sum {V : Type} (vs : List V) : vs.length = (vs.map fun _ => 1).sum := by
  simp

theorem gives_countNode {C D K : Type} [DecidableEq K] [DecidableEq C] [DecidableEq D]
    {head : C → List (K × Nat) → Nat × List (K × Nat)}
    {tail : D → List (K × Nat) → Nat × List (K × Nat)} {P : K → Nat → Prop} {c : List (Arc C D)}
    {k : K} (hnone : P k (0 : Nat) ∨ c ≠ []) (hsum : Memo.Gives P (P k) (sumArcs head tail c 0)) :
    Memo.Gives P (P k) (countNode head tail k c) := by
  unfold countNode
  by_cases hc : c = []
  · simp only [hc, if_true]
    exact Memo.gives_pure (hnone.resolve_right (not_not.mpr hc))
  · simp only [hc, if_false]
    exact Memo.gives_remember hsum

theorem cardinalAs_counted : (s : Shape) → (c : Code s) →
    Memo.Gives Counted (Counted ⟨s, c⟩) (cardinalAs s c)
  | .unit, c => by
    have hunit : ∀ b : Bool, terminalCount b = (unitWords b).length := by
      intro b
      cases b <;> rfl
    exact Memo.gives_pure (hunit c)
  | .leaf, _ => Memo.gives_pure rfl
  | .pair h t, c => by
    have hsum : Memo.Gives Counted (Counted ⟨.pair h t, c⟩)
        (sumArcs (cardinalAs h) (cardinalAs t) c 0) := by
      have hh : ∀ p, Memo.Gives Counted (· = ((wordList h p).map fun _ => 1).sum)
          (cardinalAs h p) := by
        intro p
        rw [← length_eq_sum]
        exact cardinalAs_counted h p
      have ht : ∀ q, Memo.Gives Counted (· = ((wordList t q).map fun _ => 1).sum)
          (cardinalAs t q) := by
        intro q
        rw [← length_eq_sum]
        exact cardinalAs_counted t q
      have hsum := sumArcs_gives (fun _ => 1) (fun _ => 1) c (fun a _ => hh a.prime)
        (fun a _ => ht a.sub) 0
      rw [Nat.zero_add, ← length_eq_sum] at hsum
      exact hsum
    refine gives_countNode ?_ hsum
    by_cases hc : c = ([] : List (Arc (Code h) (Code t)))
    · exact .inl (by rw [hc]; rfl)
    · exact .inr hc

/-! ## Listing with a budget -/

/-- The words emitted and the budget that is left. -/
structure Emitted where
  words : List (List Int)
  left : Nat

/-- One step for each element, until the budget is spent. -/
def untilSpent {α : Type} (step : α → Emitted → Emitted) : List α → Emitted → Emitted
  | [], e => e
  | a :: as, e => if e.left = 0 then e else untilSpent step as (step a e)

/-- Nothing is visited under an absent code or with a spent budget. -/
def whileLeft {C : Type} [DecidableEq C] (none c : C) (visit : Emitted → Emitted) (e : Emitted) :
    Emitted :=
  if c = none ∨ e.left = 0 then e else visit e

/-- DFS up to the budget, the continuation called on each complete word. -/
def enumWords : (s : Shape) → Code s → List Int → (List Int → Emitted → Emitted) → Emitted → Emitted
  | .unit, c, acc, k => whileLeft false c (k acc)
  | .leaf, c, acc, k =>
    whileLeft ([] : IntSet) c (untilSpent (fun v => k (acc ++ [v])) (c : IntSet))
  | .pair h t, c, acc, k =>
    whileLeft ([] : List (Arc (Code h) (Code t))) c
      (untilSpent (fun a => enumWords h a.prime acc fun acc' => enumWords t a.sub acc' k)
        (c : List (Arc (Code h) (Code t))))

/-- The word is printed, or kept, and one less is left. -/
def emit (acc : List Int) (e : Emitted) : Emitted := ⟨e.words ++ [acc], e.left - 1⟩

/-- `(get-states NAME K)`: the words of a result, up to `limit`. -/
def getStates (s : Shape) (c : Code s) (limit : Nat) : List (List Int) :=
  (enumWords s c [] emit ⟨[], limit⟩).words

/-- Up to `limit` words, one more when there are more: the budget is a 64-bit word. -/
def wordsOf (s : Shape) (c : Code s) (limit : Nat) : List (List Int) :=
  (enumWords s c [] emit ⟨[], (limit + 1) % 2 ^ 64⟩).words

section Budget

variable {α β : Type}

theorem untilSpent_spent (step : α → Emitted → Emitted) (as : List α) {e : Emitted}
    (h : e.left = 0) : untilSpent step as e = e := by
  cases as with
  | nil => rfl
  | cons a as => rw [untilSpent, if_pos h]

theorem untilSpent_append (step : α → Emitted → Emitted) (as bs : List α) :
    ∀ e, untilSpent step (as ++ bs) e = untilSpent step bs (untilSpent step as e) := by
  induction as with
  | nil => exact fun _ => rfl
  | cons a as ih =>
    intro e
    rw [List.cons_append, untilSpent, untilSpent]
    split
    · next h => rw [untilSpent_spent step bs h]
    · exact ih _

theorem untilSpent_map (step : β → Emitted → Emitted) (f : α → β) (as : List α) :
    ∀ e, untilSpent step (as.map f) e = untilSpent (fun a => step (f a)) as e := by
  induction as with
  | nil => exact fun _ => rfl
  | cons a as ih =>
    intro e
    rw [List.map_cons, untilSpent, untilSpent, ih]

/-- Loops one in the other are one loop over all there is to visit. -/
theorem untilSpent_flatMap (step : β → Emitted → Emitted) (f : α → List β) (as : List α) :
    ∀ e, untilSpent step (as.flatMap f) e = untilSpent (fun a => untilSpent step (f a)) as e := by
  induction as with
  | nil => exact fun _ => rfl
  | cons a as ih =>
    intro e
    rw [List.flatMap_cons, untilSpent_append, ih, untilSpent]
    split
    · next h => rw [untilSpent_spent step (f a) h, untilSpent_spent _ as h]
    · rfl

theorem untilSpent_congr {step step' : α → Emitted → Emitted} (h : ∀ a e, step a e = step' a e)
    (as : List α) (e : Emitted) : untilSpent step as e = untilSpent step' as e := by
  have hfun : step = step' := funext fun a => funext (h a)
  rw [hfun]

/-- What the emissions come to: the first words, as many as the budget allows. -/
theorem untilSpent_emit (ws : List (List Int)) :
    ∀ e, untilSpent emit ws e = ⟨e.words ++ ws.take e.left, e.left - ws.length⟩ := by
  induction ws with
  | nil =>
    intro e
    simp [untilSpent]
  | cons w ws ih =>
    intro e
    rw [untilSpent]
    split
    · next h =>
      obtain ⟨words, left⟩ := e
      subst h
      simp
    · next h =>
      obtain ⟨words, left⟩ := e
      have hleft : left ≠ 0 := h
      obtain ⟨n, rfl⟩ : ∃ n, left = n + 1 := ⟨left - 1, by omega⟩
      rw [ih]
      simp [emit]

theorem whileLeft_untilSpent [DecidableEq α] (step : α → Emitted → Emitted) (as : List α)
    (e : Emitted) : whileLeft [] as (untilSpent step as) e = untilSpent step as e := by
  unfold whileLeft
  split
  · next h =>
    rcases h with rfl | h
    · rfl
    · exact (untilSpent_spent step as h).symm
  · rfl

end Budget

/-- The enumeration is one loop over the listing, whatever its continuation. -/
theorem enumWords_eq : (s : Shape) → (c : Code s) → (acc : List Int) →
    (k : List Int → Emitted → Emitted) → (e : Emitted) →
    enumWords s c acc k e = untilSpent (fun w => k (acc ++ frontier s w)) (wordList s c) e
  | .unit, c, acc, k, e => by
    have hunit : ∀ b : Bool, whileLeft false b (k acc) e =
        untilSpent (fun _ : Unit => k (acc ++ [])) (unitWords b) e := by
      intro b
      cases b
      · rfl
      · by_cases h : e.left = 0 <;> simp [whileLeft, unitWords, untilSpent, h]
    exact hunit c
  | .leaf, c, acc, k, e => whileLeft_untilSpent _ (c : IntSet) e
  | .pair h t, c, acc, k, e => by
    refine (whileLeft_untilSpent _ (c : List (Arc (Code h) (Code t))) e).trans ?_
    refine Eq.trans ?_ (untilSpent_flatMap _ _ (c : List (Arc (Code h) (Code t))) e).symm
    refine untilSpent_congr (fun a e => ?_) _ _
    rw [enumWords_eq h]
    refine Eq.trans ?_ (untilSpent_flatMap _ _ (wordList h a.prime) e).symm
    refine untilSpent_congr (fun u e => ?_) _ _
    rw [enumWords_eq t]
    refine Eq.trans ?_ (untilSpent_map _ (Prod.mk u) (wordList t a.sub) e).symm
    exact untilSpent_congr (fun v e => by simp [frontier]) _ _

/-- Any budget: the first words of the listing. -/
theorem enumWords_emit (s : Shape) (c : Code s) (left : Nat) :
    (enumWords s c [] emit ⟨[], left⟩).words = ((wordList s c).map (frontier s)).take left := by
  have hmap := untilSpent_map emit (frontier s) (wordList s c) ⟨[], left⟩
  rw [untilSpent_emit] at hmap
  simp only [enumWords_eq, List.nil_append]
  rw [← hmap]
  simp

section Exact

variable {N : Numbering} {s : Shape} {c : Code s}

theorem frontiers_nodup (hc : Canon N s c) : ((wordList s c).map (frontier s)).Nodup :=
  (wordList_nodup s c hc).map (frontier_injective s)

theorem frontiers_length (hc : Canon N s c) :
    ((wordList s c).map (frontier s)).length = (den s c).ncard := by
  rw [List.length_map, ncard_den hc]

/-- The enumeration visits as many words as the limit allows, all different. -/
theorem getStates_exact (hc : Canon N s c) (limit : Nat) :
    (getStates s c limit).length = min limit (den s c).ncard ∧ (getStates s c limit).Nodup ∧
      ∀ v ∈ getStates s c limit, ∃ w ∈ den s c, frontier s w = v := by
  rw [getStates, enumWords_emit]
  refine ⟨by rw [List.length_take, frontiers_length hc], (frontiers_nodup hc).sublist
    (List.take_sublist _ _), fun v hv => ?_⟩
  obtain ⟨w, hw, rfl⟩ := List.mem_map.mp (List.mem_of_mem_take hv)
  exact ⟨w, (mem_wordList s c w).mp hw, rfl⟩

theorem wordsOf_length (hc : Canon N s c) (limit : Nat) :
    (wordsOf s c limit).length = min ((limit + 1) % 2 ^ 64) (den s c).ncard := by
  rw [wordsOf, enumWords_emit, List.length_take, frontiers_length hc]

theorem topNode_composite (T : CodeTables N) (hs : s ≠ .leaf) :
    topNode T s c = some ⟨s, c⟩ := by
  cases s with
  | unit => rfl
  | leaf => exact absurd rfl hs
  | pair h t => rfl

/-- The count of the engine, behind any memo of right counts: that of the node it reads. -/
theorem cardinalExact_counts (T : CodeTables N) (hc : Canon N s c) {memo : List (NodeKey × Nat)}
    (hmemo : Memo.Sound Counted memo) :
    ((cardinalExact T s c memo).1 = some (den s c).ncard ↔ s ≠ .leaf ∨ c = (algebra N s).none ∨
        ∃ k, topNode T s c = some k ∧ (den k.1 k.2).ncard = (den s c).ncard) ∧
    Memo.Sound Counted (cardinalExact T s c memo).2 := by
  unfold cardinalExact
  by_cases hn : c = (algebra N s).none
  · have hzero : (den s c).ncard = 0 := by
      rw [hn, (laws N s).den_none, Set.ncard_empty]
    rw [if_pos hn, hzero]
    exact ⟨⟨fun _ => .inr (.inl hn), fun _ => rfl⟩, hmemo⟩
  · rw [if_neg hn]
    have hcount : ∀ k, topNode T s c = some k → (cardinalAs k.1 k.2 memo).1 = (den k.1 k.2).ncard ∧
          Memo.Sound Counted (cardinalAs k.1 k.2 memo).2 := by
      intro k hk
      have hck : Canon N k.1 k.2 := by
        cases s with
        | unit => cases hk; exact hc
        | leaf => exact T.canon _ k hk
        | pair h t => cases hk; exact hc
      obtain ⟨hcount, hafter⟩ := cardinalAs_counted k.1 k.2 memo hmemo
      exact ⟨hcount.trans (ncard_den hck).symm, hafter⟩
    cases htop : topNode T s c with
    | none =>
      refine ⟨⟨fun h => (nomatch h), fun h => ?_⟩, hmemo⟩
      rcases h with hs | hn' | ⟨k, hk, -⟩
      · rw [topNode_composite T hs] at htop
        cases htop
      · exact absurd hn' hn
      · cases hk
    | some k =>
      obtain ⟨hk, hafter⟩ := hcount k htop
      refine ⟨⟨fun h => .inr (.inr ⟨k, rfl, hk.symm.trans (Option.some.inj h)⟩), fun h => ?_⟩,
        hafter⟩
      rcases h with hs | hn' | ⟨k', hk', hcard⟩
      · rw [topNode_composite T hs] at htop
        cases htop
        exact congrArg some hk
      · exact absurd hn' hn
      · cases hk'
        exact congrArg some (hk.trans hcard)

/-- The count is exact, behind any memo of right counts, unless the engine reads another
node for the set of a bare leaf; the enumeration visits as many words as it may; more than
`limit` words are returned exactly when there are more, unless `limit + 1` wraps around. -/
theorem counting_exact (T : CodeTables N) (hc : Canon N s c) {memo : List (NodeKey × Nat)}
    (hmemo : Memo.Sound Counted memo) {limit : Nat} (hlimit : limit < 2 ^ 64) :
    (((cardinalExact T s c memo).1 = some (den s c).ncard ↔ s ≠ .leaf ∨ c = (algebra N s).none ∨
          ∃ k, topNode T s c = some k ∧ (den k.1 k.2).ncard = (den s c).ncard) ∧
      Memo.Sound Counted (cardinalExact T s c memo).2) ∧
    (∀ K, (getStates s c K).length = min K (den s c).ncard ∧ (getStates s c K).Nodup ∧
      ∀ v ∈ getStates s c K, ∃ w ∈ den s c, frontier s w = v) ∧
    ((limit < (wordsOf s c limit).length ↔ limit < (den s c).ncard) ↔
      (limit + 1 < 2 ^ 64 ∨ (den s c).ncard ≤ limit)) := by
  refine ⟨cardinalExact_counts T hc hmemo, getStates_exact hc, ?_⟩
  rw [wordsOf_length hc]
  by_cases hwrap : limit + 1 < 2 ^ 64
  · rw [Nat.mod_eq_of_lt hwrap]
    omega
  · obtain rfl : limit = 2 ^ 64 - 1 := by omega
    rw [show (2 ^ 64 - 1 + 1) % 2 ^ 64 = 0 by rfl]
    omega

end Exact

/-! ## Sixty-four bits -/

/-- `(spine b₀ b₁ …)`. -/
def bitSpine : Nat → Shape
  | 0 => .unit
  | n + 1 => .pair .leaf (bitSpine n)

/-- Every leaf 0 or 1. -/
def allBits : (n : Nat) → Code (bitSpine n)
  | 0 => true
  | n + 1 => ([⟨([0, 1] : IntSet), allBits n⟩] : List (Arc IntSet (Code (bitSpine n))))

theorem allBits_ne (N : Numbering) : ∀ n, allBits n ≠ (algebra N (bitSpine n)).none
  | 0 => fun h => Bool.noConfusion h
  | _ + 1 => List.cons_ne_nil _ _

theorem allBits_canon (N : Numbering) : ∀ n, Canon N (bitSpine n) (allBits n)
  | 0 => trivial
  | n + 1 => by
    have hleaf : IntSet.Canon [0, 1] := by decide
    exact {
      canon := fun a ha => by
        obtain rfl := List.mem_singleton.mp ha
        exact ⟨hleaf, allBits_canon N n⟩
      prime_ne := fun a ha => by
        obtain rfl := List.mem_singleton.mp ha
        exact List.cons_ne_nil _ _
      sub_ne := fun a ha => by
        obtain rfl := List.mem_singleton.mp ha
        exact allBits_ne N n
      disjoint := List.pairwise_singleton _ _
      distinct := List.nodup_singleton _
      ordered := List.pairwise_singleton _ _ }

theorem allBits_length : ∀ n, (wordList (bitSpine n) (allBits n)).length = 2 ^ n
  | 0 => rfl
  | n + 1 => by
    have hlen := allBits_length n
    have hone : (wordList (bitSpine (n + 1)) (allBits (n + 1))).length =
        ([0, 1] ×ˢ wordList (bitSpine n) (allBits n) : List (Int × _)).length + 0 :=
      List.length_append
    rw [hone, List.length_product, hlen, pow_succ, Nat.mul_comm]
    rfl

theorem allBits_card (N : Numbering) (n : Nat) :
    (den (bitSpine n) (allBits n)).ncard = 2 ^ n := by
  rw [ncard_den (allBits_canon N n), allBits_length]

/-- The engine knows its terminal, and the theory's first set has the same id. -/
def firstCodes : CodeTables .standard where
  node i := if i = 1 then some ⟨.unit, true⟩ else none
  terminal := rfl
  canon := by
    intro i k h
    split at h
    · cases h
      trivial
    · cases h
  setId c := if c = [] then 0 else 1

/-- At the shape `x` the range 0 to 3 counts one word, the terminal's. A result with 2^64
words, asked for with the largest limit, returns none. -/
theorem counting_wrong :
    (Canon .standard .leaf ([0, 1, 2, 3] : IntSet) ∧
      (cardinalExact firstCodes .leaf ([0, 1, 2, 3] : IntSet) []).1 = some 1 ∧
      (den .leaf ([0, 1, 2, 3] : IntSet)).ncard = 4) ∧
    Canon .standard (bitSpine 64) (allBits 64) ∧
    (wordsOf (bitSpine 64) (allBits 64) (2 ^ 64 - 1)).length = 0 ∧
    2 ^ 64 - 1 < (den (bitSpine 64) (allBits 64)).ncard := by
  have hleaf : Canon .standard .leaf ([0, 1, 2, 3] : IntSet) :=
    show IntSet.Canon [0, 1, 2, 3] by decide
  refine ⟨⟨hleaf, rfl, ncard_den hleaf⟩, allBits_canon .standard 64, ?_, ?_⟩
  · rw [wordsOf_length (allBits_canon .standard 64)]
    rfl
  · rw [allBits_card .standard 64]
    decide

theorem counting_exact_bits :
    (((cardinalExact firstCodes (bitSpine 2) (allBits 2) []).1 =
          some (den (bitSpine 2) (allBits 2)).ncard ↔
        bitSpine 2 ≠ .leaf ∨ allBits 2 = (algebra .standard (bitSpine 2)).none ∨
          ∃ k, topNode firstCodes (bitSpine 2) (allBits 2) = some k ∧
            (den k.1 k.2).ncard = (den (bitSpine 2) (allBits 2)).ncard) ∧
      Memo.Sound Counted (cardinalExact firstCodes (bitSpine 2) (allBits 2) []).2) ∧
    (∀ K, (getStates (bitSpine 2) (allBits 2) K).length =
        min K (den (bitSpine 2) (allBits 2)).ncard ∧
      (getStates (bitSpine 2) (allBits 2) K).Nodup ∧
      ∀ v ∈ getStates (bitSpine 2) (allBits 2) K,
        ∃ w ∈ den (bitSpine 2) (allBits 2), frontier (bitSpine 2) w = v) ∧
    ((3 < (wordsOf (bitSpine 2) (allBits 2) 3).length ↔ 3 < (den (bitSpine 2) (allBits 2)).ncard) ↔
      (3 + 1 < 2 ^ 64 ∨ (den (bitSpine 2) (allBits 2)).ncard ≤ 3)) :=
  counting_exact firstCodes (allBits_canon .standard 2) Memo.sound_nil (by decide)

end LibHSC
