import LibHSC.Cegar.Classifier
import LibHSC.Library.Refinement

/-!
What canonicalization presents. On a complete table whose dead classes absorb,
as every table of a learner is, the canonical classifier accepts the words the
table accepts. It never has more classes than the table, and as many only when
no two classes of the table accept the same words.
-/

namespace LibHSC.Cegar

open Refinement

/-- A complete table: the first class is live, and a dead class is left by no
letter. -/
structure RawTable.Complete (t : RawTable) : Prop where
  pos : 0 < t.k
  first : t.isLive 0 = true
  target : ∀ c < t.k, ∀ a < t.nLetters, t.step c a < t.k
  dead : ∀ c < t.k, ∀ a < t.nLetters, t.isLive c = false → t.step c a = c

/-- No two classes of the table accept the same words. -/
def RawTable.Reduced (t : RawTable) : Prop :=
  ∀ c < t.k, ∀ d < t.k, c ≠ d → ∃ w : List Nat, (∀ a ∈ w, a < t.nLetters) ∧
    t.isLive (w.foldl t.step c) ≠ t.isLive (w.foldl t.step d)

theorem RawTable.Complete.foldl_lt {t : RawTable} (ht : t.Complete) {w : List Nat} :
    ∀ {c : Nat}, c < t.k → (∀ a ∈ w, a < t.nLetters) → w.foldl t.step c < t.k := by
  induction w with
  | nil => exact fun hc _ => hc
  | cons a w ih =>
    intro c hc hw
    obtain ⟨ha, hw⟩ := List.forall_mem_cons.mp hw
    exact ih (ht.target c hc a ha) hw

/-! ## The refinement -/

section Moore

variable {t : RawTable}

/-- The block of a class. -/
def blockOf (part : List Nat) (c : Nat) : Nat := part.getD c 0

/-- The dead classes are one block, and no live class is in it. -/
structure Separated (t : RawTable) (part : List Nat) : Prop where
  dead : ∀ c < t.k, ∀ d < t.k, t.isLive c = false → t.isLive d = false →
    blockOf part c = blockOf part d
  live : ∀ c < t.k, ∀ d < t.k, t.isLive c = true → t.isLive d = false →
    blockOf part c ≠ blockOf part d

theorem blockOf_refine {part : List Nat} {c : Nat} (hc : c < t.k) :
    blockOf (refineBlocks t part) c = if t.isLive c = true then
      (signatures t part).idxOf (signature t part c) else (signatures t part).length := by
  simp [blockOf, refineBlocks, hc]

theorem mem_signatures {part sig : List Nat} :
    sig ∈ signatures t part ↔ ∃ c < t.k, t.isLive c = true ∧ signature t part c = sig := by
  rw [signatures, List.mem_eraseDups, List.mem_map]
  constructor
  · rintro ⟨c, hc, rfl⟩
    obtain ⟨hc, hl⟩ := List.mem_filter.mp hc
    exact ⟨c, List.mem_range.mp hc, hl, rfl⟩
  · rintro ⟨c, hc, hl, rfl⟩
    exact ⟨c, List.mem_filter.mpr ⟨List.mem_range.mpr hc, hl⟩, rfl⟩

theorem nodup_signatures (part : List Nat) : (signatures t part).Nodup := nodup_eraseDups _

theorem idxOf_signature_lt {part : List Nat} {c : Nat} (hc : c < t.k) (hl : t.isLive c = true) :
    (signatures t part).idxOf (signature t part c) < (signatures t part).length :=
  List.idxOf_lt_length_iff.mpr (mem_signatures.mpr ⟨c, hc, hl, rfl⟩)

/-- A live class shares its block with the live classes of its signature. -/
theorem signature_eq_of_refine {part : List Nat} {c d : Nat} (hc : c < t.k) (hd : d < t.k)
    (hl : t.isLive c = true) (hl' : t.isLive d = true)
    (h : blockOf (refineBlocks t part) c = blockOf (refineBlocks t part) d) :
    signature t part c = signature t part d := by
  rw [blockOf_refine hc, blockOf_refine hd, if_pos hl, if_pos hl'] at h
  exact (List.idxOf_inj (mem_signatures.mpr ⟨c, hc, hl, rfl⟩)).mp h

theorem separated_refine (part : List Nat) : Separated t (refineBlocks t part) where
  dead := by
    intro c hc d hd hl hl'
    rw [blockOf_refine hc, blockOf_refine hd, if_neg (by simp [hl]), if_neg (by simp [hl'])]
  live := by
    intro c hc d hd hl hl'
    rw [blockOf_refine hc, blockOf_refine hd, if_pos hl, if_neg (by simp [hl'])]
    exact Nat.ne_of_lt (idxOf_signature_lt hc hl)

/-- A round of the refinement is finer. -/
theorem refine_finer {part : List Nat} (hs : Separated t part) :
    Finer (Finset.range t.k) (blockOf (refineBlocks t part)) (blockOf part) := by
  intro c hc d hd h
  have hc := Finset.mem_range.mp hc
  have hd := Finset.mem_range.mp hd
  have hr := separated_refine (t := t) part
  cases hlc : t.isLive c with
  | false =>
    cases hld : t.isLive d with
    | false => exact hs.dead c hc d hd hlc hld
    | true => exact absurd h.symm (hr.live d hd c hc hld hlc)
  | true =>
    cases hld : t.isLive d with
    | false => exact absurd h (hr.live c hc d hd hlc hld)
    | true => exact (List.cons.inj (signature_eq_of_refine hc hd hlc hld h)).1

theorem hasDead_iff : hasDead t = true ↔ ∃ c < t.k, t.isLive c = false := by
  simp [hasDead]

/-- The blocks of a round are numbered without a gap. -/
theorem image_refine (part : List Nat) :
    (Finset.range t.k).image (blockOf (refineBlocks t part)) =
      Finset.range (blockCount t part) := by
  ext b
  rw [Finset.mem_image, Finset.mem_range, blockCount]
  constructor
  · rintro ⟨c, hc, rfl⟩
    have hc := Finset.mem_range.mp hc
    rw [blockOf_refine hc]
    split
    · next hl => exact Nat.lt_add_right _ (idxOf_signature_lt hc hl)
    · next hl =>
      rw [if_pos (hasDead_iff.mpr ⟨c, hc, by simpa using hl⟩)]
      exact Nat.lt_succ_self _
  · intro hb
    by_cases hlt : b < (signatures t part).length
    · obtain ⟨c, hc, hl, hsig⟩ := mem_signatures.mp (List.getElem_mem hlt)
      refine ⟨c, Finset.mem_range.mpr hc, ?_⟩
      rw [blockOf_refine hc, if_pos hl, hsig]
      exact (nodup_signatures part).idxOf_getElem b hlt
    · split at hb
      · next hdead =>
        obtain ⟨c, hc, hl⟩ := hasDead_iff.mp hdead
        refine ⟨c, Finset.mem_range.mpr hc, ?_⟩
        rw [blockOf_refine hc, if_neg (by simp [hl])]
        omega
      · omega

/-- What the refinement ends with: blocks numbered without a gap, the dead classes
in the last one, and one successor block per letter. -/
structure Settled (t : RawTable) (part : List Nat) (n : Nat) : Prop where
  length : part.length = t.k
  image : (Finset.range t.k).image (blockOf part) = Finset.range n
  last : ∀ c < t.k, t.isLive c = false → blockOf part c = n - 1
  separated : Separated t part
  stable : ∀ c < t.k, ∀ d < t.k, blockOf part c = blockOf part d → ∀ a < t.nLetters,
    blockOf part (t.step c a) = blockOf part (t.step d a)

/-- A round that adds no block has settled. -/
theorem settled_refine (ht : t.Complete) {part : List Nat} (hs : Separated t part)
    (hn : blockCount t part = ((Finset.range t.k).image (blockOf part)).card) :
    Settled t (refineBlocks t part) (blockCount t part) where
  length := by simp [refineBlocks]
  image := image_refine part
  last := by
    intro c hc hl
    rw [blockOf_refine hc, if_neg (by simp [hl]), blockCount, if_pos (hasDead_iff.mpr ⟨c, hc, hl⟩)]
    rfl
  separated := separated_refine part
  stable := by
    have hback : Finer (Finset.range t.k) (blockOf part) (blockOf (refineBlocks t part)) := by
      refine (refine_finer hs).symm_of_card ?_
      rw [image_refine, Finset.card_range, hn]
    intro c hc d hd h a ha
    have hr := separated_refine (t := t) part
    cases hlc : t.isLive c with
    | false =>
      cases hld : t.isLive d with
      | false => rw [ht.dead c hc a ha hlc, ht.dead d hd a ha hld, h]
      | true => exact absurd h.symm (hr.live d hd c hc hld hlc)
    | true =>
      cases hld : t.isLive d with
      | false => exact absurd h (hr.live c hc d hd hlc hld)
      | true =>
        have hsig := (List.cons.inj (signature_eq_of_refine hc hd hlc hld h)).2
        refine hback _ (Finset.mem_range.mpr (ht.target c hc a ha)) _
          (Finset.mem_range.mpr (ht.target d hd a ha)) ?_
        exact List.map_inj_left.mp hsig a (List.mem_range.mpr ha)

theorem card_blocks_le (part : List Nat) :
    ((Finset.range t.k).image (blockOf part)).card ≤ t.k := by
  simpa using Finset.card_image_le (s := Finset.range t.k) (f := blockOf part)

/-- The refinement settles: a round that goes on has added a block, and there are
no more blocks than classes. -/
theorem moore_settled (ht : t.Complete) {fuel : Nat} : ∀ {part : List Nat} {n : Nat},
    Separated t part → n = ((Finset.range t.k).image (blockOf part)).card →
    t.k < fuel + n → Settled t (moore t fuel part n).1 (moore t fuel part n).2 := by
  induction fuel with
  | zero =>
    intro part n _ hn hfuel
    have hle := card_blocks_le (t := t) part
    omega
  | succ fuel ih =>
    intro part n hs hn hfuel
    rw [moore]
    split
    · next heq =>
      have hset := settled_refine ht hs (heq.trans hn)
      rw [heq] at hset
      exact hset
    · next hne =>
      have hle : n ≤ blockCount t part := by
        rw [hn, ← Finset.card_range (blockCount t part), ← image_refine]
        exact (refine_finer hs).card_le
      refine ih (separated_refine part) ?_ (by omega)
      rw [image_refine, Finset.card_range]

theorem partition_settled (ht : t.Complete) : Settled t (partition t).1 (partition t).2 := by
  have hblock : ∀ c < t.k, blockOf ((List.range t.k).map fun c => if t.isLive c then 0 else 1) c =
      if t.isLive c then 0 else 1 := by
    intro c hc
    simp [blockOf, hc]
  refine moore_settled ht ⟨?_, ?_⟩ ?_ (by omega)
  · intro c hc d hd hl hl'
    rw [hblock c hc, hblock d hd, hl, hl']
  · intro c hc d hd hl hl'
    rw [hblock c hc, hblock d hd, hl, hl']
    decide
  · -- the first class is live, so one block is the live one
    have himage : (Finset.range t.k).image
        (blockOf ((List.range t.k).map fun c => if t.isLive c then 0 else 1)) =
        if hasDead t then {0, 1} else {0} := by
      ext b
      rw [Finset.mem_image]
      constructor
      · rintro ⟨c, hc, rfl⟩
        have hc := Finset.mem_range.mp hc
        rw [hblock c hc]
        cases hl : t.isLive c with
        | true => split <;> simp
        | false =>
          rw [if_pos (hasDead_iff.mpr ⟨c, hc, hl⟩)]
          simp
      · have hzero : ∃ c ∈ Finset.range t.k,
            blockOf ((List.range t.k).map fun c => if t.isLive c then 0 else 1) c = 0 :=
          ⟨0, Finset.mem_range.mpr ht.pos, by rw [hblock 0 ht.pos, if_pos ht.first]⟩
        split
        · next hdead =>
          obtain ⟨c, hc, hl⟩ := hasDead_iff.mp hdead
          intro hb
          rcases Finset.mem_insert.mp hb with rfl | hb
          · exact hzero
          · obtain rfl := Finset.mem_singleton.mp hb
            exact ⟨c, Finset.mem_range.mpr hc, by rw [hblock c hc, hl]; rfl⟩
        · intro hb
          obtain rfl := Finset.mem_singleton.mp hb
          exact hzero
    rw [himage]
    split <;> rfl

theorem Settled.le {part : List Nat} {n : Nat} (hs : Settled t part n) : n ≤ t.k := by
  have hle := card_blocks_le (t := t) part
  rwa [hs.image, Finset.card_range] at hle

theorem Settled.blockOf_lt {part : List Nat} {n c : Nat} (hs : Settled t part n) (hc : c < t.k) :
    blockOf part c < n := by
  have hmem := Finset.mem_image_of_mem (blockOf part) (Finset.mem_range.mpr hc)
  rw [hs.image] at hmem
  exact Finset.mem_range.mp hmem

/-- Classes in one block accept the same words. By induction on the word. -/
theorem Settled.live_foldl {part : List Nat} {n : Nat} (ht : t.Complete) (hs : Settled t part n)
    {w : List Nat} : ∀ {c d : Nat}, c < t.k → d < t.k → (∀ a ∈ w, a < t.nLetters) →
    blockOf part c = blockOf part d →
    t.isLive (w.foldl t.step c) = t.isLive (w.foldl t.step d) := by
  induction w with
  | nil =>
    intro c d hc hd _ h
    show t.isLive c = t.isLive d
    cases hlc : t.isLive c with
    | true =>
      cases hld : t.isLive d with
      | true => rfl
      | false => exact absurd h (hs.separated.live c hc d hd hlc hld)
    | false =>
      cases hld : t.isLive d with
      | false => rfl
      | true => exact absurd h.symm (hs.separated.live d hd c hc hld hlc)
  | cons a w ih =>
    intro c d hc hd hw h
    obtain ⟨ha, hw⟩ := List.forall_mem_cons.mp hw
    exact ih (ht.target c hc a ha) (ht.target d hd a ha) hw (hs.stable c hc d hd h a ha)

/-- A reduced table keeps its classes apart. -/
theorem Settled.injective {part : List Nat} {n : Nat} (ht : t.Complete) (hs : Settled t part n)
    (hred : t.Reduced) {c d : Nat} (hc : c < t.k) (hd : d < t.k)
    (h : blockOf part c = blockOf part d) : c = d := by
  by_contra hne
  obtain ⟨w, hw, hdiff⟩ := hred c hc d hd hne
  exact hdiff (hs.live_foldl ht hc hd hw h)

theorem Settled.card_of_reduced {part : List Nat} {n : Nat} (ht : t.Complete)
    (hs : Settled t part n) (hred : t.Reduced) : n = t.k := by
  have hcard : ((Finset.range t.k).image (blockOf part)).card = t.k := by
    rw [Finset.card_image_of_injOn, Finset.card_range]
    intro c hc d hd h
    exact hs.injective ht hred (Finset.mem_range.mp hc) (Finset.mem_range.mp hd) h
  rwa [hs.image, Finset.card_range] at hcard

end Moore

/-! ## The blocks in the order of their access words -/

section Order

variable {t : RawTable}

/-- The block of a class in the settled partition. -/
def settledBlock (t : RawTable) (c : Nat) : Nat := blockOf (partition t).1 c

theorem deadBlock_iff (ht : t.Complete) {c : Nat} (hc : c < t.k) :
    deadBlock t = some (settledBlock t c) ↔ t.isLive c = false := by
  have hs := partition_settled ht
  unfold deadBlock
  constructor
  · intro h
    split at h
    · next hdead =>
      obtain ⟨d, hd, hl⟩ := hasDead_iff.mp hdead
      have heq : settledBlock t c = settledBlock t d := by
        rw [← Option.some.inj h]
        exact (hs.last d hd hl).symm
      cases hlc : t.isLive c with
      | false => rfl
      | true => exact absurd heq (hs.separated.live c hc d hd hlc hl)
    · cases h
  · intro hl
    rw [if_pos (hasDead_iff.mpr ⟨c, hc, hl⟩)]
    exact congrArg some (hs.last c hc hl).symm

/-- The first class of a block is one of its classes. -/
theorem idxOf_settledBlock (ht : t.Complete) {c : Nat} (hc : c < t.k) :
    (partition t).1.idxOf (settledBlock t c) < t.k ∧
      settledBlock t ((partition t).1.idxOf (settledBlock t c)) = settledBlock t c := by
  have hlen := (partition_settled ht).length
  have hmem : settledBlock t c ∈ (partition t).1 := by
    have hlt : c < (partition t).1.length := by omega
    have hget : settledBlock t c = (partition t).1[c] := by simp [settledBlock, blockOf, hlt]
    rw [hget]
    exact List.getElem_mem hlt
  have hlt := List.idxOf_lt_length_iff.mpr hmem
  refine ⟨by omega, ?_⟩
  have hget : (partition t).1[(partition t).1.idxOf (settledBlock t c)]? =
      some (settledBlock t c) := by
    rw [List.getElem?_eq_getElem hlt, List.getElem_idxOf hlt]
  show (partition t).1.getD _ 0 = _
  rw [List.getD_eq_getElem?_getD, hget]
  rfl

/-- A live block steps as each of its classes; the dead one has no successor. -/
theorem blockStep_live (ht : t.Complete) {c a : Nat} (hc : c < t.k) (ha : a < t.nLetters)
    (hl : t.isLive c = true) :
    blockStep t (settledBlock t c) a = some (settledBlock t (t.step c a)) := by
  obtain ⟨hlt, heq⟩ := idxOf_settledBlock ht hc
  have hs := partition_settled ht
  have hne : deadBlock t ≠ some (settledBlock t c) := by
    rw [Ne, deadBlock_iff ht hc, hl]
    decide
  have hstep := ht.target _ hlt a ha
  have hlen : t.step ((partition t).1.idxOf (settledBlock t c)) a < (partition t).1.length := by
    rw [hs.length]
    exact hstep
  have hstable : settledBlock t (t.step ((partition t).1.idxOf (settledBlock t c)) a) =
      settledBlock t (t.step c a) := hs.stable _ hlt c hc heq a ha
  rw [blockStep, if_neg hne, List.getElem?_eq_getElem hlen, ← hstable]
  refine congrArg some ?_
  show _ = (partition t).1.getD _ 0
  rw [List.getD_eq_getElem?_getD, List.getElem?_eq_getElem hlen]
  rfl

theorem blockStep_dead (ht : t.Complete) {c : Nat} (hc : c < t.k) (hl : t.isLive c = false)
    (a : Nat) : blockStep t (settledBlock t c) a = none := by
  rw [blockStep, if_pos ((deadBlock_iff ht hc).mpr hl)]

/-- The blocks of the canonical presentation, in order. -/
def blockOrder (t : RawTable) : List Nat := (reachedBlocks t).map Prod.fst

theorem exists_class (ht : t.Complete) {b : Nat} (hb : b < (partition t).2) :
    ∃ c < t.k, settledBlock t c = b := by
  have hmem : b ∈ (Finset.range t.k).image (blockOf (partition t).1) := by
    rw [(partition_settled ht).image]
    exact Finset.mem_range.mpr hb
  obtain ⟨c, hc, rfl⟩ := Finset.mem_image.mp hmem
  exact ⟨c, Finset.mem_range.mp hc, rfl⟩

theorem blockStep_lt (ht : t.Complete) : ∀ b ∈ List.range (partition t).2, ∀ a b',
    blockStep t b a = some b' → a ∈ List.range t.nLetters → b' ∈ List.range (partition t).2 := by
  intro b hb a b' h ha
  obtain ⟨c, hc, rfl⟩ := exists_class ht (List.mem_range.mp hb)
  have ha := List.mem_range.mp ha
  cases hl : t.isLive c with
  | false =>
    rw [blockStep_dead ht hc hl] at h
    cases h
  | true =>
    rw [blockStep_live ht hc ha hl] at h
    cases h
    exact List.mem_range.mpr ((partition_settled ht).blockOf_lt (ht.target c hc a ha))

/-- The walk that numbers the blocks. -/
theorem reachedBlocks_walk (ht : t.Complete) :
    Explore.explore (blockStep t) (fun _ => false) (fun _ => false) (List.range t.nLetters)
      (t.k + 2) (settledBlock t 0) = some (.closed (reachedBlocks t)) := by
  have hs := partition_settled ht
  have hinit : settledBlock t 0 ∈ List.range (partition t).2 :=
    List.mem_range.mpr (hs.blockOf_lt ht.pos)
  have hfuel : (List.range (partition t).2).length < t.k + 2 := by
    have hle := hs.le
    rw [List.length_range]
    omega
  have hsome : (Explore.explore (blockStep t) (fun _ => false) (fun _ => false)
      (List.range t.nLetters) (t.k + 2) (settledBlock t 0)).isSome = true :=
    Explore.explore_isSome hinit (blockStep_lt ht) hfuel
  obtain ⟨o, ho⟩ := Option.isSome_iff_exists.mp hsome
  cases o with
  | found w st =>
    obtain ⟨_, _, hgoal, _⟩ := Explore.explore_found ho
    cases hgoal
  | capped st => exact absurd ho (Explore.explore_not_capped fun _ => rfl)
  | closed st =>
    have hst : reachedBlocks t = st := by
      unfold reachedBlocks
      rw [show (partition t).1.getD 0 0 = settledBlock t 0 from rfl, ho]
    rw [ho, hst]

/-- The blocks reached are distinct blocks, the one of the empty word among them,
and closed under the steps. -/
theorem blockOrder_spec (ht : t.Complete) :
    (blockOrder t).Nodup ∧ (∀ b ∈ blockOrder t, b < (partition t).2) ∧
      (blockOrder t)[0]? = some (settledBlock t 0) ∧
      ∀ b ∈ blockOrder t, ∀ a < t.nLetters, ∀ b', blockStep t b a = some b' →
        b' ∈ blockOrder t := by
  have hinit : settledBlock t 0 ∈ List.range (partition t).2 :=
    List.mem_range.mpr ((partition_settled ht).blockOf_lt ht.pos)
  have hwalk := reachedBlocks_walk ht
  obtain ⟨h1, h2⟩ := Explore.explore_inside hinit (blockStep_lt ht) hwalk
  obtain ⟨h3, h4⟩ := Explore.explore_complete hwalk
  refine ⟨h1, fun b hb => List.mem_range.mp (h2 b hb), ?_,
    fun b hb a ha b' hb' => h4 b hb a (List.mem_range.mpr ha) b' hb'⟩
  rw [blockOrder, List.getElem?_map, h3]
  rfl

/-- Every word leads to a recorded block. By induction on the word, from its end. -/
theorem settledBlock_mem (ht : t.Complete) {w : List Nat} :
    (∀ a ∈ w, a < t.nLetters) → settledBlock t (t.classify w) ∈ blockOrder t := by
  obtain ⟨-, -, hfirst, hclosed⟩ := blockOrder_spec ht
  induction w using List.reverseRecOn with
  | nil => exact fun _ => List.mem_of_getElem? hfirst
  | append_singleton w a ih =>
    intro hw
    have hw' : ∀ x ∈ w, x < t.nLetters := fun x hx => hw x (List.mem_append_left _ hx)
    have ha : a < t.nLetters := hw a (by simp)
    have hc : t.classify w < t.k := ht.foldl_lt ht.pos hw'
    have hsnoc : t.classify (w ++ [a]) = t.step (t.classify w) a := by simp [RawTable.classify]
    rw [hsnoc]
    cases hl : t.isLive (t.classify w) with
    | false =>
      rw [ht.dead _ hc a ha hl]
      exact ih hw'
    | true => exact hclosed _ (ih hw') a ha _ (blockStep_live ht hc ha hl)

end Order

/-! ## The presentation -/

/-- A classifier that presents a table: it accepts the same words, with no more
classes, and with as many when the table is reduced and every class is reached. -/
structure Presents (t : RawTable) (h : Classifier) : Prop where
  letters : h.nLetters = t.nLetters
  pos : 0 < h.k
  target : ∀ c < h.k, ∀ a < t.nLetters, h.step c a < h.k
  accepts : ∀ w, (∀ a ∈ w, a < t.nLetters) → h.accepts w = t.isLive (t.classify w)
  size : h.k ≤ t.k
  two : ∀ w, (∀ a ∈ w, a < t.nLetters) → h.accepts w = false → 2 ≤ h.k
  full : t.Reduced → (∀ c < t.k, ∃ w, (∀ a ∈ w, a < t.nLetters) ∧ t.classify w = c) → h.k = t.k

section Present

variable {t : RawTable}

/-- The entry of the canonical table for a block and a letter. -/
def nextClass (t : RawTable) (order : List Nat) (block a : Nat) : Nat :=
  match blockStep t block a with
  | none => order.idxOf block
  | some next => order.idxOf next

theorem canonicalAct_eq (order : List Nat) : canonicalAct t order =
    order.flatMap fun block => (List.range t.nLetters).map (nextClass t order block) := rfl

theorem canonicalize_step_eq {b a : Nat} (ha : a < t.nLetters) (hb : b ∈ blockOrder t) :
    (canonicalize t).step ((blockOrder t).idxOf b) a = nextClass t (blockOrder t) b a := by
  have hlt := List.idxOf_lt_length_iff.mpr hb
  have hget : (blockOrder t)[(blockOrder t).idxOf b]? = some b := by
    rw [List.getElem?_eq_getElem hlt, List.getElem_idxOf hlt]
  show (canonicalAct t (blockOrder t)).getD (_ * t.nLetters + a) 0 = _
  rw [canonicalAct_eq, List.getD_eq_getElem?_getD, getElem?_flatMap_range _ _ ha, hget]
  rfl

theorem canonicalize_step (ht : t.Complete) {c a : Nat} (hc : c < t.k)
    (hmem : settledBlock t c ∈ blockOrder t) (ha : a < t.nLetters) :
    (canonicalize t).step ((blockOrder t).idxOf (settledBlock t c)) a =
      (blockOrder t).idxOf (settledBlock t (t.step c a)) := by
  rw [canonicalize_step_eq ha hmem, nextClass]
  cases hl : t.isLive c with
  | false => rw [blockStep_dead ht hc hl, ht.dead c hc a ha hl]
  | true => rw [blockStep_live ht hc ha hl]

/-- The class of a word is the position of its block. By induction on the word,
from its end. -/
theorem canonicalize_classify (ht : t.Complete) {w : List Nat} :
    (∀ a ∈ w, a < t.nLetters) →
    (canonicalize t).classify w = (blockOrder t).idxOf (settledBlock t (t.classify w)) := by
  obtain ⟨hnd, -, hfirst, -⟩ := blockOrder_spec ht
  induction w using List.reverseRecOn with
  | nil =>
    intro _
    obtain ⟨hlen, hget⟩ := List.getElem?_eq_some_iff.mp hfirst
    show 0 = (blockOrder t).idxOf (settledBlock t 0)
    rw [← hget, hnd.idxOf_getElem]
  | append_singleton w a ih =>
    intro hw
    have hw' : ∀ x ∈ w, x < t.nLetters := fun x hx => hw x (List.mem_append_left _ hx)
    have hsnoc : t.classify (w ++ [a]) = t.step (t.classify w) a := by simp [RawTable.classify]
    rw [classify_snoc, ih hw', hsnoc]
    exact canonicalize_step ht (ht.foldl_lt ht.pos hw') (settledBlock_mem ht hw') (hw a (by simp))

theorem canonicalize_live (ht : t.Complete) {c : Nat} (hc : c < t.k)
    (hmem : settledBlock t c ∈ blockOrder t) :
    (canonicalize t).live ((blockOrder t).idxOf (settledBlock t c)) = t.isLive c := by
  have hdead : (canonicalize t).dead = (deadBlock t).bind fun d =>
      if d ∈ blockOrder t then some ((blockOrder t).idxOf d) else none := rfl
  have hiff : (canonicalize t).dead = some ((blockOrder t).idxOf (settledBlock t c)) ↔
      deadBlock t = some (settledBlock t c) := by
    rw [hdead, Option.bind_eq_some_iff]
    constructor
    · rintro ⟨d, hd, h⟩
      split at h
      · next hin =>
        rw [hd, (List.idxOf_inj hin).mp (Option.some.inj h)]
      · cases h
    · intro h
      exact ⟨_, h, if_pos hmem⟩
  rw [Classifier.live, Bool.eq_iff_iff, decide_eq_true_iff, Ne,
    hiff.trans (deadBlock_iff ht hc), Bool.not_eq_false]

/-- The canonical classifier presents its table. -/
theorem canonicalize_presents (ht : t.Complete) : Presents t (canonicalize t) := by
  obtain ⟨hnd, hlt, hfirst, hclosed⟩ := blockOrder_spec ht
  have hs := partition_settled ht
  have hk : (canonicalize t).k = (blockOrder t).length := rfl
  have hle : (blockOrder t).length ≤ (partition t).2 := by
    have hsub : (blockOrder t).length ≤ (List.range (partition t).2).length :=
      List.Nodup.length_le_of_subset hnd fun b hb => List.mem_range.mpr (hlt b hb)
    rwa [List.length_range] at hsub
  have haccepts : ∀ w, (∀ a ∈ w, a < t.nLetters) →
      (canonicalize t).accepts w = t.isLive (t.classify w) := by
    intro w hw
    rw [Classifier.accepts, canonicalize_classify ht hw]
    exact canonicalize_live ht (ht.foldl_lt ht.pos hw) (settledBlock_mem ht hw)
  refine ⟨rfl, ?_, ?_, haccepts, hle.trans hs.le, ?_, ?_⟩
  · exact (List.getElem?_eq_some_iff.mp hfirst).1
  · intro b hb a ha
    have hmem : (blockOrder t)[b] ∈ blockOrder t := List.getElem_mem hb
    rw [← hnd.idxOf_getElem b hb, canonicalize_step_eq ha hmem, nextClass]
    split
    · exact List.idxOf_lt_length_iff.mpr hmem
    · next b' hb' => exact List.idxOf_lt_length_iff.mpr (hclosed _ hmem a ha b' hb')
  · -- a rejected word leads to the dead block, the empty one to a live block
    intro w hw hrej
    have hdead := settledBlock_mem ht hw
    have hc := ht.foldl_lt ht.pos hw
    rw [haccepts w hw] at hrej
    have hne : settledBlock t 0 ≠ settledBlock t (t.classify w) :=
      hs.separated.live 0 ht.pos _ hc ht.first hrej
    show [settledBlock t 0, settledBlock t (t.classify w)].length ≤ (blockOrder t).length
    refine List.Nodup.length_le_of_subset (by simpa using hne) fun b hb => ?_
    rcases List.mem_pair.mp hb with rfl | rfl
    · exact List.mem_of_getElem? hfirst
    · exact hdead
  · intro hred hreach
    refine le_antisymm (hle.trans hs.le) ?_
    rw [hk, ← hs.card_of_reduced ht hred, ← List.length_range (n := (partition t).2)]
    refine List.Nodup.length_le_of_subset List.nodup_range fun b hb => ?_
    obtain ⟨c, hc, rfl⟩ := exists_class ht (List.mem_range.mp hb)
    obtain ⟨w, hw, rfl⟩ := hreach c hc
    exact settledBlock_mem ht hw

end Present

end LibHSC.Cegar
