import LibHSC.Cegar.Canonical
import LibHSC.Library.Shortlex

/-!
The canonical presentation of a language. Over any class table, with dead classes that
may be left again and a dead first class, `canonicalize` gives the one classifier of the
words all of whose beginnings are live that is reduced and numbered by least access
words. Equal languages are equal bytes.
-/

namespace LibHSC.Cegar

open Explore (Before AtMost)

/-! ## The language of a table -/

/-- A class table as it can be given: one row of successors per class. -/
structure RawTable.WF (t : RawTable) : Prop where
  pos : 0 < t.k
  small : t.k < 2147483648
  letters : t.nLetters ≤ 65536
  size : t.act.length = t.k * t.nLetters
  lives : t.live.length = t.k
  target : ∀ c ∈ t.act, c < t.k

namespace RawTable

/-- A word over the letters of the table. -/
def IsWord (t : RawTable) (w : List Nat) : Prop := ∀ a ∈ w, a < t.nLetters

/-- The words all of whose beginnings are live. -/
def Accepts (t : RawTable) (w : List Nat) : Prop :=
  ∀ u, u <+: w → t.isLive (t.classify u) = true

/-- The table with its dead classes left by no letter. -/
def absorbed (t : RawTable) : RawTable :=
  { t with act := (List.range t.k).flatMap fun c => (List.range t.nLetters).map fun a =>
      if t.isLive c then t.step c a else c }

variable {t : RawTable}

theorem step_lt (ht : t.WF) {c a : Nat} (hc : c < t.k) (ha : a < t.nLetters) :
    t.step c a < t.k := by
  have hlt : c * t.nLetters + a < t.act.length := by
    rw [ht.size]
    calc c * t.nLetters + a < c * t.nLetters + t.nLetters := Nat.add_lt_add_left ha _
      _ = (c + 1) * t.nLetters := (Nat.succ_mul _ _).symm
      _ ≤ t.k * t.nLetters := Nat.mul_le_mul_right _ hc
  rw [step, List.getD_eq_getElem?_getD, List.getElem?_eq_getElem hlt]
  exact ht.target _ (List.getElem_mem hlt)

theorem absorbed_step {c a : Nat} (hc : c < t.k) (ha : a < t.nLetters) :
    t.absorbed.step c a = if t.isLive c then t.step c a else c := by
  show (((List.range t.k).flatMap _).getD (c * t.nLetters + a) 0) = _
  rw [List.getD_eq_getElem?_getD, Refinement.getElem?_flatMap_range _ _ ha, List.getElem?_range hc]
  rfl

theorem absorbed_complete (ht : t.WF) (hfirst : t.isLive 0 = true) : t.absorbed.Complete where
  pos := ht.pos
  first := hfirst
  target := by
    intro c hc a ha
    rw [absorbed_step (t := t) hc ha]
    split
    · exact step_lt ht hc ha
    · exact hc
  dead := by
    intro c hc a ha hl
    have hl : t.isLive c = false := hl
    rw [absorbed_step (t := t) hc ha, hl]
    rfl

theorem classify_snoc (w : List Nat) (a : Nat) :
    t.classify (w ++ [a]) = t.step (t.classify w) a := by
  simp [classify]

theorem Accepts.shorter {u w : List Nat} (h : t.Accepts w) (hu : u <+: w) : t.Accepts u :=
  fun v hv => h v (hv.trans hu)

theorem accepts_snoc {w : List Nat} {a : Nat} :
    t.Accepts (w ++ [a]) ↔ t.Accepts w ∧ t.isLive (t.classify (w ++ [a])) = true := by
  constructor
  · intro h
    exact ⟨h.shorter (List.prefix_append w [a]), h _ List.prefix_rfl⟩
  · rintro ⟨h, hl⟩ u hu
    rcases List.prefix_concat_iff.mp hu with rfl | hu
    · exact hl
    · exact h u hu

/-- An accepted word leads where it led, any other to a dead class. -/
theorem absorbed_classify (ht : t.WF) {w : List Nat} (hw : t.IsWord w) :
    t.absorbed.classify w < t.k ∧ (t.isLive (t.absorbed.classify w) = true ↔ t.Accepts w) ∧
      (t.Accepts w → t.absorbed.classify w = t.classify w) := by
  induction w using List.reverseRecOn with
  | nil =>
    refine ⟨ht.pos, ⟨fun h u hu => ?_, fun h => h [] List.prefix_rfl⟩, fun _ => rfl⟩
    rwa [List.prefix_nil.mp hu]
  | append_singleton w a ih =>
    obtain ⟨hlt, hiff, hsame⟩ := ih fun b hb => hw b (List.mem_append_left _ hb)
    have ha : a < t.nLetters := hw a (by simp)
    rw [classify_snoc, absorbed_step hlt ha]
    by_cases hacc : t.Accepts w
    · rw [if_pos (hiff.mpr hacc), hsame hacc, ← classify_snoc, accepts_snoc]
      refine ⟨?_, by simp [hacc], fun _ => rfl⟩
      rw [classify_snoc, ← hsame hacc]
      exact step_lt ht hlt ha
    · rw [if_neg (mt hiff.mp hacc), accepts_snoc]
      exact ⟨hlt, ⟨fun h => absurd (hiff.mp h) hacc, fun h => absurd h.1 hacc⟩,
        fun h => absurd h.1 hacc⟩

end RawTable

/-! ## Absorbing the dead classes changes no presentation -/

section Absorb

variable {t : RawTable}

theorem signature_absorbed {part : List Nat} {c : Nat} (hc : c < t.k) (hl : t.isLive c = true) :
    signature t.absorbed part c = signature t part c := by
  unfold signature
  refine congrArg _ (List.map_congr_left fun a ha => ?_)
  rw [RawTable.absorbed_step hc (List.mem_range.mp ha), if_pos hl]

theorem signatures_absorbed (part : List Nat) :
    signatures t.absorbed part = signatures t part := by
  unfold signatures
  refine congrArg _ (List.map_congr_left fun c hc => ?_)
  obtain ⟨hc, hl⟩ := List.mem_filter.mp hc
  exact signature_absorbed (List.mem_range.mp hc) hl

theorem refineBlocks_absorbed (part : List Nat) :
    refineBlocks t.absorbed part = refineBlocks t part := by
  unfold refineBlocks
  rw [signatures_absorbed]
  refine List.map_congr_left fun c hc => ?_
  show (if t.isLive c = true then _ else _) = _
  split
  · next hl => rw [signature_absorbed (t := t) (List.mem_range.mp hc) hl]
  · rfl

theorem moore_absorbed (fuel : Nat) : ∀ (part : List Nat) (n : Nat),
    moore t.absorbed fuel part n = moore t fuel part n := by
  have hcount : ∀ part, blockCount t.absorbed part = blockCount t part := by
    intro part
    unfold blockCount
    rw [signatures_absorbed]
    rfl
  induction fuel with
  | zero => exact fun _ _ => rfl
  | succ fuel ih =>
    intro part n
    rw [moore, moore, refineBlocks_absorbed, hcount, ih]

theorem partition_absorbed : partition t.absorbed = partition t := moore_absorbed _ _ _

/-- The refinement ends with a round. -/
theorem moore_round (fuel : Nat) : ∀ (part : List Nat) (n : Nat), ∃ p,
    moore t (fuel + 1) part n = (refineBlocks t p, blockCount t p) := by
  induction fuel with
  | zero =>
    intro part n
    refine ⟨part, ?_⟩
    rw [moore]
    split
    · next h => rw [h]
    · rfl
  | succ fuel ih =>
    intro part n
    rw [moore]
    split
    · next h => exact ⟨part, by rw [h]⟩
    · exact ih _ _

theorem partition_round : ∃ p, partition t = (refineBlocks t p, blockCount t p) :=
  moore_round _ _ _

/-- A dead class is in the dead block. -/
theorem deadBlock_of_dead {c : Nat} (hc : c < t.k) (hl : t.isLive c = false) :
    deadBlock t = some (settledBlock t c) := by
  obtain ⟨p, hp⟩ := partition_round (t := t)
  have hdead : hasDead t = true := hasDead_iff.mpr ⟨c, hc, hl⟩
  rw [deadBlock, if_pos hdead, settledBlock, hp, blockOf_refine hc, if_neg (by simp [hl]),
    blockCount, if_pos hdead]
  rfl

theorem blockStep_absorbed (hsize : t.act.length = t.k * t.nLetters) (b : Nat) {a : Nat}
    (ha : a < t.nLetters) :
    blockStep t.absorbed b a = blockStep t b a := by
  have hdead : deadBlock t.absorbed = deadBlock t := by
    unfold deadBlock
    rw [partition_absorbed]
    rfl
  unfold blockStep
  rw [hdead, partition_absorbed]
  split
  · rfl
  · next hne =>
    obtain ⟨p, hp⟩ := partition_round (t := t)
    have hlen : (partition t).1.length = t.k := by
      rw [hp]
      simp [refineBlocks]
    by_cases hmem : b ∈ (partition t).1
    · have hlt := List.idxOf_lt_length_iff.mpr hmem
      have hc : (partition t).1.idxOf b < t.k := by omega
      have hblock : settledBlock t ((partition t).1.idxOf b) = b := by
        show (partition t).1.getD _ 0 = b
        rw [List.getD_eq_getElem?_getD, List.getElem?_eq_getElem hlt, List.getElem_idxOf hlt]
        rfl
      have hl : t.isLive ((partition t).1.idxOf b) = true := by
        by_contra hl
        have h := deadBlock_of_dead hc (Bool.eq_false_iff.mpr hl)
        rw [hblock] at h
        exact hne h
      rw [RawTable.absorbed_step hc ha, if_pos hl]
    · -- no class is in that block: the search for one ends past the table
      have hidx : (partition t).1.idxOf b = t.k := by
        rw [List.idxOf_eq_length hmem, hlen]
      have hpast : ∀ {s : RawTable}, s.act.length = t.k * s.nLetters → s.step t.k a = 0 := by
        intro s hs
        rw [RawTable.step, List.getD_eq_getElem?_getD, List.getElem?_eq_none (by omega)]
        rfl
      rw [hidx, hpast hsize, hpast]
      show List.length (List.flatMap _ _) = _
      rw [Refinement.length_flatMap_rows (n := t.nLetters) (by simp), List.length_range]
      rfl

/-- The successors of the dead classes are never read. -/
theorem canonicalize_absorbed (hsize : t.act.length = t.k * t.nLetters) :
    canonicalize t.absorbed = canonicalize t := by
  have hstep : ∀ b, ∀ a ∈ List.range t.nLetters, blockStep t.absorbed b a = blockStep t b a :=
    fun b a ha => blockStep_absorbed hsize b (List.mem_range.mp ha)
  have hreached : reachedBlocks t.absorbed = reachedBlocks t := by
    have hwalk := Explore.explore_congr hstep (fun _ => false) (fun _ => false) (t.k + 2)
      ((partition t).1.getD 0 0)
    unfold reachedBlocks
    rw [partition_absorbed, ← hwalk]
    rfl
  have hdead : deadBlock t.absorbed = deadBlock t := by
    unfold deadBlock
    rw [partition_absorbed]
    rfl
  have hact : ∀ order, canonicalAct t.absorbed order = canonicalAct t order := by
    intro order
    unfold canonicalAct
    refine List.flatMap_congr fun b _ => List.map_congr_left fun a ha => ?_
    rw [hstep b a ha]
  unfold canonicalize
  simp only [hreached, hdead, hact]
  rfl

end Absorb

/-! ## The refinement parts no more than it must -/

section Coarse

variable {t : RawTable}

/-- From both classes the same words end live. -/
def Alike (t : RawTable) (c d : Nat) : Prop :=
  ∀ w, t.IsWord w → t.isLive (w.foldl t.step c) = t.isLive (w.foldl t.step d)

theorem Alike.live {c d : Nat} (h : Alike t c d) : t.isLive c = t.isLive d :=
  h [] fun _ ha => nomatch ha

theorem Alike.step {c d a : Nat} (h : Alike t c d) (ha : a < t.nLetters) :
    Alike t (t.step c a) (t.step d a) :=
  fun w hw => h (a :: w) (List.forall_mem_cons.mpr ⟨ha, hw⟩)

/-- Classes that nothing tells apart are in one block. -/
def Coarse (t : RawTable) (part : List Nat) : Prop :=
  ∀ c < t.k, ∀ d < t.k, Alike t c d → blockOf part c = blockOf part d

theorem coarse_refine (ht : t.Complete) {part : List Nat} (hp : Coarse t part) :
    Coarse t (refineBlocks t part) := by
  intro c hc d hd h
  rw [blockOf_refine hc, blockOf_refine hd, h.live]
  split
  · congr 1
    unfold signature
    refine List.cons_eq_cons.mpr ⟨hp c hc d hd h, List.map_congr_left fun a ha => ?_⟩
    have ha := List.mem_range.mp ha
    exact hp _ (ht.target c hc a ha) _ (ht.target d hd a ha) (h.step ha)
  · rfl

theorem moore_coarse (ht : t.Complete) (fuel : Nat) : ∀ {part : List Nat} {n : Nat},
    Coarse t part → Coarse t (moore t fuel part n).1 := by
  induction fuel with
  | zero => exact fun hp => hp
  | succ fuel ih =>
    intro part n hp
    rw [moore]
    split
    · exact coarse_refine ht hp
    · exact ih (coarse_refine ht hp)

theorem partition_coarse (ht : t.Complete) : Coarse t (partition t).1 := by
  refine moore_coarse ht _ fun c hc d hd h => ?_
  simp [blockOf, hc, hd, h.live]

end Coarse

/-! ## Canonical classifiers -/

/-- The canonical classifier of a language over `n` letters: no two classes accept the
same words, and each is numbered and represented by its least access word. -/
structure Canonical (lang : List Nat → Prop) (n : Nat) (h : Classifier) : Prop where
  letters : h.nLetters = n
  pos : 0 < h.k
  size : h.act.length = h.k * n
  target : ∀ c < h.k, ∀ a < n, h.step c a < h.k
  absorbs : ∀ d, h.dead = some d → d < h.k ∧ ∀ a < n, h.step d a = d
  accepts : ∀ w, (∀ a ∈ w, a < n) → (h.accepts w = true ↔ lang w)
  apart : ∀ c < h.k, ∀ d < h.k, (∀ w : List Nat, (∀ a ∈ w, a < n) →
    h.live (w.foldl h.step c) = h.live (w.foldl h.step d)) → c = d
  count : h.reps.length = h.k
  sorted : h.reps.Pairwise Before
  least : ∀ c rep, h.reps[c]? = some rep → (∀ a ∈ rep, a < n) ∧ h.classify rep = c ∧
    ∀ w, (∀ a ∈ w, a < n) → h.classify w = c → AtMost rep w

section Unique

variable {lang : List Nat → Prop} {n : Nat} {h h' : Classifier}

theorem Canonical.classify_lt (hc : Canonical lang n h) {w : List Nat} :
    (∀ a ∈ w, a < n) → h.classify w < h.k := by
  induction w using List.reverseRecOn with
  | nil => exact fun _ => hc.pos
  | append_singleton w a ih =>
    intro hw
    rw [Cegar.classify_snoc]
    exact hc.target _ (ih fun b hb => hw b (List.mem_append_left _ hb)) a (hw a (by simp))

/-- Two words are in one class when the same words continue them. -/
theorem Canonical.class_iff (hc : Canonical lang n h) {v w : List Nat} (hv : ∀ a ∈ v, a < n)
    (hw : ∀ a ∈ w, a < n) : h.classify v = h.classify w ↔
      ∀ u, (∀ a ∈ u, a < n) → (lang (v ++ u) ↔ lang (w ++ u)) := by
  have happ : ∀ (x u : List Nat), h.classify (x ++ u) = u.foldl h.step (h.classify x) :=
    fun x u => List.foldl_append
  have hover : ∀ {x u : List Nat}, (∀ a ∈ x, a < n) → (∀ a ∈ u, a < n) → ∀ a ∈ x ++ u, a < n := by
    intro x u hx hu a ha
    rcases List.mem_append.mp ha with ha | ha
    · exact hx a ha
    · exact hu a ha
  constructor
  · intro heq u hu
    rw [← hc.accepts _ (hover hv hu), ← hc.accepts _ (hover hw hu), Classifier.accepts,
      Classifier.accepts, happ, happ, heq]
  · intro hall
    refine hc.apart _ (hc.classify_lt hv) _ (hc.classify_lt hw) fun u hu => ?_
    rw [← happ, ← happ, Bool.eq_iff_iff]
    exact (hc.accepts _ (hover hv hu)).trans ((hall u hu).trans (hc.accepts _ (hover hw hu)).symm)

/-- The access words are the least words of the classes, whatever the classes are called. -/
theorem Canonical.mem_reps (hc : Canonical lang n h) (w : List Nat) : w ∈ h.reps ↔
    (∀ a ∈ w, a < n) ∧ ∀ v, (∀ a ∈ v, a < n) →
      (∀ u, (∀ a ∈ u, a < n) → (lang (v ++ u) ↔ lang (w ++ u))) → AtMost w v := by
  constructor
  · intro hw
    obtain ⟨c, hget⟩ := List.mem_iff_getElem?.mp hw
    obtain ⟨hover, hclass, hleast⟩ := hc.least c w hget
    refine ⟨hover, fun v hv hall => hleast v hv ?_⟩
    rw [← hclass]
    exact (hc.class_iff hv hover).mpr hall
  · rintro ⟨hw, hmin⟩
    have hlt : h.classify w < h.reps.length := hc.count ▸ hc.classify_lt hw
    obtain ⟨hover, hclass, hleast⟩ := hc.least _ _ (List.getElem?_eq_getElem hlt)
    have hle := hmin _ hover ((hc.class_iff hover hw).mp hclass)
    have heq : w = h.reps[h.classify w] := hle.antisymm (hleast w hw rfl)
    rw [heq]
    exact List.getElem_mem hlt

/-- A language has one canonical classifier. -/
theorem Canonical.unique (hc : Canonical lang n h) (hc' : Canonical lang n h') : h = h' := by
  have hreps : h.reps = h'.reps :=
    Explore.sorted_ext hc.sorted hc'.sorted fun w => (hc.mem_reps w).trans (hc'.mem_reps w).symm
  have hk : h.k = h'.k := by rw [← hc.count, ← hc'.count, hreps]
  have hrep : ∀ c < h.k, ∃ rep, (∀ a ∈ rep, a < n) ∧ h.classify rep = c ∧ h'.classify rep = c := by
    intro c hlt
    obtain ⟨rep, hget⟩ : ∃ rep, h.reps[c]? = some rep :=
      ⟨_, List.getElem?_eq_getElem (hc.count.symm ▸ hlt)⟩
    have hget' : h'.reps[c]? = some rep := by rw [← hreps, hget]
    obtain ⟨hover, hclass, -⟩ := hc.least c rep hget
    exact ⟨rep, hover, hclass, (hc'.least c rep hget').2.1⟩
  -- the class of a word is the position of the least word of its class
  have hclass : ∀ {w : List Nat}, (∀ a ∈ w, a < n) → h.classify w = h'.classify w := by
    intro w hw
    obtain ⟨rep, hover, h1, h2⟩ := hrep _ (hc.classify_lt hw)
    rw [← h2]
    exact (hc'.class_iff hover hw).mpr ((hc.class_iff hover hw).mp h1)
  have hstep : ∀ c < h.k, ∀ a < n, h.step c a = h'.step c a := by
    intro c hlt a ha
    obtain ⟨rep, hover, h1, h2⟩ := hrep c hlt
    have hover' : ∀ b ∈ rep ++ [a], b < n := by
      intro b hb
      rcases List.mem_append.mp hb with hb | hb
      · exact hover b hb
      · exact List.mem_singleton.mp hb ▸ ha
    have hsame := hclass hover'
    rwa [classify_snoc, classify_snoc, h1, h2] at hsame
  have hact : h.act = h'.act := by
    refine List.ext_getElem? fun i => ?_
    by_cases hi : i < h.k * n
    · have hn : 0 < n := Nat.pos_of_ne_zero fun h0 => by simp [h0] at hi
      have hc0 : i / n < h.k := Nat.div_lt_of_lt_mul (by rwa [Nat.mul_comm])
      have hs := hstep (i / n) hc0 (i % n) (Nat.mod_lt i hn)
      unfold Classifier.step at hs
      rw [hc.letters, hc'.letters, Nat.div_add_mod' i n] at hs
      have hi' : i < h.act.length := hc.size ▸ hi
      have hi'' : i < h'.act.length := by rw [hc'.size, ← hk]; exact hi
      rw [List.getD_eq_getElem?_getD, List.getD_eq_getElem?_getD,
        List.getElem?_eq_getElem hi', List.getElem?_eq_getElem hi''] at hs
      rw [List.getElem?_eq_getElem hi', List.getElem?_eq_getElem hi'']
      exact congrArg some hs
    · rw [List.getElem?_eq_none (by rw [hc.size]; omega),
        List.getElem?_eq_none (by rw [hc'.size, ← hk]; omega)]
  have hlive : ∀ c < h.k, h.live c = h'.live c := by
    intro c hlt
    obtain ⟨rep, hover, h1, h2⟩ := hrep c hlt
    have hiff := (hc.accepts _ hover).trans (hc'.accepts _ hover).symm
    rw [Classifier.accepts, Classifier.accepts, h1, h2] at hiff
    exact Bool.eq_iff_iff.mpr hiff
  have hdead : h.dead = h'.dead := by
    refine Option.ext fun d => ⟨fun hd => ?_, fun hd => ?_⟩
    · have hl := hlive d (hc.absorbs d hd).1
      have hf : h.live d = false := by simp [Classifier.live, hd]
      rw [hf] at hl
      simpa [Classifier.live] using hl.symm
    · have hl := hlive d (hk ▸ (hc'.absorbs d hd).1)
      have hf : h'.live d = false := by simp [Classifier.live, hd]
      rw [hf] at hl
      simpa [Classifier.live] using hl
  obtain ⟨n1, k1, d1, a1, r1⟩ := h
  obtain ⟨n2, k2, d2, a2, r2⟩ := h'
  have hn : n1 = n2 := hc.letters.trans hc'.letters.symm
  simp only [Classifier.mk.injEq]
  exact ⟨hn, hk, hdead, hact, hreps⟩

end Unique

/-! ## What `canonicalize` presents -/

section Complete

variable {t : RawTable}

/-- The walk over the blocks follows the table, and stops at the dead block. -/
theorem run_blockStep (ht : t.Complete) {w : List Nat} : t.IsWord w →
    (∀ b, Explore.run (blockStep t) (settledBlock t 0) w = some b →
      b = settledBlock t (t.classify w)) ∧
    (t.isLive (t.classify w) = true →
      Explore.run (blockStep t) (settledBlock t 0) w = some (settledBlock t (t.classify w))) ∧
    ∃ u, u <+: w ∧
      Explore.run (blockStep t) (settledBlock t 0) u = some (settledBlock t (t.classify w)) := by
  induction w using List.reverseRecOn with
  | nil =>
    intro _
    refine ⟨fun b hb => ?_, fun _ => rfl, [], List.prefix_rfl, rfl⟩
    cases hb
    rfl
  | append_singleton w a ih =>
    intro hw
    have hw' : t.IsWord w := fun b hb => hw b (List.mem_append_left _ hb)
    have ha : a < t.nLetters := hw a (by simp)
    have hc : t.classify w < t.k := ht.foldl_lt ht.pos hw'
    obtain ⟨h1, h2, u, hu, h3⟩ := ih hw'
    rw [RawTable.classify_snoc, Explore.run_snoc]
    cases hl : t.isLive (t.classify w) with
    | true =>
      have hstep := blockStep_live ht hc ha hl
      rw [h2 hl]
      refine ⟨fun b hb => ?_, fun _ => hstep, w ++ [a], List.prefix_rfl, ?_⟩
      · rw [Option.bind_some, hstep] at hb
        cases hb
        rfl
      · rw [Explore.run_snoc, h2 hl]
        exact hstep
    | false =>
      rw [ht.dead _ hc a ha hl]
      refine ⟨fun b hb => ?_, fun hl' => ?_, u, hu.trans (List.prefix_append w [a]), h3⟩
      · obtain ⟨b', hb', hb⟩ := Option.bind_eq_some_iff.mp hb
        rw [h1 b' hb', blockStep_dead ht hc hl] at hb
        cases hb
      · rw [hl] at hl'
        cases hl'

/-- From any class on, the class of a word is the position of its block. -/
theorem canonicalize_foldl (ht : t.Complete) {w : List Nat} : ∀ {c : Nat}, c < t.k →
    settledBlock t c ∈ blockOrder t → t.IsWord w →
    w.foldl (canonicalize t).step ((blockOrder t).idxOf (settledBlock t c)) =
        (blockOrder t).idxOf (settledBlock t (w.foldl t.step c)) ∧
      settledBlock t (w.foldl t.step c) ∈ blockOrder t := by
  obtain ⟨-, -, -, hclosed⟩ := blockOrder_spec ht
  induction w with
  | nil => exact fun _ hmem _ => ⟨rfl, hmem⟩
  | cons a w ih =>
    intro c hc hmem hw
    obtain ⟨ha, hw⟩ := List.forall_mem_cons.mp hw
    rw [List.foldl_cons, List.foldl_cons, canonicalize_step ht hc hmem ha]
    refine ih (ht.target c hc a ha) ?_ hw
    cases hl : t.isLive c with
    | true => exact hclosed _ hmem a ha _ (blockStep_live ht hc ha hl)
    | false => rwa [ht.dead c hc a ha hl]

/-- A class of the canonical table is the block of a class of the table. -/
theorem exists_block (ht : t.Complete) {c : Nat} (hc : c < (canonicalize t).k) :
    ∃ d < t.k, settledBlock t d ∈ blockOrder t ∧ (blockOrder t).idxOf (settledBlock t d) = c := by
  obtain ⟨hnd, hlt, -, -⟩ := blockOrder_spec ht
  have hc : c < (blockOrder t).length := hc
  have hmem : (blockOrder t)[c] ∈ blockOrder t := List.getElem_mem hc
  obtain ⟨d, hd, he⟩ := exists_class ht (hlt _ hmem)
  exact ⟨d, hd, he ▸ hmem, by rw [he, hnd.idxOf_getElem]⟩

theorem canonicalize_reps (ht : t.Complete) {c : Nat} {rep : List Nat}
    (hrep : (canonicalize t).reps[c]? = some rep) : t.IsWord rep ∧
      (canonicalize t).classify rep = c ∧
      ∀ w, t.IsWord w → (canonicalize t).classify w = c → AtMost rep w := by
  have hwalk := reachedBlocks_walk ht
  obtain ⟨hnd, -, -, -⟩ := blockOrder_spec ht
  have hsorted : (List.range t.nLetters).Pairwise (· < ·) := List.pairwise_lt_range
  obtain ⟨-, hleast⟩ := Explore.explore_least hsorted hwalk
  have hrep : (reachedBlocks t)[c]?.map Prod.snd = some rep := by
    rw [← List.getElem?_map]
    exact hrep
  obtain ⟨⟨b, rep⟩, hget, rfl⟩ := Option.map_eq_some_iff.mp hrep
  dsimp only at hrep ⊢
  obtain ⟨hrun, hover⟩ := Explore.explore_traced hwalk _ (List.mem_of_getElem? hget)
  have hover : t.IsWord rep := fun a ha => List.mem_range.mp (hover a ha)
  have hb : b = settledBlock t (t.classify rep) := (run_blockStep ht hover).1 b hrun
  have horder : (blockOrder t)[c]? = some b := by
    rw [blockOrder, List.getElem?_map, hget]
    rfl
  obtain ⟨hlt, hoc⟩ := List.getElem?_eq_some_iff.mp horder
  have hidx : (blockOrder t).idxOf b = c := by rw [← hoc, hnd.idxOf_getElem]
  refine ⟨hover, ?_, fun w hw hclass => ?_⟩
  · rw [canonicalize_classify ht hover, ← hb, hidx]
  · -- the word enters the block of its class at one of its beginnings
    rw [canonicalize_classify ht hw, ← hidx] at hclass
    have hblock := (List.idxOf_inj (settledBlock_mem ht hw)).mp hclass
    obtain ⟨u, hu, hrunu⟩ := (run_blockStep ht hw).2.2
    rw [hblock] at hrunu
    obtain ⟨q, hq, hqb, hle⟩ := hleast (fun a ha => List.mem_range.mpr (hw a (hu.subset ha))) hrunu
    have hqrep : q = (b, rep) := by
      obtain ⟨i, hi⟩ := List.mem_iff_getElem?.mp hq
      have hbi : (blockOrder t)[i]? = some b := by
        rw [blockOrder, List.getElem?_map, hi, ← hqb]
        rfl
      obtain ⟨hilt, hoi⟩ := List.getElem?_eq_some_iff.mp hbi
      have hic : i = c := (hnd.getElem_inj_iff).mp (hoi.trans hoc.symm)
      rw [hic, hget] at hi
      exact (Option.some.inj hi).symm
    rw [hqrep] at hle
    exact hle.trans (Explore.atMost_of_prefix hu)

theorem canonicalize_canonical_complete (ht : t.Complete) :
    Canonical (fun w => t.isLive (t.classify w) = true) t.nLetters (canonicalize t) := by
  have hpres := canonicalize_presents ht
  have hs := partition_settled ht
  obtain ⟨hnd, hlt, -, hclosed⟩ := blockOrder_spec ht
  have hlength : (canonicalize t).act.length = (canonicalize t).k * t.nLetters := by
    show (canonicalAct t (blockOrder t)).length = (blockOrder t).length * t.nLetters
    rw [canonicalAct_eq, Refinement.length_flatMap_rows (n := t.nLetters) (by simp)]
  refine ⟨rfl, hpres.pos, hlength, hpres.target, ?_, ?_, ?_, ?_, ?_, ?_⟩
  · intro d hd
    obtain ⟨b, hb, hd⟩ := Option.bind_eq_some_iff.mp hd
    split at hd
    · next hmem =>
      have hmem : b ∈ blockOrder t := hmem
      have hdb : (blockOrder t).idxOf b = d := Option.some.inj hd
      obtain ⟨c, hc, he⟩ := exists_class ht (hlt _ hmem)
      have hl : t.isLive c = false := (deadBlock_iff ht hc).mp (by rw [he, hb])
      refine ⟨hdb ▸ List.idxOf_lt_length_iff.mpr hmem, fun a ha => ?_⟩
      rw [← hdb, ← he, canonicalize_step ht hc (he ▸ hmem) ha, ht.dead c hc a ha hl]
    · cases hd
  · intro w hw
    rw [hpres.accepts w hw]
  · intro c hc d hd hall
    obtain ⟨c', hc', hcm, rfl⟩ := exists_block ht hc
    obtain ⟨d', hd', hdm, rfl⟩ := exists_block ht hd
    refine congrArg (fun b => (blockOrder t).idxOf b) (partition_coarse ht c' hc' d' hd'
      fun w hw => ?_)
    have h := hall w hw
    obtain ⟨hcf, hcm'⟩ := canonicalize_foldl ht hc' hcm hw
    obtain ⟨hdf, hdm'⟩ := canonicalize_foldl ht hd' hdm hw
    rwa [hcf, hdf, canonicalize_live ht (ht.foldl_lt hc' hw) hcm',
      canonicalize_live ht (ht.foldl_lt hd' hw) hdm'] at h
  · show ((reachedBlocks t).map Prod.snd).length = ((reachedBlocks t).map Prod.fst).length
    rw [List.length_map, List.length_map]
  · exact (Explore.explore_least List.pairwise_lt_range (reachedBlocks_walk ht)).1
  · intro c rep hrep
    exact canonicalize_reps ht hrep

end Complete

section Tables

variable {t : RawTable}

theorem Canonical.congr {lang lang' : List Nat → Prop} {n : Nat} {h : Classifier}
    (hc : Canonical lang n h) (hl : ∀ w, (∀ a ∈ w, a < n) → (lang w ↔ lang' w)) :
    Canonical lang' n h :=
  { hc with accepts := fun w hw => (hc.accepts w hw).trans (hl w hw) }

/-- Without a live first class no word is accepted, and one dead class is left. -/
theorem canonicalize_dead_first (ht : t.WF) (hl : t.isLive 0 = false) :
    canonicalize t = ⟨t.nLetters, 1, some 0, List.replicate t.nLetters 0, [[]]⟩ := by
  have hdead : deadBlock t = some (settledBlock t 0) := deadBlock_of_dead ht.pos hl
  have hstep : ∀ a, blockStep t (settledBlock t 0) a = none := by
    intro a
    rw [blockStep, if_pos hdead]
  have hreached : reachedBlocks t = [(settledBlock t 0, [])] := by
    unfold reachedBlocks
    rw [show (partition t).1.getD 0 0 = settledBlock t 0 from rfl,
      Explore.explore_stuck fun a _ => hstep a]
  have hact : canonicalAct t [settledBlock t 0] = List.replicate t.nLetters 0 := by
    rw [canonicalAct_eq, List.flatMap_singleton, List.eq_replicate_iff]
    refine ⟨by simp, fun b hb => ?_⟩
    obtain ⟨a, -, rfl⟩ := List.mem_map.mp hb
    rw [nextClass, hstep a]
    exact List.idxOf_cons_self
  unfold canonicalize
  simp only [hreached, hdead, List.map_cons, List.map_nil, hact, Option.bind_some,
    List.mem_singleton, if_true, List.idxOf_cons_self, List.length_cons, List.length_nil]

/-- Over any table the result is the canonical classifier of its language. -/
theorem canonicalize_canonical (ht : t.WF) : Canonical t.Accepts t.nLetters (canonicalize t) := by
  cases hl : t.isLive 0 with
  | true =>
    rw [← canonicalize_absorbed ht.size]
    refine (canonicalize_canonical_complete (RawTable.absorbed_complete ht hl)).congr ?_
    exact fun w hw => (RawTable.absorbed_classify ht hw).2.1
  | false =>
    have hnone : ∀ w, ¬ t.Accepts w := by
      intro w h
      have h0 := h [] List.nil_prefix
      rw [show t.classify [] = 0 from rfl, hl] at h0
      cases h0
    rw [canonicalize_dead_first ht hl]
    have hstep : ∀ c a, (⟨t.nLetters, 1, some 0, List.replicate t.nLetters 0, [[]]⟩ :
        Classifier).step c a = 0 := by
      intro c a
      simp only [Classifier.step, List.getD_eq_getElem?_getD, List.getElem?_replicate]
      split
      · rfl
      · rfl
    have hclass : ∀ w : List Nat, (⟨t.nLetters, 1, some 0, List.replicate t.nLetters 0, [[]]⟩ :
        Classifier).classify w = 0 := by
      intro w
      induction w using List.reverseRecOn with
      | nil => rfl
      | append_singleton w a _ => rw [classify_snoc, hstep]
    refine ⟨rfl, Nat.one_pos, by simp, fun c _ a _ => ?_, ?_, fun w _ => ?_, ?_, rfl,
      List.pairwise_singleton _ _, fun c rep hrep => ?_⟩
    · rw [hstep]
      exact Nat.one_pos
    · intro d hd
      cases hd
      exact ⟨Nat.one_pos, fun a _ => hstep 0 a⟩
    · rw [Classifier.accepts, hclass]
      simp [Classifier.live, hnone w]
    · intro c hc d hd _
      have hc : c < 1 := hc
      have hd : d < 1 := hd
      omega
    · obtain ⟨rfl, rfl⟩ : c = 0 ∧ rep = [] := by
        cases c with
        | zero => exact ⟨rfl, (Option.some.inj hrep).symm⟩
        | succ c => cases hrep
      refine ⟨fun a ha => (by cases ha), rfl, fun w _ _ => Explore.atMost_of_prefix ?_⟩
      exact List.nil_prefix

theorem canonicalize_size (ht : t.WF) : (canonicalize t).k ≤ t.k := by
  cases hl : t.isLive 0 with
  | true =>
    rw [← canonicalize_absorbed ht.size]
    exact (canonicalize_presents (RawTable.absorbed_complete ht hl)).size
  | false =>
    rw [canonicalize_dead_first ht hl]
    exact ht.pos

end Tables

/-! ## The canonical bytes -/

/-- A 32-bit integer as it lies in memory, the low byte first. -/
def putInt (v : Int) : List (Fin 256) :=
  [Fin.ofNat 256 (v % 4294967296).toNat, Fin.ofNat 256 ((v % 4294967296).toNat / 256),
    Fin.ofNat 256 ((v % 4294967296).toNat / 65536),
    Fin.ofNat 256 ((v % 4294967296).toNat / 16777216)]

/-- The canonical bytes of a classifier: its letters, its classes, the dead one or -1, and
the action. -/
def Classifier.bytes (h : Classifier) : List (Fin 256) :=
  putInt h.nLetters ++ putInt h.k ++ putInt (match h.dead with | some d => d | none => -1) ++
    h.act.flatMap fun c : Nat => putInt c

section Bytes

theorem putInt_inj {v w : Int} (hv : -2147483648 ≤ v ∧ v < 2147483648)
    (hw : -2147483648 ≤ w ∧ w < 2147483648) (h : putInt v = putInt w) : v = w := by
  simp only [putInt, List.cons.injEq, Fin.ext_iff, Fin.val_ofNat, and_true] at h
  obtain ⟨h0, h1, h2, h3⟩ := h
  omega

theorem putInt_nat_inj {v w : Nat} (hv : v < 2147483648) (hw : w < 2147483648)
    (h : putInt v = putInt w) : v = w := by
  have heq := putInt_inj (by omega) (by omega) h
  omega

theorem length_putInt (v : Int) : (putInt v).length = 4 := rfl

theorem flatMap_put_inj : ∀ {xs ys : List Nat}, (∀ x ∈ xs, x < 2147483648) →
    (∀ y ∈ ys, y < 2147483648) →
    (xs.flatMap fun c : Nat => putInt c) = (ys.flatMap fun c : Nat => putInt c) → xs = ys := by
  intro xs
  induction xs with
  | nil =>
    intro ys _ _ h
    cases ys with
    | nil => rfl
    | cons y ys => cases h
  | cons x xs ih =>
    intro ys hx hy h
    cases ys with
    | nil => cases h
    | cons y ys =>
      obtain ⟨hx0, hx⟩ := List.forall_mem_cons.mp hx
      obtain ⟨hy0, hy⟩ := List.forall_mem_cons.mp hy
      rw [List.flatMap_cons, List.flatMap_cons] at h
      obtain ⟨h1, h2⟩ := List.append_inj h (by rw [length_putInt, length_putInt])
      rw [putInt_nat_inj hx0 hy0 h1, ih hx hy h2]

theorem Canonical.act_lt {lang : List Nat → Prop} {n : Nat} {h : Classifier}
    (hc : Canonical lang n h) : ∀ c ∈ h.act, c < h.k := by
  intro c hmem
  obtain ⟨i, hi, rfl⟩ := List.mem_iff_getElem.mp hmem
  have hin : i < h.k * n := hc.size ▸ hi
  have hn : 0 < n := Nat.pos_of_ne_zero fun h0 => by simp [h0] at hin
  have hlt := hc.target (i / n) (Nat.div_lt_of_lt_mul (by rwa [Nat.mul_comm])) (i % n)
    (Nat.mod_lt i hn)
  rwa [Classifier.step, hc.letters, Nat.div_add_mod' i n, List.getD_eq_getElem?_getD,
    List.getElem?_eq_getElem hi, Option.getD_some] at hlt

/-- Within 32 bits the bytes are the numbers they are written from. -/
theorem bytes_inj {h h' : Classifier} {lang lang' : List Nat → Prop} {n n' : Nat}
    (hc : Canonical lang n h) (hc' : Canonical lang' n' h') (hn : n ≤ 65536)
    (hn' : n' ≤ 65536) (hk : h.k < 2147483648) (hk' : h'.k < 2147483648)
    (heq : h.bytes = h'.bytes) : h.serialize = h'.serialize := by
  have hl := hc.letters
  have hl' := hc'.letters
  obtain ⟨h1, hact⟩ := List.append_inj heq rfl
  obtain ⟨h2, hdead⟩ := List.append_inj h1 rfl
  obtain ⟨hletters, hcount⟩ := List.append_inj h2 rfl
  have hd : h.dead = h'.dead := by
    have hab := hc.absorbs
    have hab' := hc'.absorbs
    cases hx : h.dead with
    | none =>
      cases hy : h'.dead with
      | none => rfl
      | some d' =>
        simp only [hx, hy] at hdead
        have hlt := (hab' d' hy).1
        have h0 := putInt_inj (by decide) (by omega) hdead
        omega
    | some d =>
      have hlt := (hab d hx).1
      cases hy : h'.dead with
      | none =>
        simp only [hx, hy] at hdead
        have h0 := putInt_inj (by omega) (by decide) hdead
        omega
      | some d' =>
        simp only [hx, hy] at hdead
        have hlt' := (hab' d' hy).1
        rw [putInt_nat_inj (hlt.trans hk) (hlt'.trans hk') hdead]
  have ha : h.act = h'.act := flatMap_put_inj (fun c hm => (hc.act_lt c hm).trans hk)
    (fun c hm => (hc'.act_lt c hm).trans hk') hact
  have hnn : h.nLetters = h'.nLetters :=
    putInt_nat_inj (by omega) (by omega) hletters
  have hkk : h.k = h'.k := putInt_nat_inj hk hk' hcount
  unfold Classifier.serialize
  rw [hnn, hkk, hd, ha]

end Bytes

/-! ## The canonical form -/

/-- A classifier read back as a table. -/
def Classifier.raw (h : Classifier) : RawTable where
  nLetters := h.nLetters
  k := h.k
  act := h.act
  live := (List.range h.k).map h.live

section Form

variable {t : RawTable}

theorem raw_isLive {h : Classifier} {c : Nat} (hc : c < h.k) : h.raw.isLive c = h.live c := by
  simp [RawTable.isLive, Classifier.raw, hc]

theorem raw_wf {lang : List Nat → Prop} {n : Nat} {h : Classifier} (hc : Canonical lang n h)
    (hk : h.k < 2147483648) (hn : n ≤ 65536) : h.raw.WF where
  pos := hc.pos
  small := hk
  letters := by
    rw [← hc.letters] at hn
    exact hn
  size := by
    show h.act.length = h.k * h.nLetters
    rw [hc.size, hc.letters]
  lives := by simp [Classifier.raw]
  target := hc.act_lt

/-- Read back as a table a canonical classifier has the same language. -/
theorem raw_accepts (ht : t.WF) {w : List Nat} (hw : t.IsWord w) :
    (canonicalize t).raw.Accepts w ↔ t.Accepts w := by
  have hc := canonicalize_canonical ht
  have hlive : ∀ u, u <+: w →
      ((canonicalize t).raw.isLive ((canonicalize t).raw.classify u) = true ↔ t.Accepts u) := by
    intro u hu
    have hover : ∀ a ∈ u, a < t.nLetters := fun a ha => hw a (hu.subset ha)
    rw [← hc.accepts u hover]
    show (canonicalize t).raw.isLive ((canonicalize t).classify u) = true ↔ _
    rw [raw_isLive (hc.classify_lt hover)]
    rfl
  constructor
  · intro h
    exact (hlive w List.prefix_rfl).mp (h w List.prefix_rfl)
  · intro h u hu
    exact (hlive u hu).mpr (h.shorter hu)

/-- The form of every table: its result is the canonical classifier of its language, with
no more classes than any table of that language; it is its own form, and two tables over
the same letters have one language exactly when the bytes are the same. -/
theorem canonicalize_canonical_form (t : RawTable) (ht : t.WF) :
    Canonical t.Accepts t.nLetters (canonicalize t) ∧
      canonicalize (canonicalize t).raw = canonicalize t ∧
      ∀ t' : RawTable, t'.WF → t'.nLetters = t.nLetters →
        ((∀ w, t.IsWord w → (t.Accepts w ↔ t'.Accepts w)) → (canonicalize t).k ≤ t'.k) ∧
        ((∀ w, t.IsWord w → (t.Accepts w ↔ t'.Accepts w)) ↔
          (canonicalize t).bytes = (canonicalize t').bytes) := by
  have hc := canonicalize_canonical ht
  have hk : (canonicalize t).k < 2147483648 := (canonicalize_size ht).trans_lt ht.small
  refine ⟨hc, ?_, fun t' ht' hn => ?_⟩
  · refine ((canonicalize_canonical (raw_wf hc hk ht.letters)).congr fun w hw => ?_).unique hc
    exact raw_accepts ht hw
  · have hc' := canonicalize_canonical ht'
    rw [hn] at hc'
    have hk' : (canonicalize t').k < 2147483648 := (canonicalize_size ht').trans_lt ht'.small
    have hsame : (∀ w, t.IsWord w → (t.Accepts w ↔ t'.Accepts w)) →
        canonicalize t = canonicalize t' := fun hl => (hc.congr hl).unique hc'
    refine ⟨fun hl => hsame hl ▸ canonicalize_size ht', fun hl => by rw [hsame hl],
      fun hbytes w hw => ?_⟩
    have hser := bytes_inj hc hc' ht.letters ht.letters hk hk' hbytes
    rw [← hc.accepts w hw, ← hc'.accepts w hw]
    simp only [Classifier.serialize, Prod.mk.injEq] at hser
    obtain ⟨h1, -, h3, h4⟩ := hser
    have hstep : (canonicalize t).step = (canonicalize t').step := by
      funext c a
      unfold Classifier.step
      rw [h1, h4]
    unfold Classifier.accepts Classifier.classify Classifier.live
    rw [hstep, h3]

end Form

/-- The words without letter 1: two live classes that are one, and two dead classes the
second of which letter 0 leaves again. -/
def noSecond : RawTable :=
  ⟨2, 4, [2, 1, 1, 1, 0, 3, 0, 3], [true, false, true, false]⟩

theorem noSecond_wf : noSecond.WF where
  pos := by decide
  small := by decide
  letters := by decide
  size := by decide
  lives := by decide
  target := by decide

/-- The same language from a table of two classes gives the same bytes. -/
theorem canonicalize_canonical_form_noSecond :
    canonicalize noSecond = ⟨2, 2, some 1, [0, 1, 1, 1], [[], [1]]⟩ ∧
      (canonicalize noSecond).bytes = (canonicalize ⟨2, 2, [0, 1, 1, 1], [true, false]⟩).bytes ∧
      ∀ w, noSecond.IsWord w →
        (noSecond.Accepts w ↔ RawTable.Accepts ⟨2, 2, [0, 1, 1, 1], [true, false]⟩ w) := by
  have hbytes : (canonicalize noSecond).bytes =
      (canonicalize ⟨2, 2, [0, 1, 1, 1], [true, false]⟩).bytes := by decide
  refine ⟨by decide, hbytes, ?_⟩
  exact (((canonicalize_canonical_form noSecond noSecond_wf).2.2 ⟨2, 2, [0, 1, 1, 1], [true, false]⟩
    ⟨by decide, by decide, by decide, by decide, by decide, by decide⟩ (by decide)).2).mpr hbytes

end LibHSC.Cegar
