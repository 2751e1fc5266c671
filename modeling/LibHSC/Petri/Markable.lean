import LibHSC.Petri.Net
import LibHSC.Library.Worklist

/-!
The places that can get a token: sweeps over the transitions until one marks no place.
The sweeps end within a round for each place, with the least set that has the places
marked at first and the outputs of the transitions whose inputs it has.
-/

namespace LibHSC.Petri

open PetriNets

section Sweeps

variable (net : SparsePetriNet)

/-- One entry of a column of outputs. -/
def markPlace (s : List Bool × Bool) (p : Nat) : List Bool × Bool :=
  if s.1.getD p false then s else (s.1.set p true, true)

/-- Whether a transition is live under the marks. -/
def live (markable : List Bool) (t : Nat) : Bool :=
  (net.pre t).entries.all fun e => markable.getD e.1 false

def markOutputs (s : List Bool × Bool) (t : Nat) : List Bool × Bool :=
  if live net s.1 t then (net.post t).entries.foldl (fun s e => markPlace s e.1) s else s

def sweep (markable : List Bool) : List Bool × Bool :=
  (List.range net.getTransitionCount).foldl (markOutputs net) (markable, false)

/-- The marks, with whether the last sweep changed them. -/
def sweepStep (s : List Bool × Bool) : Option (List Bool × Bool) :=
  if s.2 then some (sweep net s.1) else none

def markablePlaces (fuel : Nat) : Option (List Bool) :=
  (Worklist.loop (sweepStep net) fuel (net.marks.map fun m => decide (0 < m), true)).map Prod.fst

end Sweeps

/-! ## What a sweep does -/

/-- The marks grow, and say so. -/
structure Grows (s s' : List Bool × Bool) : Prop where
  length : s'.1.length = s.1.length
  keeps : ∀ p, s.1.getD p false = true → s'.1.getD p false = true
  still : s'.2 = false → s' = s
  counts : s'.1.count false ≤ s.1.count false
  fewer : s.2 = false → s'.2 = true → s'.1.count false < s.1.count false

theorem Grows.refl (s : List Bool × Bool) : Grows s s where
  length := rfl
  keeps _ h := h
  still _ := rfl
  counts := Nat.le_refl _
  fewer h h' := absurd (h.symm.trans h') Bool.false_ne_true

theorem Grows.trans {s s' s'' : List Bool × Bool} (h : Grows s s') (h' : Grows s' s'') :
    Grows s s'' where
  length := h'.length.trans h.length
  keeps p hp := h'.keeps p (h.keeps p hp)
  still hs := by
    have heq := h'.still hs
    rw [heq] at hs ⊢
    exact h.still hs
  counts := h'.counts.trans h.counts
  fewer hs hs'' := by
    cases hs' : s'.2 with
    | true => exact h'.counts.trans_lt (h.fewer hs hs')
    | false => exact (h'.fewer hs' hs'').trans_le h.counts

section Loops

variable {α : Type} {n : Nat} {f : List Bool × Bool → α → List Bool × Bool}

theorem grows_foldl : ∀ {as : List α},
    (∀ a ∈ as, ∀ s : List Bool × Bool, s.1.length = n → Grows s (f s a)) →
    ∀ s : List Bool × Bool, s.1.length = n → Grows s (as.foldl f s) := by
  intro as
  induction as with
  | nil => exact fun _ s _ => .refl s
  | cons a as ih =>
    intro hf s hs
    obtain ⟨ha, has⟩ := List.forall_mem_cons.mp hf
    have hone := ha s hs
    exact hone.trans (ih has (f s a) (hone.length.trans hs))

/-- A loop that ends unchanged changed nothing at any step. -/
theorem still_foldl : ∀ {as : List α},
    (∀ a ∈ as, ∀ s : List Bool × Bool, s.1.length = n → Grows s (f s a)) →
    ∀ s : List Bool × Bool, s.1.length = n → (as.foldl f s).2 = false → ∀ a ∈ as, f s a = s := by
  intro as
  induction as with
  | nil =>
    intro _ s _ _ a ha
    cases ha
  | cons a as ih =>
    intro hf s hs hend b hb
    obtain ⟨ha, has⟩ := List.forall_mem_cons.mp hf
    rw [List.foldl_cons] at hend
    have hrest := (grows_foldl has (f s a) ((ha s hs).length.trans hs)).still hend
    have hone : f s a = s := (ha s hs).still (by rw [← hrest]; exact hend)
    rcases List.mem_cons.mp hb with rfl | hb
    · exact hone
    · rw [hone] at hend
      exact ih has s hs hend b hb

end Loops

theorem markPlace_grows {s : List Bool × Bool} {p : Nat} (hp : p < s.1.length) :
    Grows s (markPlace s p) := by
  unfold markPlace
  split
  · exact .refl s
  · next hnot =>
    have hat : s.1[p] = false := by
      rw [List.getD_eq_getElem _ _ hp] at hnot
      exact Bool.eq_false_iff.mpr hnot
    have hcount : (s.1.set p true).count false < s.1.count false := by
      have hpos : 0 < s.1.count false := List.count_pos_iff.mpr (hat ▸ List.getElem_mem hp)
      rw [List.count_set hp, hat, if_pos (by rfl), if_neg (by decide)]
      omega
    exact {
      length := List.length_set
      keeps := by
        intro q hq
        rw [List.getD_eq_getElem?_getD, List.getElem?_set]
        split
        · rfl
        · rwa [← List.getD_eq_getElem?_getD]
      still := fun h => absurd h (by simp)
      counts := hcount.le
      fewer := fun _ _ => hcount }

theorem markPlace_at {s : List Bool × Bool} {p q : Nat} (hp : p < s.1.length) :
    (markPlace s p).1.getD q false = true ↔ q = p ∨ s.1.getD q false = true := by
  unfold markPlace
  split
  · next h =>
    refine ⟨.inr, ?_⟩
    rintro (rfl | hq)
    · exact h
    · exact hq
  · rw [List.getD_eq_getElem?_getD, List.getElem?_set]
    split
    · next heq => simp [heq]
    · next hne =>
      rw [← List.getD_eq_getElem?_getD]
      exact ⟨.inr, fun h => h.resolve_left fun e => hne e.symm⟩

/-- Marking a list of places. -/
theorem markAll {es : List (Nat × Int)} : ∀ {s : List Bool × Bool},
    (∀ e ∈ es, e.1 < s.1.length) → ∀ q,
      ((es.foldl (fun s e => markPlace s e.1) s).1.getD q false = true ↔
        q ∈ es.map Prod.fst ∨ s.1.getD q false = true) := by
  induction es with
  | nil =>
    intro s _ q
    simp
  | cons e es ih =>
    intro s hes q
    obtain ⟨he, hes⟩ := List.forall_mem_cons.mp hes
    have hlen := (markPlace_grows he).length
    rw [List.foldl_cons, ih (fun x hx => hlen ▸ hes x hx), markPlace_at he, List.map_cons,
      List.mem_cons]
    tauto

/-! ## The sweeps of a net -/

section Net

variable {net : SparsePetriNet} (hw : net.WF)
include hw

theorem markOutputs_grows (t : Nat) (s : List Bool × Bool) (hs : s.1.length = net.pnames.length) :
    Grows s (markOutputs net s t) := by
  unfold markOutputs
  split
  · refine grows_foldl (n := net.pnames.length) (fun e he s hs => markPlace_grows ?_) s hs
    rw [hs]
    exact (hw.post_ok t).place e he
  · exact .refl s

theorem sweep_grows {markable : List Bool} (h : markable.length = net.pnames.length) :
    Grows (markable, false) (sweep net markable) :=
  grows_foldl (fun t _ s hs => markOutputs_grows hw t s hs) _ h

theorem markOutputs_at {t : Nat} {s : List Bool × Bool} (hs : s.1.length = net.pnames.length)
    (q : Nat) : (markOutputs net s t).1.getD q false = true ↔
      live net s.1 t = true ∧ q ∈ (net.post t).entries.map Prod.fst ∨ s.1.getD q false = true := by
  unfold markOutputs
  split
  · next hl =>
    rw [markAll (fun e he => hs ▸ (hw.post_ok t).place e he), hl]
    simp
  · next hl => exact ⟨.inr, fun h => h.resolve_left fun h => hl h.1⟩

/-- Every marked place can be marked. -/
def Founded (net : SparsePetriNet) (markable : List Bool) : Prop :=
  ∀ p : Fin net.pnames.length, markable.getD p false = true → net.toNet.Markable net.initial p

omit hw in
theorem live_iff {markable : List Bool} {t : Nat} :
    live net markable t = true ↔ ∀ q, q ∈ (net.pre t).entries.map Prod.fst →
      markable.getD q false = true := by
  unfold live
  rw [List.all_eq_true]
  constructor
  · intro h q hq
    obtain ⟨e, he, rfl⟩ := List.mem_map.mp hq
    exact h e he
  · exact fun h e he => h _ (List.mem_map_of_mem he)

theorem pos_iff_pre {t : Nat} {p : Nat} :
    0 < (net.pre t).get p ↔ p ∈ (net.pre t).entries.map Prod.fst := by
  have h0 := (hw.pre_ok t).get (p := p)
  rw [← not_iff_not, ← SparseArray.get_eq_zero_iff]
  omega

theorem pos_iff_post {t : Nat} {p : Nat} :
    0 < (net.post t).get p ↔ p ∈ (net.post t).entries.map Prod.fst := by
  have h0 := (hw.post_ok t).get (p := p)
  rw [← not_iff_not, ← SparseArray.get_eq_zero_iff]
  omega

theorem markOutputs_founded {t : Nat} (ht : t < net.tnames.length) {s : List Bool × Bool}
    (hs : s.1.length = net.pnames.length) (h : Founded net s.1) :
    Founded net (markOutputs net s t).1 := by
  intro p hp
  rcases (markOutputs_at hw hs p).mp hp with ⟨hlive, hpost⟩ | hp
  · refine .produced (t := ⟨t, ht⟩) (fun q hq => h q ?_) ((pos_iff_post hw).mpr hpost)
    exact live_iff.mp hlive q ((pos_iff_pre hw).mp hq)
  · exact h p hp

theorem sweep_founded {markable : List Bool} (hlen : markable.length = net.pnames.length)
    (h : Founded net markable) : Founded net (sweep net markable).1 := by
  have hall : ∀ ts : List Nat, (∀ t ∈ ts, t < net.tnames.length) → ∀ s : List Bool × Bool,
      s.1.length = net.pnames.length → Founded net s.1 →
      Founded net (ts.foldl (markOutputs net) s).1 := by
    intro ts
    induction ts with
    | nil => exact fun _ s _ h => h
    | cons t ts ih =>
      intro hts s hs h
      obtain ⟨ht, hts⟩ := List.forall_mem_cons.mp hts
      exact ih hts _ ((markOutputs_grows hw t s hs).length.trans hs)
        (markOutputs_founded hw ht hs h)
  exact hall _ (fun t ht => List.mem_range.mp ht) _ hlen h

/-- A sweep that changes nothing leaves the marks closed. -/
theorem sweep_closed {markable : List Bool} (hlen : markable.length = net.pnames.length)
    (h : (sweep net markable).2 = false) (t : Nat) (ht : t < net.tnames.length)
    (hlive : live net markable t = true) (q : Nat) (hq : q ∈ (net.post t).entries.map Prod.fst) :
    markable.getD q false = true := by
  have hstill := still_foldl (fun t _ s hs => markOutputs_grows hw t s hs) (markable, false) hlen h
    t (List.mem_range.mpr ht)
  have hat := (markOutputs_at hw (t := t) (s := (markable, false)) hlen q).mpr (.inl ⟨hlive, hq⟩)
  rwa [hstill] at hat

/-- What the sweeps keep. -/
structure Swept (net : SparsePetriNet) (s : List Bool × Bool) : Prop where
  length : s.1.length = net.pnames.length
  founded : Founded net s.1
  first : ∀ p : Fin net.pnames.length, 0 < net.initial p → s.1.getD p false = true
  closed : s.2 = false → ∀ t < net.tnames.length, live net s.1 t = true →
    ∀ q, q ∈ (net.post t).entries.map Prod.fst → s.1.getD q false = true

def sweepsLeft (s : List Bool × Bool) : Nat := if s.2 then s.1.count false + 1 else 0

theorem swept_step (s s' : List Bool × Bool) (h : Swept net s) (hstep : sweepStep net s = some s') :
    Swept net s' ∧ sweepsLeft s' < sweepsLeft s := by
  unfold sweepStep at hstep
  split at hstep
  · next hc =>
    obtain rfl := Option.some.inj hstep
    have hgrows := sweep_grows hw h.length
    refine ⟨⟨hgrows.length.trans h.length, sweep_founded hw h.length h.founded,
      fun p hp => hgrows.keeps p (h.first p hp), fun hend t ht hlive q hq => ?_⟩, ?_⟩
    · have hsame := hgrows.still hend
      rw [hsame] at hlive ⊢
      exact sweep_closed hw h.length hend t ht hlive q hq
    · unfold sweepsLeft
      rw [if_pos hc]
      split
      · next hc' =>
        have hfewer : _ < s.1.count false := hgrows.fewer rfl hc'
        omega
      · omega
  · cases hstep

theorem swept_start : Swept net (net.marks.map fun m => decide (0 < m), true) where
  length := (List.length_map _).trans hw.marks
  founded := by
    intro p hp
    refine .first ?_
    rw [List.getD_eq_getElem?_getD, List.getElem?_map] at hp
    unfold SparsePetriNet.initial
    rw [List.getD_eq_getElem?_getD]
    cases hm : net.marks[(p : Nat)]? with
    | none => simp [hm] at hp
    | some m => simpa [hm] using hp
  first := by
    intro p hp
    unfold SparsePetriNet.initial at hp
    rw [List.getD_eq_getElem?_getD] at hp
    rw [List.getD_eq_getElem?_getD, List.getElem?_map]
    cases hm : net.marks[(p : Nat)]? with
    | none => simp [hm] at hp
    | some m => simpa [hm] using hp
  closed h := absurd h (by simp)

end Net

/-- The sweeps end, with exactly the places that can get a token; the others are empty in every
marking the net reaches. -/
theorem markablePlaces_exact (net : SparsePetriNet) (hw : net.WF) (fuel : Nat)
    (hf : net.pnames.length + 1 < fuel) :
    ∃ markable, markablePlaces net fuel = some markable ∧ markable.length = net.pnames.length ∧
      (∀ p : Fin net.pnames.length,
        markable.getD p false = true ↔ net.toNet.Markable net.initial p) ∧
      ∀ m, net.toNet.Reachable net.initial m →
        ∀ p : Fin net.pnames.length, markable.getD p false = false → m p = 0 := by
  have hstart := swept_start hw
  have hleft : sweepsLeft (net.marks.map fun m => decide (0 < m), true) < fuel := by
    have hcount := List.count_le_length (a := false) (l := net.marks.map fun m => decide (0 < m))
    rw [List.length_map, hw.marks] at hcount
    unfold sweepsLeft
    rw [if_pos rfl]
    exact (Nat.succ_le_succ hcount).trans_lt hf
  obtain ⟨s, hloop, hs, hend⟩ := Worklist.loop_spec (Swept net) sweepsLeft
    (fun s s' h hstep => swept_step hw s s' h hstep) hstart hleft
  have hstop : s.2 = false := by
    unfold sweepStep at hend
    split at hend
    · cases hend
    · next h => exact Bool.eq_false_iff.mpr h
  have hexact : ∀ p : Fin net.pnames.length,
      s.1.getD p false = true ↔ net.toNet.Markable net.initial p := by
    intro p
    refine ⟨hs.founded p, fun h => ?_⟩
    induction h with
    | first hp => exact hs.first _ hp
    | @produced t p hpre hpost ih =>
      refine hs.closed hstop t t.isLt (live_iff.mpr fun q hq => ?_) p ((pos_iff_post hw).mp hpost)
      obtain ⟨e, he, rfl⟩ := List.mem_map.mp hq
      exact ih ⟨e.1, (hw.pre_ok t).place e he⟩ ((pos_iff_pre hw).mpr hq)
  refine ⟨s.1, by rw [markablePlaces, hloop]; rfl, hs.length, hexact, fun m hm p hp => ?_⟩
  have h0 := hm.nonneg hw.nonneg (fun p => (hw.initial p).1) p
  by_contra hne
  have hmark := hm.markable hw.nonneg p (by omega)
  rw [(hexact p).mpr hmark] at hp
  exact Bool.noConfusion hp

theorem markablePlaces_exact_shuttle :
    ∃ markable, markablePlaces shuttle 4 = some markable ∧ markable.length = shuttle.pnames.length ∧
      (∀ p : Fin shuttle.pnames.length,
        markable.getD p false = true ↔ shuttle.toNet.Markable shuttle.initial p) ∧
      ∀ m, shuttle.toNet.Reachable shuttle.initial m →
        ∀ p : Fin shuttle.pnames.length, markable.getD p false = false → m p = 0 :=
  markablePlaces_exact shuttle shuttle_wf 4 (by decide)

end LibHSC.Petri
