import LibHSC.Library.Images
import LibHSC.Petri.Markable
import LibHSC.Petri.ToSurface
import LibHSC.Linear.Constraint

/-!
The linear facts of a net: flows and monotone sums of the calculator, with the constants the
initial marking fixes; the bounds they, a safe unit tree and the structural zeros give to the
places. The columns of the calculator are a parameter; each is an invariant or a monotone
sum of the incidence matrix.
-/

namespace LibHSC.Petri

open Lia PetriNets Linear

/-! ## Flows -/

/-- A sum over places against its value at the initial marking. -/
structure PFlow where
  terms : List (Nat × Int)
  constant : Int

structure PConstraints where
  equalities : List PFlow
  decreasing : List PFlow
  increasing : List PFlow

/-- What the calculator returns, one column for each sum. -/
structure Columns where
  basis : List SparseArray
  decreasing : List SparseArray
  increasing : List SparseArray

instance (v : Int) : Decidable (InLong v) := inferInstanceAs (Decidable (_ ∧ _))

def addExact (x y : Int) : Except String Int :=
  if InLong (x + y) then .ok (x + y) else .error "Overflow in addition"

def multiplyExact (x y : Int) : Except String Int :=
  if InLong (x * y) then .ok (x * y) else .error "Overflow in multiplication"

section Convert

variable (net : SparsePetriNet)

def addTerm (f : PFlow) (e : Nat × Int) : Except String PFlow :=
  if e.2 = 0 then .ok f
  else do
    let contribution ← multiplyExact e.2 (net.marks.getD e.1 0)
    return ⟨f.terms ++ [e], ← addExact f.constant contribution⟩

def flowOf (col : SparseArray) : Except String PFlow := col.entries.foldlM (addTerm net) ⟨[], 0⟩

/-- The sums that have a term, the short ones first. The source's sort leaves the order among
sums of one length open; only which sums there are is used below. -/
def convert (matrix : List SparseArray) : Except String (List PFlow) := do
  let flows ← matrix.mapM (flowOf net)
  return (flows.filter fun f => f.terms ≠ []).insertionSort fun f g =>
    f.terms.length ≤ g.terms.length

def convertAll (found : Columns) : Except String PConstraints := do
  return ⟨← convert net found.basis, ← convert net found.decreasing, ← convert net found.increasing⟩

/-- No fact when a constant does not fit. -/
def pflowsWithInequalities (found : Columns) : PConstraints :=
  match convertAll net found with
  | .ok out => out
  | .error _ => ⟨[], [], []⟩

end Convert

/-! ## The facts -/

structure ApproxSet where
  flows : List PFlow
  decreasing : List PFlow
  increasing : List PFlow
  inequalityCovered : Nat
  inequalityTightened : Nat
  /-- The flows the set uses as bounds, by their index. -/
  positive : List Nat
  /-- Of each place a bound, `-1` when there is none. -/
  bound : List Int
  covered : Nat
  zeros : Nat
  unitConstraints : Nat
  /-- Every place is bounded by 1. -/
  tagged : Bool

def PFlow.positive (f : PFlow) : Bool := decide (0 ≤ f.constant) && f.terms.all fun t => 0 < t.2

/-- A candidate bound for a place. -/
def tighten (constant : Int) (bound : List Int) (t : Nat × Int) : List Int :=
  let b := constant.tdiv t.2
  let bp := bound.getD t.1 0
  if bp < 0 ∨ b < bp then bound.set t.1 b else bound

def boundTerms (bound : List Int) (f : PFlow) : List Int :=
  f.terms.foldl (tighten f.constant) bound

def countWhere (np : Nat) (P : Nat → Bool) : Nat := (List.range np).countP P

/-- The bounds the flows of positive terms give. -/
def flowBounds (np : Nat) (found : PConstraints) : List Int :=
  (found.equalities.filter PFlow.positive).foldl boundTerms (List.replicate np (-1))

def tagBounds (tagged : Bool) (bound : List Int) : List Int :=
  if tagged then bound.map fun b => if b < 0 then 1 else min b 1 else bound

def zeroBounds (markable : List Bool) (bound : List Int) : List Int :=
  bound.mapIdx fun p b => if markable.getD p false then b else 0

section Facts

variable (net : SparsePetriNet)

/-- The facts. The monotone sums tighten the bounds last, before any place is forgotten. -/
def approxFacts (units : Option UnitTree) (found : PConstraints) (fuel : Nat) :
    Option ApproxSet := do
  let np := net.getPlaceCount
  let tagged := units.any fun u => u.present && u.safe
  let markable ← markablePlaces net fuel
  let previous := zeroBounds markable (tagBounds tagged (flowBounds np found))
  let bound := found.decreasing.foldl boundTerms previous
  let covered := countWhere np fun p => decide (0 ≤ previous.getD p 0)
  let newly := countWhere np fun p => decide (previous.getD p 0 < 0 ∧ 0 ≤ bound.getD p 0)
  return {
    flows := found.equalities
    decreasing := found.decreasing
    increasing := found.increasing
    inequalityCovered := newly
    inequalityTightened := countWhere np fun p =>
      decide (0 ≤ previous.getD p 0 ∧ bound.getD p 0 < previous.getD p 0)
    positive := (List.range found.equalities.length).filter fun i =>
      (found.equalities[i]?).any PFlow.positive
    bound := bound
    covered := covered + newly
    zeros := countWhere np fun p => !markable.getD p false
    unitConstraints := 0
    tagged := tagged }

end Facts

/-! ## Sums as forms -/

section Forms

variable {net : SparsePetriNet}

theorem termsValue_add (m m' : Fin net.pnames.length → Int) (ts : List (Nat × Int)) :
    termsValue (markAt (m + m')) ts = termsValue (markAt m) ts + termsValue (markAt m') ts := by
  induction ts with
  | nil => rfl
  | cons t ts ih =>
    have hmark : markAt (m + m') t.1 = markAt m t.1 + markAt m' t.1 := by
      unfold markAt
      split
      · rfl
      · rfl
    rw [termsValue, termsValue, termsValue, ih, hmark, Int.mul_add]
    omega

/-- The sum of terms as an additive map. -/
def formOf (ts : List (Nat × Int)) : (Fin net.pnames.length → Int) →+ Int :=
  AddMonoidHom.mk' (fun m => termsValue (markAt m) ts) fun m m' => termsValue_add m m' ts

/-- One term is at most the sum. -/
theorem term_le {m : Nat → Int} (hm : ∀ p, 0 ≤ m p) {ts : List (Nat × Int)}
    (hts : ∀ t ∈ ts, 0 < t.2) {t : Nat × Int} (ht : t ∈ ts) : t.2 * m t.1 ≤ termsValue m ts := by
  induction ts with
  | nil => cases ht
  | cons x ts ih =>
    obtain ⟨hx, hts'⟩ := List.forall_mem_cons.mp hts
    rw [termsValue]
    have hhead := mul_nonneg hx.le (hm x.1)
    have hrest := termsValue_nonneg hm fun t ht => (hts' t ht).le
    rcases List.mem_cons.mp ht with rfl | ht
    · omega
    · have := ih hts' ht
      omega

end Forms

/-! ## What the calculator is asked for -/

section Valid

variable (net : SparsePetriNet)

/-- Terms over places of the net, with machine coefficients. -/
def TermsOk (ts : List (Nat × Int)) : Prop := ∀ t ∈ ts, t.1 < net.pnames.length ∧ InInt32 t.2

/-- What a firing adds to the sum. -/
def gain (ts : List (Nat × Int)) (t : Fin net.tnames.length) : Int :=
  termsValue (markAt (net.toNet.effect t)) ts

/-- Invariants of the incidence matrix, and monotone sums of positive coefficients. -/
structure Columns.Valid (found : Columns) : Prop where
  basis : ∀ c ∈ found.basis, TermsOk net c.entries ∧ ∀ t, gain net c.entries t = 0
  decreasing : ∀ c ∈ found.decreasing, TermsOk net c.entries ∧ (∀ e ∈ c.entries, 0 < e.2) ∧
    ∀ t, gain net c.entries t ≤ 0
  increasing : ∀ c ∈ found.increasing, TermsOk net c.entries ∧ (∀ e ∈ c.entries, 0 < e.2) ∧
    ∀ t, 0 ≤ gain net c.entries t

/-- The constant of a sum is its value at the initial marking. -/
structure PFlow.Rooted (f : PFlow) : Prop where
  terms : TermsOk net f.terms
  constant : f.constant = termsValue (markAt net.initial) f.terms
  long : InLong f.constant

structure PConstraints.Valid (found : PConstraints) : Prop where
  equalities : ∀ f ∈ found.equalities, f.Rooted net ∧ ∀ t, gain net f.terms t = 0
  decreasing : ∀ f ∈ found.decreasing, f.Rooted net ∧ (∀ e ∈ f.terms, 0 < e.2) ∧
    ∀ t, gain net f.terms t ≤ 0
  increasing : ∀ f ∈ found.increasing, f.Rooted net ∧ (∀ e ∈ f.terms, 0 < e.2) ∧
    ∀ t, 0 ≤ gain net f.terms t

variable {net}

theorem markAt_initial {p : Nat} (hp : p < net.pnames.length) :
    markAt net.initial p = net.marks.getD p 0 := by
  rw [markAt, dif_pos hp]
  rfl

theorem addExact_ok {x y v : Int} (h : addExact x y = .ok v) : v = x + y ∧ InLong v := by
  unfold addExact at h
  split at h
  · next hl =>
    obtain rfl := Except.ok.inj h
    exact ⟨rfl, hl⟩
  · cases h

theorem multiplyExact_ok {x y v : Int} (h : multiplyExact x y = .ok v) : v = x * y := by
  unfold multiplyExact at h
  split at h
  · exact (Except.ok.inj h).symm
  · cases h

/-- The terms are those of the column, none of them zero. -/
theorem addTerms_ok {es : List (Nat × Int)} : (∀ e ∈ es, e.1 < net.pnames.length ∧ e.2 ≠ 0) →
    ∀ {f g : PFlow}, es.foldlM (addTerm net) f = .ok g →
      f.constant = termsValue (markAt net.initial) f.terms → InLong f.constant →
      g.terms = f.terms ++ es ∧ g.constant = termsValue (markAt net.initial) g.terms ∧
        InLong g.constant := by
  induction es with
  | nil =>
    rintro _ f _ ⟨⟩ hc hl
    exact ⟨(List.append_nil _).symm, hc, hl⟩
  | cons e es ih =>
    intro hes f g h hc hl
    obtain ⟨⟨hplace, hne⟩, hes⟩ := List.forall_mem_cons.mp hes
    rw [List.foldlM_cons] at h
    obtain ⟨f', hf', hrest⟩ := bind_eq_ok.mp h
    unfold addTerm at hf'
    rw [if_neg hne] at hf'
    obtain ⟨k, hk, hf'⟩ := bind_eq_ok.mp hf'
    obtain ⟨v, hv, hf'⟩ := bind_eq_ok.mp hf'
    obtain rfl := Except.ok.inj hf'
    obtain rfl := multiplyExact_ok hk
    obtain ⟨rfl, hlong⟩ := addExact_ok hv
    have hsum : f.constant + e.2 * net.marks.getD e.1 0 =
        termsValue (markAt net.initial) (f.terms ++ [e]) := by
      rw [termsValue_append, termsValue, termsValue, markAt_initial hplace, hc, Int.add_zero]
    obtain ⟨hterms, hrest⟩ := ih hes hrest hsum hlong
    exact ⟨by rw [hterms, List.append_assoc]; rfl, hrest⟩

theorem flowOf_ok {col : SparseArray} {f : PFlow} (hcol : TermsOk net col.entries)
    (h : flowOf net col = .ok f) : f.terms = col.entries ∧ f.Rooted net := by
  have hes : ∀ e ∈ col.entries, e.1 < net.pnames.length ∧ e.2 ≠ 0 :=
    fun e he => ⟨(hcol e he).1, col.nonzero e he⟩
  obtain ⟨hterms, hc, hl⟩ := addTerms_ok hes h rfl (by decide)
  rw [List.nil_append] at hterms
  exact ⟨hterms, hterms ▸ hcol, hc, hl⟩

/-- Every fact of the list is a column with its constant. -/
theorem convert_ok {matrix : List SparseArray} {flows : List PFlow}
    (h : convert net matrix = .ok flows) (hcols : ∀ c ∈ matrix, TermsOk net c.entries) :
    ∀ f ∈ flows, f.Rooted net ∧ ∃ c ∈ matrix, f.terms = c.entries := by
  intro f hf
  obtain ⟨all, hall, h⟩ := bind_eq_ok.mp h
  obtain rfl := Except.ok.inj h
  have hmem : f ∈ all := (List.mem_filter.mp ((List.mem_insertionSort _).mp hf)).1
  obtain ⟨c, hc, hflow⟩ := forall₂_mem_right (mapM_eq_ok hall) hmem
  obtain ⟨hterms, hroot⟩ := flowOf_ok (hcols c hc) hflow
  exact ⟨hroot, c, hc, hterms⟩

theorem pflowsWithInequalities_valid {found : Columns} (h : found.Valid net) :
    (pflowsWithInequalities net found).Valid net := by
  unfold pflowsWithInequalities
  split
  · next out hout =>
    obtain ⟨eqs, heqs, hout⟩ := bind_eq_ok.mp hout
    obtain ⟨decs, hdecs, hout⟩ := bind_eq_ok.mp hout
    obtain ⟨incs, hincs, hout⟩ := bind_eq_ok.mp hout
    obtain rfl := Except.ok.inj hout
    constructor
    · intro f hf
      obtain ⟨hroot, c, hc, hterms⟩ := convert_ok heqs (fun c hc => (h.basis c hc).1) f hf
      exact ⟨hroot, hterms ▸ (h.basis c hc).2⟩
    · intro f hf
      obtain ⟨hroot, c, hc, hterms⟩ := convert_ok hdecs (fun c hc => (h.decreasing c hc).1) f hf
      exact ⟨hroot, hterms ▸ (h.decreasing c hc).2⟩
    · intro f hf
      obtain ⟨hroot, c, hc, hterms⟩ := convert_ok hincs (fun c hc => (h.increasing c hc).1) f hf
      exact ⟨hroot, hterms ▸ (h.increasing c hc).2⟩
  · exact ⟨by simp, by simp, by simp⟩

/-- The facts at a marking. -/
structure PConstraints.Holds (found : PConstraints) (m : Nat → Int) : Prop where
  equalities : ∀ f ∈ found.equalities, termsValue m f.terms = f.constant
  decreasing : ∀ f ∈ found.decreasing, termsValue m f.terms ≤ f.constant
  increasing : ∀ f ∈ found.increasing, f.constant ≤ termsValue m f.terms

theorem PConstraints.Valid.reachable {found : PConstraints} (h : found.Valid net)
    {m : Fin net.pnames.length → Int} (hm : net.toNet.Reachable net.initial m) :
    found.Holds (markAt m) where
  equalities f hf := by
    obtain ⟨hroot, hgain⟩ := h.equalities f hf
    have := hm.form_eq (y := formOf f.terms) hgain
    exact this.trans hroot.constant.symm
  decreasing f hf := by
    obtain ⟨hroot, -, hgain⟩ := h.decreasing f hf
    have := hm.form_le (y := formOf f.terms) hgain
    rw [hroot.constant]
    exact this
  increasing f hf := by
    obtain ⟨hroot, -, hgain⟩ := h.increasing f hf
    have hneg : ∀ t, (-formOf f.terms) (net.toNet.effect t) ≤ 0 :=
      fun t => neg_nonpos.mpr (hgain t)
    have := neg_le_neg_iff.mp (hm.form_le (y := -formOf f.terms) hneg)
    rw [hroot.constant]
    exact this

end Valid

/-! ## The bounds -/

section Bounds

variable {net : SparsePetriNet} {m : Nat → Int}

/-- A marking is below the bounds there are. -/
def Below (m : Nat → Int) (bound : List Int) : Prop :=
  ∀ p, p < bound.length → 0 ≤ bound.getD p 0 → m p ≤ bound.getD p 0

theorem getD_set {bound : List Int} {p q : Nat} {b : Int} (hq : q < bound.length) :
    (bound.set p b).getD q 0 = if p = q then b else bound.getD q 0 := by
  rw [List.getD_eq_getElem?_getD, List.getElem?_set, List.getD_eq_getElem?_getD]
  split
  · next h => rw [if_pos (h ▸ hq)]; rfl
  · rfl

theorem tighten_below {bound : List Int} {constant : Int} {t : Nat × Int} (h : Below m bound)
    (hm : m t.1 ≤ constant.tdiv t.2) : Below m (tighten constant bound t) := by
  unfold tighten
  dsimp only
  split
  · intro p hp hb
    rw [List.length_set] at hp
    rw [getD_set hp] at hb ⊢
    split
    · next heq => exact heq ▸ hm
    · next hne =>
      rw [if_neg hne] at hb
      exact h p hp hb
  · exact h

theorem tighten_length (constant : Int) (bound : List Int) (t : Nat × Int) :
    (tighten constant bound t).length = bound.length := by
  unfold tighten
  dsimp only
  split
  · exact List.length_set
  · rfl

theorem boundTerms_below {f : PFlow} (hm : ∀ p, 0 ≤ m p) (hpos : ∀ t ∈ f.terms, 0 < t.2)
    (hle : termsValue m f.terms ≤ f.constant) {bound : List Int} (h : Below m bound) :
    Below m (boundTerms bound f) := by
  have hterm : ∀ t ∈ f.terms, m t.1 ≤ f.constant.tdiv t.2 := by
    intro t ht
    have hprod := (term_le hm hpos ht).trans hle
    have hconst : 0 ≤ f.constant := (termsValue_nonneg hm fun t ht => (hpos t ht).le).trans hle
    rw [Int.tdiv_eq_ediv_of_nonneg hconst, Int.le_ediv_iff_mul_le (hpos t ht), mul_comm]
    exact hprod
  unfold boundTerms
  generalize f.terms = ts at hterm
  induction ts generalizing bound with
  | nil => exact h
  | cons t ts ih =>
    obtain ⟨ht, hts⟩ := List.forall_mem_cons.mp hterm
    exact ih (tighten_below h ht) hts

theorem boundAll_below {fs : List PFlow} (hm : ∀ p, 0 ≤ m p)
    (hfs : ∀ f ∈ fs, (∀ t ∈ f.terms, 0 < t.2) ∧ termsValue m f.terms ≤ f.constant) :
    ∀ {bound : List Int}, Below m bound → Below m (fs.foldl boundTerms bound) := by
  induction fs with
  | nil => exact fun h => h
  | cons f fs ih =>
    intro bound h
    obtain ⟨⟨hpos, hle⟩, hfs⟩ := List.forall_mem_cons.mp hfs
    exact ih hfs (boundTerms_below hm hpos hle h)

/-- A safe unit tree is the promise of the source of the net: no place ever has two tokens. -/
def SafeTag (net : SparsePetriNet) (units : Option UnitTree) : Prop :=
  (units.any fun u => u.present && u.safe) = true →
    ∀ m, net.toNet.Reachable net.initial m → ∀ p, m p ≤ 1

theorem below_start (n : Nat) : Below m (List.replicate n (-1)) := by
  intro p hp hb
  rw [List.length_replicate] at hp
  rw [List.getD_eq_getElem _ _ (by simpa using hp), List.getElem_replicate] at hb
  omega

theorem below_tagged {bound : List Int} (h : Below m bound) {tagged : Bool}
    (hm : tagged = true → ∀ p, m p ≤ 1) : Below m (tagBounds tagged bound) := by
  unfold tagBounds
  split
  · next htag =>
    intro p hp hb
    rw [List.length_map] at hp
    have hat : (bound.map fun b => if b < 0 then 1 else min b 1).getD p 0 =
        if bound.getD p 0 < 0 then 1 else min (bound.getD p 0) 1 := by
      rw [List.getD_eq_getElem _ _ (by simpa using hp), List.getElem_map,
        List.getD_eq_getElem _ _ hp]
    rw [hat]
    split
    · exact hm htag p
    · next hneg => exact le_min (h p hp (by omega)) (hm htag p)
  · exact h

theorem tagBounds_length (tagged : Bool) (bound : List Int) :
    (tagBounds tagged bound).length = bound.length := by
  unfold tagBounds
  split
  · exact List.length_map _
  · rfl

theorem below_zeros {bound : List Int} {markable : List Bool} (h : Below m bound)
    (hzero : ∀ p < bound.length, markable.getD p false = false → m p = 0) :
    Below m (zeroBounds markable bound) := by
  unfold zeroBounds
  intro p hp hb
  rw [List.length_mapIdx] at hp
  have hat : (bound.mapIdx fun p b => if markable.getD p false then b else 0).getD p 0 =
      if markable.getD p false then bound.getD p 0 else 0 := by
    rw [List.getD_eq_getElem _ _ (by simpa using hp), List.getElem_mapIdx,
      List.getD_eq_getElem _ _ hp]
  rw [hat] at hb ⊢
  split
  · next hmark =>
    rw [if_pos hmark] at hb
    exact h p hp hb
  · next hmark => exact (hzero p hp (Bool.eq_false_iff.mpr hmark)).le

theorem boundTerms_length (bound : List Int) (f : PFlow) :
    (boundTerms bound f).length = bound.length := by
  unfold boundTerms
  induction f.terms generalizing bound with
  | nil => rfl
  | cons t ts ih => exact (ih _).trans (tighten_length _ _ _)

theorem boundAll_length (fs : List PFlow) : ∀ bound : List Int,
    (fs.foldl boundTerms bound).length = bound.length := by
  induction fs with
  | nil => exact fun _ => rfl
  | cons f fs ih => exact fun bound => (ih _).trans (boundTerms_length bound f)

/-- All the bounds, of a marking at which the sums hold. -/
theorem bounds_below {found : PConstraints} (hm : ∀ p, 0 ≤ m p) (h : found.Holds m)
    (hpos : ∀ f ∈ found.decreasing, ∀ t ∈ f.terms, 0 < t.2) {np : Nat} {tagged : Bool}
    (hone : tagged = true → ∀ p, m p ≤ 1) {markable : List Bool}
    (hzero : ∀ p < np, markable.getD p false = false → m p = 0) :
    Below m (found.decreasing.foldl boundTerms
      (zeroBounds markable (tagBounds tagged (flowBounds np found)))) := by
  have hflows : Below m (flowBounds np found) := by
    refine boundAll_below hm (fun f hf => ?_) (below_start np)
    obtain ⟨hmem, hp⟩ := List.mem_filter.mp hf
    have hp := (Bool.and_eq_true_iff.mp hp).2
    refine ⟨fun t ht => ?_, (h.equalities f hmem).le⟩
    simpa using List.all_eq_true.mp hp t ht
  have hlen : (tagBounds tagged (flowBounds np found)).length = np := by
    rw [tagBounds_length]
    exact (boundAll_length _ _).trans (List.length_replicate ..)
  refine boundAll_below hm (fun f hf => ⟨hpos f hf, h.decreasing f hf⟩) ?_
  exact below_zeros (below_tagged hflows hone) (fun p hp => hzero p (hlen ▸ hp))

end Bounds

/-! ## The facts hold of every reachable marking -/

/-- What is known of a marking: the bounds there are, and every sum. -/
structure ApproxSet.Holds (a : ApproxSet) (m : Nat → Int) : Prop where
  bound : ∀ p < a.bound.length, 0 ≤ a.bound.getD p 0 → 0 ≤ m p ∧ m p ≤ a.bound.getD p 0
  sums : PConstraints.Holds ⟨a.flows, a.decreasing, a.increasing⟩ m

theorem approxFacts_holds {net : SparsePetriNet} (hw : net.WF) {found : PConstraints}
    (hfound : found.Valid net) {units : Option UnitTree} (hsafe : SafeTag net units) {fuel : Nat}
    (hf : net.pnames.length + 1 < fuel) :
    ∃ a, approxFacts net units found fuel = some a ∧ a.bound.length = net.pnames.length ∧
      PConstraints.mk a.flows a.decreasing a.increasing = found ∧
      ∀ m, net.toNet.Reachable net.initial m → a.Holds (markAt m) := by
  obtain ⟨markable, hmarkable, -, -, hempty⟩ := markablePlaces_exact net hw fuel hf
  unfold approxFacts
  rw [hmarkable]
  refine ⟨_, rfl, ?_, rfl, fun m hm => ⟨?_, hfound.reachable hm⟩⟩
  · show (found.decreasing.foldl boundTerms _).length = _
    rw [boundAll_length, zeroBounds, List.length_mapIdx, tagBounds_length, flowBounds,
      boundAll_length, List.length_replicate]
    rfl
  · have hnonneg := hm.nonneg hw.nonneg fun p => (hw.initial p).1
    have hone : (units.any fun u => u.present && u.safe) = true → ∀ p, markAt m p ≤ 1 := by
      intro htag p
      unfold markAt
      split
      · exact hsafe htag m hm _
      · omega
    have hzero : ∀ p < net.pnames.length, markable.getD p false = false → markAt m p = 0 := by
      intro p hp hfalse
      rw [markAt, dif_pos hp]
      exact hempty m hm ⟨p, hp⟩ hfalse
    have hbelow := bounds_below (markAt_nonneg hnonneg) (hfound.reachable hm)
      (fun f hf => (hfound.decreasing f hf).2.1) hone hzero
    exact fun p hp hb => ⟨markAt_nonneg hnonneg p, hbelow p hp hb⟩

theorem approxFacts_tagged {net : SparsePetriNet} {units : Option UnitTree} {found : PConstraints}
    {fuel : Nat} {a : ApproxSet} (h : approxFacts net units found fuel = some a) :
    a.tagged = units.any fun u => u.present && u.safe := by
  unfold approxFacts at h
  obtain ⟨markable, -, h⟩ := Option.bind_eq_some_iff.mp h
  obtain rfl := Option.some.inj h
  rfl

end LibHSC.Petri
