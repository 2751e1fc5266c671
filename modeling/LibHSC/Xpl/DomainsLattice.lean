import LibHSC.Xpl.Domains
import Mathlib.Data.List.Induction
import Mathlib.Algebra.Order.BigOperators.Group.List
import Mathlib.Algebra.Order.Group.Nat

/-!
The domains of the inference as sets of values: what each operation holds, and why
the sweeps over the edges end. An operation that reports a change uses up height.
-/

namespace LibHSC.Xpl

open Lia

/-! ## Membership -/

def Dom.Has : Dom → Int → Prop
  | .bot, _ => False
  | .set vals, v => v ∈ vals.list
  | .interval lo hi, v => lo ≤ v ∧ v ≤ hi
  | .top, _ => True

namespace Dom

variable {d o : Dom} {v w l h : Int}

theorem hull_of_mem {vals : Values} (hv : v ∈ vals.list) :
    hullLo (.set vals) ≤ v ∧ v ≤ hullHi (.set vals) := by
  obtain ⟨xs, hs⟩ := vals
  simp only [hullLo, hullHi] at hv ⊢
  constructor
  · cases xs with
    | nil => cases hv
    | cons x xs =>
      rcases List.mem_cons.mp hv with rfl | hv
      · exact Int.le_refl _
      · exact Int.le_of_lt ((List.pairwise_cons.mp hs).1 v hv)
  · induction xs using List.reverseRecOn with
    | nil => cases hv
    | append_singleton xs x _ =>
      simp only [List.getLastD_concat]
      rcases List.mem_append.mp hv with hv | hv
      · exact Int.le_of_lt ((List.pairwise_append.mp hs).2.2 v hv x (by simp))
      · exact Int.le_of_eq (List.mem_singleton.mp hv)

theorem mem_insert {vals : Values} : v ∈ (vals.insert w).list ↔ v = w ∨ v ∈ vals.list :=
  mem_insertValue

theorem has_addValue (hv : d.Has v ∨ v = w) : (d.addValue w).1.Has v := by
  cases d with
  | bot =>
    obtain rfl : v = w := hv.resolve_left fun h => h
    exact mem_insert.mpr (.inl rfl)
  | top => trivial
  | interval lo hi =>
    rw [addValue]
    split
    · rcases hv with hv | rfl
      · exact hv
      · assumption
    · rcases hv with hv | rfl
      · exact ⟨(min_le_left _ _).trans hv.1, hv.2.trans (le_max_left _ _)⟩
      · exact ⟨min_le_right _ _, le_max_right _ _⟩
  | set vals =>
    have hmem : v ∈ (vals.insert w).list := mem_insert.mpr hv.symm
    rw [addValue]
    split
    · next hw =>
      rcases hv with hv | rfl
      · exact hv
      · exact hw
    · split
      · exact hull_of_mem hmem
      · exact hmem

theorem has_addInterval (hv : d.Has v ∨ (l ≤ v ∧ v ≤ h)) : (d.addInterval l h).1.Has v := by
  cases d with
  | bot => exact hv.resolve_left fun h => h
  | top => trivial
  | interval lo hi =>
    rw [addInterval]
    split
    · next heq =>
      rcases hv with hv | hv
      · exact hv
      · exact ⟨heq.1 ▸ (min_le_right lo l).trans hv.1, heq.2 ▸ hv.2.trans (le_max_right hi h)⟩
    · rcases hv with hv | hv
      · exact ⟨(min_le_left _ _).trans hv.1, hv.2.trans (le_max_left _ _)⟩
      · exact ⟨(min_le_right _ _).trans hv.1, hv.2.trans (le_max_right _ _)⟩
  | set vals =>
    rw [addInterval]
    rcases hv with hv | hv
    · obtain ⟨h1, h2⟩ := hull_of_mem hv
      exact ⟨(min_le_left _ _).trans h1, h2.trans (le_max_left _ _)⟩
    · exact ⟨(min_le_right _ _).trans hv.1, hv.2.trans (le_max_right _ _)⟩

theorem has_toTop : (d.toTop).1.Has v := by
  cases d with
  | bot => trivial
  | set vals => trivial
  | interval lo hi => trivial
  | top => trivial

theorem has_foldl_addValue {xs : List Int} : ∀ {x : Dom × Bool}, x.1.Has v ∨ v ∈ xs →
    (xs.foldl (fun x v => ((x.1.addValue v).1, x.2 || (x.1.addValue v).2)) x).1.Has v := by
  induction xs with
  | nil =>
    intro x hv
    exact hv.resolve_right (by simp)
  | cons w xs ih =>
    intro x hv
    refine ih ?_
    rcases hv with hv | hv
    · exact .inl (has_addValue (.inl hv))
    · rcases List.mem_cons.mp hv with rfl | hv
      · exact .inl (has_addValue (.inr rfl))
      · exact .inr hv

theorem has_join (hv : d.Has v ∨ o.Has v) : (d.join o).1.Has v := by
  cases o with
  | bot => exact hv.resolve_right fun h => h
  | top => exact has_toTop
  | interval lo hi => exact has_addInterval hv
  | set vals => exact has_foldl_addValue hv

/-- An operation that reports no change makes none. -/
theorem addValue_unchanged (hf : (d.addValue w).2 = false) : (d.addValue w).1 = d := by
  cases d with
  | bot => cases hf
  | top => rfl
  | interval lo hi =>
    rw [addValue] at hf ⊢
    split at hf
    · next h => rw [if_pos h]
    · cases hf
  | set vals =>
    rw [addValue] at hf ⊢
    split at hf
    · next h => rw [if_pos h]
    · split at hf
      · cases hf
      · cases hf

theorem addInterval_unchanged (hf : (d.addInterval l h).2 = false) :
    (d.addInterval l h).1 = d := by
  cases d with
  | bot => cases hf
  | top => rfl
  | interval lo hi =>
    rw [addInterval] at hf ⊢
    split at hf
    · next h => rw [if_pos h]
    · cases hf
  | set vals => cases hf

theorem foldl_addValue_unchanged {xs : List Int} : ∀ {x : Dom × Bool},
    (xs.foldl (fun x v => ((x.1.addValue v).1, x.2 || (x.1.addValue v).2)) x).2 = false →
    x.2 = false ∧
      (xs.foldl (fun x v => ((x.1.addValue v).1, x.2 || (x.1.addValue v).2)) x).1 = x.1 := by
  induction xs with
  | nil => exact fun h => ⟨h, rfl⟩
  | cons w xs ih =>
    intro x hf
    obtain ⟨h1, h2⟩ := ih hf
    obtain ⟨h1, h3⟩ := Bool.or_eq_false_iff.mp h1
    refine ⟨h1, ?_⟩
    rw [List.foldl_cons, h2]
    exact addValue_unchanged h3

theorem join_unchanged (hf : (d.join o).2 = false) : (d.join o).1 = d := by
  cases o with
  | bot => rfl
  | top =>
    cases d with
    | top => rfl
    | bot => cases hf
    | set vals => cases hf
    | interval lo hi => cases hf
  | interval lo hi => exact addInterval_unchanged hf
  | set vals => exact (foldl_addValue_unchanged hf).2

end Dom

theorem satAdd_of_range {a b : Int} (h1 : kMin ≤ a + b) (h2 : a + b ≤ kMax) :
    satAdd a b = a + b := by
  unfold satAdd
  rw [if_neg (by omega), if_neg (by omega)]

theorem satAdd_mono {a b c : Int} (h : a ≤ b) : satAdd a c ≤ satAdd b c := by
  unfold satAdd kMin kMax
  split
  · split
    · omega
    · split
      · omega
      · omega
  · split
    · split
      · omega
      · split
        · omega
        · omega
    · split
      · omega
      · split
        · omega
        · omega

theorem has_foldl_restrict {glo ghi o v : Int} {xs : List Int} : ∀ {out : Dom},
    out.Has (satAdd v o) ∨ (v ∈ xs ∧ glo ≤ v ∧ v ≤ ghi) →
    (xs.foldl (fun out v => if glo ≤ v ∧ v ≤ ghi then (out.addValue (satAdd v o)).1 else out)
      out).Has (satAdd v o) := by
  induction xs with
  | nil =>
    intro out hv
    exact hv.resolve_right (by simp)
  | cons w xs ih =>
    intro out hv
    refine ih ?_
    rcases hv with hv | ⟨hv, hr⟩
    · refine .inl ?_
      dsimp only
      split
      · exact Dom.has_addValue (.inl hv)
      · exact hv
    · rcases List.mem_cons.mp hv with rfl | hv
      · refine .inl ?_
        dsimp only
        rw [if_pos hr]
        exact Dom.has_addValue (.inr rfl)
      · exact .inr ⟨hv, hr⟩

/-- A value inside the restriction, shifted inside the machine range, is in the result. -/
theorem has_restrictShift {d : Dom} {glo ghi o v : Int} (hv : d.Has v) (h1 : glo ≤ v)
    (h2 : v ≤ ghi) (hlo : kMin ≤ v + o) (hhi : v + o ≤ kMax) :
    (restrictShift d glo ghi o).Has (v + o) := by
  have hsat := satAdd_of_range hlo hhi
  have hends : ∀ l h : Int, l ≤ v → v ≤ h → (if l = kMin then kMin else satAdd l o) ≤ v + o ∧
        v + o ≤ if h = kMax then kMax else satAdd h o := by
    intro l h hl hh
    constructor
    · split
      · exact hlo
      · exact hsat ▸ satAdd_mono hl
    · split
      · exact hhi
      · exact hsat ▸ satAdd_mono hh
  cases d with
  | bot => exact hv.elim
  | top =>
    rw [restrictShift]
    split
    · trivial
    · exact hends glo ghi h1 h2
  | set vals =>
    have h : (restrictShift (.set vals) glo ghi o).Has (satAdd v o) :=
      has_foldl_restrict (.inr ⟨hv, h1, h2⟩)
    rwa [hsat] at h
  | interval lo hi =>
    have hl : max lo glo ≤ v := max_le hv.1 h1
    have hh : v ≤ min hi ghi := le_min hv.2 h2
    rw [restrictShift, if_pos (hl.trans hh)]
    exact hends _ _ hl hh

/-! ## The fixpoint ends -/

/-- A bound on the changes left. -/
def Dom.height : Dom → Nat
  | .top => 0
  | .interval lo hi =>
    1 + (min lo (kMax + 1) - kMin).toNat + (kMax - max hi (kMin - 1)).toNat
  | .set vals => 10000000000 + (kSetCap + 1 - vals.list.length)
  | .bot => 10000000000 + kSetCap + 2

/-- What a domain brings stays inside the machine range. -/
def Dom.Machine : Dom → Prop
  | .set vals => ∀ v ∈ vals.list, kMin ≤ v ∧ v ≤ kMax
  | .interval lo hi => kMin ≤ lo ∧ lo ≤ kMax ∧ kMin ≤ hi ∧ hi ≤ kMax
  | _ => True

namespace Dom

variable {d o : Dom} {v w l h : Int}

theorem height_interval_lt (lo hi : Int) : (interval lo hi).height < 10000000000 := by
  simp only [height, kMax, kMin]
  omega

theorem length_insertValue {xs : List Int} (hv : v ∉ xs) :
    (insertValue v xs).length = xs.length + 1 := by
  induction xs with
  | nil => rfl
  | cons x xs ih =>
    obtain ⟨hne, hv⟩ := not_or.mp (mt List.mem_cons.mpr hv)
    rw [insertValue, if_neg hne]
    split
    · rfl
    · rw [List.length_cons, ih hv, List.length_cons]

theorem height_addValue (hw : kMin ≤ w ∧ w ≤ kMax) (hf : (d.addValue w).2 = true) :
    (d.addValue w).1.height < d.height := by
  cases d with
  | bot =>
    simp only [addValue, height, Values.insert, Values.empty, insertValue, List.length_singleton,
      kSetCap]
    omega
  | top => cases hf
  | interval lo hi =>
    rw [addValue] at hf ⊢
    split at hf
    · cases hf
    · next hout =>
      rw [if_neg hout]
      simp only [height, kMin, kMax] at hw ⊢
      omega
  | set vals =>
    rw [addValue] at hf ⊢
    split at hf
    · cases hf
    · next hmem =>
      rw [if_neg hmem]
      split
      · have hlt := height_interval_lt (hullLo (.set (vals.insert w)))
          (hullHi (.set (vals.insert w)))
        simp only [toInterval, height] at hlt ⊢
        omega
      · next hcap =>
        have hlen : (vals.insert w).list.length = vals.list.length + 1 :=
          length_insertValue hmem
        simp only [height]
        omega

theorem height_addInterval (hm : (interval l h).Machine) (hf : (d.addInterval l h).2 = true) :
    (d.addInterval l h).1.height < d.height := by
  cases d with
  | bot =>
    have hlt := height_interval_lt l h
    simp only [addInterval, height] at hlt ⊢
    omega
  | top => cases hf
  | interval lo hi =>
    rw [addInterval] at hf ⊢
    split at hf
    · cases hf
    · next hne =>
      rw [if_neg hne]
      simp only [height, Machine, kMin, kMax] at hm ⊢
      omega
  | set vals =>
    have hlt := height_interval_lt (min (hullLo (.set vals)) l) (max (hullHi (.set vals)) h)
    simp only [addInterval, height] at hlt ⊢
    omega

theorem height_foldl_addValue {xs : List Int} : ∀ {x : Dom × Bool},
    (∀ v ∈ xs, kMin ≤ v ∧ v ≤ kMax) → x.2 = false →
    (xs.foldl (fun x v => ((x.1.addValue v).1, x.2 || (x.1.addValue v).2)) x).2 = true →
    (xs.foldl (fun x v => ((x.1.addValue v).1, x.2 || (x.1.addValue v).2)) x).1.height <
      x.1.height := by
  have hle : ∀ (xs : List Int) (x : Dom × Bool), (∀ v ∈ xs, kMin ≤ v ∧ v ≤ kMax) →
      (xs.foldl (fun x v => ((x.1.addValue v).1, x.2 || (x.1.addValue v).2)) x).1.height ≤
        x.1.height := by
    intro xs
    induction xs with
    | nil => exact fun _ _ => Nat.le_refl _
    | cons w xs ih =>
      intro x hxs
      obtain ⟨hw, hxs⟩ := List.forall_mem_cons.mp hxs
      refine (ih _ hxs).trans ?_
      cases hf : (x.1.addValue w).2 with
      | true => exact Nat.le_of_lt (height_addValue hw hf)
      | false => rw [addValue_unchanged hf]
  induction xs with
  | nil =>
    intro x _ h1 h2
    rw [List.foldl_nil, h1] at h2
    cases h2
  | cons w xs ih =>
    intro x hxs hfalse hf
    obtain ⟨hw, hxs⟩ := List.forall_mem_cons.mp hxs
    cases hw' : (x.1.addValue w).2 with
    | true => exact Nat.lt_of_le_of_lt (hle xs _ hxs) (height_addValue hw hw')
    | false =>
      have hnext := ih (x := ((x.1.addValue w).1, x.2 || (x.1.addValue w).2)) hxs
        (by simp [hfalse, hw']) hf
      rw [addValue_unchanged hw'] at hnext
      rw [List.foldl_cons, addValue_unchanged hw']
      exact hnext

theorem height_join (hm : o.Machine) (hf : (d.join o).2 = true) :
    (d.join o).1.height < d.height := by
  cases o with
  | bot => cases hf
  | top =>
    cases d with
    | top => cases hf
    | bot => simp only [join, toTop, height]; omega
    | set vals => simp only [join, toTop, height]; omega
    | interval lo hi => simp only [join, toTop, height]; omega
  | interval lo hi => exact height_addInterval hm hf
  | set vals => exact height_foldl_addValue hm rfl hf

end Dom

theorem satAdd_range (a b : Int) : kMin ≤ satAdd a b ∧ satAdd a b ≤ kMax := by
  unfold satAdd kMin kMax
  split
  · omega
  · split
    · omega
    · omega

theorem machine_addValue {d : Dom} {w : Int} (hd : d.Machine) (hw : kMin ≤ w ∧ w ≤ kMax) :
    (d.addValue w).1.Machine := by
  cases d with
  | bot =>
    intro v hv
    obtain rfl : v = w := (Dom.mem_insert.mp hv).resolve_right (by simp [Values.empty])
    exact hw
  | top => trivial
  | interval lo hi =>
    rw [Dom.addValue]
    split
    · exact hd
    · obtain ⟨h1, h2, h3, h4⟩ := hd
      exact ⟨le_min h1 hw.1, (min_le_left _ _).trans h2, h3.trans (le_max_left _ _), max_le h4 hw.2⟩
  | set vals =>
    have hins : ∀ v ∈ (vals.insert w).list, kMin ≤ v ∧ v ≤ kMax := by
      intro v hv
      rcases Dom.mem_insert.mp hv with rfl | hv
      · exact hw
      · exact hd v hv
    rw [Dom.addValue]
    split
    · exact hd
    · split
      · have hmem : w ∈ (vals.insert w).list := Dom.mem_insert.mpr (.inl rfl)
        generalize vals.insert w = u at hins hmem
        obtain ⟨xs, hs⟩ := u
        cases xs with
        | nil => cases hmem
        | cons x xs =>
          have hlast : (x :: xs).getLastD 0 ∈ x :: xs := by
            rw [List.getLastD_cons]
            exact List.getLastD_mem_cons ..
          have h1 := hins x (by simp)
          have h2 := hins _ hlast
          exact ⟨h1.1, h1.2, h2.1, h2.2⟩
      · exact hins

theorem machine_restrictShift (d : Dom) (glo ghi o : Int) :
    (restrictShift d glo ghi o).Machine := by
  have hends : ∀ l h : Int, (Dom.interval (if l = kMin then kMin else satAdd l o)
      (if h = kMax then kMax else satAdd h o)).Machine := by
    intro l h
    have hl := satAdd_range l o
    have hh := satAdd_range h o
    refine ⟨?_, ?_, ?_, ?_⟩
    · split
      · exact Int.le_refl _
      · exact hl.1
    · split
      · decide
      · exact hl.2
    · split
      · decide
      · exact hh.1
    · split
      · exact Int.le_refl _
      · exact hh.2
  cases d with
  | bot => trivial
  | top =>
    rw [restrictShift]
    split
    · trivial
    · exact hends glo ghi
  | interval lo hi =>
    rw [restrictShift]
    split
    · exact hends _ _
    · trivial
  | set vals =>
    have hfold : ∀ (xs : List Int) (out : Dom), out.Machine →
        (xs.foldl (fun out v => if glo ≤ v ∧ v ≤ ghi then (out.addValue (satAdd v o)).1 else out)
          out).Machine := by
      intro xs
      induction xs with
      | nil => exact fun _ h => h
      | cons w xs ih =>
        intro out hout
        refine ih _ ?_
        dsimp only
        split
        · exact machine_addValue hout (satAdd_range w o)
        · exact hout
    exact hfold _ _ trivial

section Fixpoint

variable {win : Constraints}

theorem machine_brings (e : Edge) (doms : Nat → Dom) : (e.brings win doms).Machine := by
  unfold Edge.brings clip
  split
  · exact machine_restrictShift _ _ _ _
  · exact machine_restrictShift _ _ _ _

/-- The changes left at the destinations of the edges. -/
def changesLeft (edges : List Edge) (doms : Nat → Dom) : Nat :=
  (edges.map fun e => (doms e.dst).height).sum

theorem changesLeft_update_lt {edges : List Edge} {doms : Nat → Dom} {e : Edge} {d : Dom}
    (he : e ∈ edges) (h : d.height < (doms e.dst).height) :
    changesLeft edges (Function.update doms e.dst d) < changesLeft edges doms := by
  refine List.sum_lt_sum _ _ (fun e' _ => ?_) ⟨e, he, ?_⟩
  · by_cases he' : e'.dst = e.dst
    · rw [he', Function.update_self]
      exact Nat.le_of_lt h
    · rw [Function.update_of_ne he']
  · rw [Function.update_self]
    exact h

/-- A sweep over some of the edges: it never climbs, a change goes down, and without a change
nothing moves. -/
theorem sweep_spec (win : Constraints) {edges : List Edge} :
    ∀ {es : List Edge} {x : (Nat → Dom) × Bool},
    (∀ e ∈ es, e ∈ edges) →
    changesLeft edges (es.foldl (sweepEdge win) x).1 ≤ changesLeft edges x.1 ∧
    (x.2 = false → (es.foldl (sweepEdge win) x).2 = true →
      changesLeft edges (es.foldl (sweepEdge win) x).1 < changesLeft edges x.1) ∧
    ((es.foldl (sweepEdge win) x).2 = false → x.2 = false ∧ (es.foldl (sweepEdge win) x).1 = x.1 ∧
      ∀ e ∈ es, ((x.1 e.dst).join (e.brings win x.1)).2 = false) := by
  intro es
  induction es with
  | nil =>
    intro x _
    refine ⟨Nat.le_refl _, fun h1 h2 => ?_, fun h => ⟨h, rfl, by simp⟩⟩
    rw [List.foldl_nil, h1] at h2
    cases h2
  | cons e es ih =>
    intro x hes
    obtain ⟨he, hes⟩ := List.forall_mem_cons.mp hes
    rw [List.foldl_cons]
    obtain ⟨h1, h2, h3⟩ := ih (x := sweepEdge win x e) hes
    cases hj : ((x.1 e.dst).join (e.brings win x.1)).2 with
    | true =>
      have hlt : changesLeft edges (sweepEdge win x e).1 < changesLeft edges x.1 :=
        changesLeft_update_lt he (Dom.height_join (machine_brings e x.1) hj)
      have hflag : (sweepEdge win x e).2 = true := by simp [sweepEdge, hj]
      refine ⟨h1.trans (Nat.le_of_lt hlt), fun _ _ => Nat.lt_of_le_of_lt h1 hlt, fun h => ?_⟩
      rw [(h3 h).1] at hflag
      cases hflag
    | false =>
      have hsame : (sweepEdge win x e).1 = x.1 := by
        show Function.update x.1 e.dst ((x.1 e.dst).join (e.brings win x.1)).1 = x.1
        rw [Dom.join_unchanged hj]
        exact Function.update_eq_self _ _
      have hflag : (sweepEdge win x e).2 = x.2 := by simp [sweepEdge, hj]
      rw [hsame, hflag] at h2 h3
      refine ⟨hsame ▸ h1, h2, fun h => ?_⟩
      obtain ⟨h4, h5, h6⟩ := h3 h
      exact ⟨h4, h5, List.forall_mem_cons.mpr ⟨hj, h6⟩⟩

/-- Each sweep that changes something uses up a change. -/
theorem exists_fixpoint (win : Constraints) (edges : List Edge) : ∀ (fuel : Nat) (doms : Nat → Dom),
    changesLeft edges doms < fuel → ∃ out, fixpoint win edges fuel doms = some out := by
  intro fuel
  induction fuel with
  | zero => exact fun doms h => absurd h (Nat.not_lt_zero _)
  | succ fuel ih =>
    intro doms hlt
    obtain ⟨-, h2, -⟩ := sweep_spec win (x := (doms, false)) fun e he => he
    rw [fixpoint]
    cases hsweep : edges.foldl (sweepEdge win) (doms, false) with
    | mk doms' changed =>
      cases changed with
      | false => exact ⟨doms', rfl⟩
      | true =>
        rw [hsweep] at h2
        have hless : changesLeft edges doms' < changesLeft edges doms := h2 rfl rfl
        exact ih doms' (by omega)

/-- What the destination of an edge must hold: every value of the source that the guards
and the machine let through, unless the declared window cuts it off. -/
def Edge.Closed (win : Constraints) (doms : Nat → Dom) (e : Edge) : Prop :=
  ∀ v, (doms e.src).Has v → e.rlo ≤ v → v ≤ e.rhi → kMin ≤ v + e.shift → v + e.shift ≤ kMax →
    (∀ lo hi, win e.dst = some (lo, hi) → lo ≤ v + e.shift ∧ v + e.shift ≤ hi) →
    (doms e.dst).Has (v + e.shift)

/-- Every value of one family of domains is in the other. -/
def DomsLe (doms doms' : Nat → Dom) : Prop := ∀ p v, (doms p).Has v → (doms' p).Has v

theorem domsLe_update {doms : Nat → Dom} {r : Nat} {d : Dom}
    (h : ∀ v, (doms r).Has v → d.Has v) : DomsLe doms (Function.update doms r d) := by
  intro p v hv
  by_cases hp : p = r
  · subst hp
    rw [Function.update_self]
    exact h v hv
  · rw [Function.update_of_ne hp]
    exact hv

theorem sweep_le (win : Constraints) : ∀ (es : List Edge) (x : (Nat → Dom) × Bool),
    DomsLe x.1 (es.foldl (sweepEdge win) x).1 := by
  intro es
  induction es with
  | nil => exact fun x p v hv => hv
  | cons e es ih =>
    intro x p v hv
    exact ih _ p v (domsLe_update (fun u hu => Dom.has_join (.inl hu)) p v hv)

theorem has_brings {e : Edge} {doms : Nat → Dom} {v : Int} (hv : (doms e.src).Has v)
    (h1 : e.rlo ≤ v) (h2 : v ≤ e.rhi) (hlo : kMin ≤ v + e.shift) (hhi : v + e.shift ≤ kMax)
    (hwin : ∀ lo hi, win e.dst = some (lo, hi) → lo ≤ v + e.shift ∧ v + e.shift ≤ hi) :
    (e.brings win doms).Has (v + e.shift) := by
  have h := has_restrictShift hv h1 h2 hlo hhi
  unfold Edge.brings clip
  split
  · next lo hi heq =>
    obtain ⟨h3, h4⟩ := hwin lo hi heq
    have h5 := has_restrictShift (o := 0) h h3 h4 (by omega) (by omega)
    rwa [Int.add_zero] at h5
  · exact h

/-- The end of the fixpoint: nothing is lost and every edge is closed. -/
theorem fixpoint_spec {edges : List Edge} : ∀ {fuel : Nat} {doms out : Nat → Dom},
    fixpoint win edges fuel doms = some out →
    DomsLe doms out ∧ ∀ e ∈ edges, e.Closed win out := by
  intro fuel
  induction fuel with
  | zero =>
    intro doms out h
    cases h
  | succ fuel ih =>
    intro doms out h
    have hle := sweep_le win edges (doms, false)
    obtain ⟨-, -, h3⟩ := sweep_spec win (x := (doms, false)) fun (e : Edge) (he : e ∈ edges) => he
    rw [fixpoint] at h
    cases hsweep : edges.foldl (sweepEdge win) (doms, false) with
    | mk doms' changed =>
      rw [hsweep] at h h3 hle
      cases changed with
      | true =>
        obtain ⟨h1, h2⟩ := ih h
        exact ⟨fun p v hv => h1 p v (hle p v hv), h2⟩
      | false =>
        cases h
        obtain ⟨-, hsame, hedges⟩ := h3 rfl
        refine ⟨hle, fun e he v hv h1 h2 hlo hhi hwin => ?_⟩
        have hsame : out = doms := hsame
        subst hsame
        have hjoin := Dom.has_join (d := out e.dst) (.inr (has_brings hv h1 h2 hlo hhi hwin))
        rwa [Dom.join_unchanged (hedges e he)] at hjoin

/-- An erased edge leaves its destination unconstrained. -/
theorem eraseLoop_spec (win : Constraints) (old : List Edge) :
    ∀ (rest kept : List Edge) (doms : Nat → Dom),
    DomsLe doms (eraseLoop win old rest kept doms).2 ∧
    ∀ e, e ∈ kept ∨ e ∈ rest → e ∈ (eraseLoop win old rest kept doms).1 ∨
      ∀ v, ((eraseLoop win old rest kept doms).2 e.dst).Has v := by
  intro rest
  induction rest with
  | nil =>
    intro kept doms
    exact ⟨fun p v hv => hv, fun e he => .inl (he.resolve_right (by simp))⟩
  | cons x rest ih =>
    intro kept doms
    have hkeep : ∀ e, e ∈ kept ∨ e ∈ x :: rest → e ∈ kept ++ [x] ∨ e ∈ rest := by
      intro e he
      rcases he with he | he
      · exact .inl (List.mem_append_left _ he)
      · rcases List.mem_cons.mp he with rfl | he
        · exact .inl (by simp)
        · exact .inr he
    rw [eraseLoop]
    split
    · obtain ⟨h1, h2⟩ := ih (kept ++ [x]) doms
      exact ⟨h1, fun e he => h2 e (hkeep e he)⟩
    · split
      · obtain ⟨h1, h2⟩ := ih kept (Function.update doms x.dst .top)
        have htop : DomsLe doms (Function.update doms x.dst .top) :=
          domsLe_update fun _ _ => trivial
        refine ⟨fun p v hv => h1 p v (htop p v hv), fun e he => ?_⟩
        rcases he with he | he
        · exact h2 e (.inl he)
        · rcases List.mem_cons.mp he with rfl | he
          · refine .inr fun v => h1 _ v ?_
            rw [Function.update_self]
            trivial
          · exact h2 e (.inr he)
      · obtain ⟨h1, h2⟩ := ih (kept ++ [x]) doms
        exact ⟨h1, fun e he => h2 e (hkeep e he)⟩

end Fixpoint

end LibHSC.Xpl
