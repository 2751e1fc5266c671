import LibHSC.Petri.ToSurface
import LibHSC.Surface.CegarEvent

/-!
The net effect of a transition, as the emitter collects it, is what the transition gives
less what it takes. An event that adds the effect of a list of positions to a state of
machine values makes that state, or overflows.
-/

namespace LibHSC.Petri

open Surface Xpl Lia

/-! ## The map of effects -/

section Total

variable {j k : Nat} {d : Int}

/-- What a list of changes adds to one key. -/
def total (j : Nat) : List (Nat × Int) → Int
  | [] => 0
  | e :: es => (if e.1 = j then e.2 else 0) + total j es

theorem total_append (es fs : List (Nat × Int)) :
    total j (es ++ fs) = total j es + total j fs := by
  induction es with
  | nil => simp [total]
  | cons e es ih => simp [total, ih, add_assoc]

theorem total_neg (es : List (Nat × Int)) :
    total j (es.map fun e => (e.1, -e.2)) = -total j es := by
  induction es with
  | nil => rfl
  | cons e es ih =>
    simp only [List.map_cons, total, ih]
    split <;> omega

theorem total_notMem {es : List (Nat × Int)} (h : j ∉ es.map Prod.fst) : total j es = 0 := by
  induction es with
  | nil => rfl
  | cons e es ih =>
    obtain ⟨hne, hes⟩ := not_or.mp (mt List.mem_cons.mpr h)
    rw [total, ih hes, if_neg (Ne.symm hne), add_zero]

theorem total_mem {es : List (Nat × Int)} (hnd : (es.map Prod.fst).Nodup) (h : (j, d) ∈ es) :
    total j es = d := by
  induction es with
  | nil => cases h
  | cons e es ih =>
    obtain ⟨he, hes⟩ := List.nodup_cons.mp hnd
    rw [total]
    rcases List.mem_cons.mp h with rfl | h
    · rw [if_pos rfl, total_notMem he, add_zero]
    · have hne : e.1 ≠ j := by
        rintro rfl
        have := List.mem_map_of_mem (f := Prod.fst) h
        exact he this
      rw [if_neg hne, ih hes h, zero_add]

theorem total_get (a : SparseArray) : total j a.entries = a.get j := by
  by_cases h : a.get j = 0
  · rw [h, total_notMem (SparseArray.get_eq_zero_iff.mp h)]
  · exact total_mem a.nodup (SparseArray.mem_of_get h)

theorem total_accumulate (m : List (Nat × Int)) :
    total j (accumulate k d m) = total j m + if k = j then d else 0 := by
  induction m with
  | nil => simp [accumulate, total]
  | cons e m ih =>
    obtain ⟨i, v⟩ := e
    rw [accumulate]
    split
    · simp only [total]
      omega
    · split
      · next h =>
        subst h
        simp only [total]
        split <;> omega
      · simp only [total, ih]
        omega

theorem mem_keys_accumulate (m : List (Nat × Int)) :
    j ∈ (accumulate k d m).map Prod.fst ↔ j = k ∨ j ∈ m.map Prod.fst := by
  induction m with
  | nil => simp [accumulate]
  | cons e m ih =>
    obtain ⟨i, v⟩ := e
    rw [accumulate]
    split
    · simp
    · split
      · next h => simp [h]
      · simp only [List.map_cons, List.mem_cons, ih]
        tauto

theorem ascending_accumulate {m : List (Nat × Int)} (h : (m.map Prod.fst).Pairwise (· < ·)) :
    ((accumulate k d m).map Prod.fst).Pairwise (· < ·) := by
  induction m with
  | nil => simp [accumulate]
  | cons e m ih =>
    obtain ⟨i, v⟩ := e
    obtain ⟨hlt, hm⟩ := List.pairwise_cons.mp h
    rw [accumulate]
    split
    · next hk =>
      refine List.pairwise_cons.mpr ⟨fun x hx => ?_, h⟩
      rcases List.mem_cons.mp hx with rfl | hx
      · exact hk
      · exact hk.trans (hlt x hx)
    · split
      · exact h
      · refine List.pairwise_cons.mpr ⟨fun x hx => ?_, ih hm⟩
        rcases (mem_keys_accumulate m).mp hx with rfl | hx
        · show i < x
          omega
        · exact hlt x hx

theorem collected {es : List (Nat × Int)} : ∀ {m : List (Nat × Int)},
    (m.map Prod.fst).Pairwise (· < ·) →
    ((es.foldl (fun m e => accumulate e.1 e.2 m) m).map Prod.fst).Pairwise (· < ·) ∧
      (∀ j, total j (es.foldl (fun m e => accumulate e.1 e.2 m) m) = total j m + total j es) ∧
      ∀ j, j ∈ (es.foldl (fun m e => accumulate e.1 e.2 m) m).map Prod.fst ↔
        j ∈ m.map Prod.fst ∨ j ∈ es.map Prod.fst := by
  induction es with
  | nil =>
    intro m hm
    exact ⟨hm, by simp [total], by simp⟩
  | cons e es ih =>
    intro m hm
    obtain ⟨hasc, htot, hmem⟩ := ih (ascending_accumulate (k := e.1) (d := e.2) hm)
    refine ⟨hasc, fun j => ?_, fun j => ?_⟩
    · rw [List.foldl_cons, htot, total_accumulate, total, add_assoc]
    · rw [List.foldl_cons, hmem, mem_keys_accumulate, List.map_cons, List.mem_cons]
      tauto

end Total

section Delta

variable {pre post : SparseArray}

theorem delta_eq : delta pre post = (pre.entries.map (fun e => (e.1, -e.2)) ++ post.entries).foldl
      (fun m e => accumulate e.1 e.2 m) [] := by
  rw [delta, List.foldl_append, List.foldl_map]

theorem delta_nodup : ((delta pre post).map Prod.fst).Nodup := by
  rw [delta_eq]
  exact (collected (by simp)).1.imp Nat.ne_of_lt

theorem delta_total (j : Nat) : total j (delta pre post) = post.get j - pre.get j := by
  rw [delta_eq, (collected (by simp)).2.1, total_append, total_neg, total_get, total_get]
  simp only [total]
  omega

theorem delta_key {j : Nat} (h : j ∈ (delta pre post).map Prod.fst) :
    j ∈ pre.entries.map Prod.fst ∨ j ∈ post.entries.map Prod.fst := by
  rw [delta_eq, (collected (by simp)).2.2] at h
  simpa using h

/-- The places whose number of tokens changes, with the change. -/
def changes (pre post : SparseArray) : List (Nat × Int) :=
  (delta pre post).filter fun e => e.2 ≠ 0

theorem changes_nodup : ((changes pre post).map Prod.fst).Nodup :=
  delta_nodup.sublist (List.filter_sublist.map Prod.fst)

theorem mem_changes {e : Nat × Int} (h : e ∈ changes pre post) :
    e.2 ≠ 0 ∧ e.2 = post.get e.1 - pre.get e.1 ∧
      (e.1 ∈ pre.entries.map Prod.fst ∨ e.1 ∈ post.entries.map Prod.fst) := by
  obtain ⟨hmem, hne⟩ := List.mem_filter.mp h
  refine ⟨by simpa using hne, ?_, delta_key (List.mem_map_of_mem hmem)⟩
  rw [← delta_total, total_mem delta_nodup hmem]

theorem changes_total (j : Nat) : total j (changes pre post) = post.get j - pre.get j := by
  rw [← delta_total]
  by_cases h : j ∈ (delta pre post).map Prod.fst
  · obtain ⟨⟨i, d⟩, hmem, rfl⟩ := List.mem_map.mp h
    rw [total_mem delta_nodup hmem]
    by_cases hd : d = 0
    · rw [hd, total_notMem]
      intro hc
      obtain ⟨⟨i', d'⟩, hmem', heq⟩ := List.mem_map.mp hc
      obtain ⟨hin, hne⟩ := List.mem_filter.mp hmem'
      obtain rfl : i' = i := heq
      have h1 := total_mem delta_nodup hmem
      rw [total_mem delta_nodup hin] at h1
      simp [h1, hd] at hne
    · exact total_mem changes_nodup (List.mem_filter.mpr ⟨hmem, by simpa using hd⟩)
  · rw [total_notMem h, total_notMem]
    intro hc
    obtain ⟨e, hmem, rfl⟩ := List.mem_map.mp hc
    exact h (List.mem_map_of_mem (List.mem_filter.mp hmem).1)

theorem noEffect_iff : noEffect (delta pre post) = true ↔ ∀ j, pre.get j = post.get j := by
  have hzero : noEffect (delta pre post) = true ↔ ∀ j, total j (delta pre post) = 0 := by
    simp only [noEffect, List.all_eq_true, decide_eq_true_eq]
    constructor
    · intro h j
      by_cases hj : j ∈ (delta pre post).map Prod.fst
      · obtain ⟨⟨i, d⟩, hmem, rfl⟩ := List.mem_map.mp hj
        rw [total_mem delta_nodup hmem]
        exact h _ hmem
      · exact total_notMem hj
    · intro h e he
      rw [← total_mem delta_nodup he]
      exact h e.1
  rw [hzero]
  simp only [delta_total]
  exact forall_congr' fun j => by omega

end Delta

/-! ## Adding to positions -/

/-- A value at one position: what is there, plus a constant. -/
structure Adds (e : IExpr) (p : Nat) (c : Int) : Prop where
  within : e.Within (· = p) NoCell
  value : ∀ (w : Xpl.Word) (x : Int), w[p]? = some x → InInt32 x → strictInt w e = check32 (x + c)

section Adds

variable {R : ExprIds} {p : Nat} {c : Int}

theorem check32_ok {v : Int} (h : InInt32 v) : check32 v = .ok v := if_pos h

theorem within_pair {a b : IExpr} (ha : a.Within (· = p) NoCell) (hb : b.Within (· = p) NoCell) :
    (IExpr.nary .plus [a, b]).Within (· = p) NoCell := by
  rw [IExpr.within_nary]
  simp only [List.mem_cons, List.not_mem_nil, or_false]
  rintro x (rfl | rfl)
  · exact ha
  · exact hb

theorem add_adds (hc : InInt32 c) (hne : c ≠ 0) :
    ∃ e, Lia.add R (.var p) (.const c) = .ok e ∧ Adds e p c := by
  have hsort : ∃ xs, sortOps R [.var p, .const c] = xs ∧
      (xs = [.var p, .const c] ∨ xs = [.const c, .var p]) := by
    refine ⟨_, rfl, ?_⟩
    simp only [sortOps, List.insertionSort, List.foldr, List.orderedInsert]
    split
    · exact .inl rfl
    · exact .inr rfl
  obtain ⟨xs, hxs, hcases⟩ := hsort
  have hmade : Lia.add R (.var p) (.const c) = .ok (.nary .plus xs) := by
    rw [← hxs]
    simp [Lia.add, nary, gatherOps, NaryOp.accumulate, NaryOp.neutral, narrow, hc, withConst, hne,
      packOps, bind, Except.bind, pure, Except.pure]
  refine ⟨_, hmade, ?_⟩
  have hv : (IExpr.var p).Within (· = p) NoCell := IExpr.within_var.mpr rfl
  have hk : (IExpr.const c).Within (· = p) NoCell := IExpr.within_const c
  rcases hcases with rfl | rfl
  · refine ⟨within_pair hv hk, fun w x hx hr => ?_⟩
    simp [strictInt, Xpl.evalInt, Xpl.evalNary, hx, NaryOp.eval, NaryOp.neutral, check32_ok hr,
      bind, Except.bind]
    cases check32 (x + c) <;> rfl
  · refine ⟨within_pair hk hv, fun w x hx hr => ?_⟩
    simp [strictInt, Xpl.evalInt, Xpl.evalNary, hx, NaryOp.eval, NaryOp.neutral, check32_ok hc,
      bind, Except.bind, add_comm c x]
    cases check32 (x + c) <;> rfl

theorem minus_adds : Adds (.binary .minus (.var p) (.const (-c))) p c where
  within := ⟨by simp [collect], by simp [collectArrays]⟩
  value := by
    intro w x hx _
    simp [strictInt, Xpl.evalInt, hx, foldStep, bind, Except.bind]
    cases check32 (x + c) <;> rfl

end Adds

/-- The states after the changes: each position with its change added. -/
def addAll (es : List (Nat × Int)) (w : Xpl.Word) : Xpl.Word :=
  w.mapIdx fun i x => x + total i es

/-- Assignments that add to distinct positions add all at once, or overflow. -/
theorem runAssigns_adds {rhs : Nat × Int → IExpr} {es : List (Nat × Int)}
    (hrhs : ∀ e ∈ es, Adds (rhs e) e.1 e.2) : ∀ {w t : Xpl.Word},
    (es.map Prod.fst).Nodup → (∀ e ∈ es, ∃ x, w[e.1]? = some x ∧ InInt32 x) →
    (runAssigns (es.map fun e => (e.1, rhs e)) w = .ok t ↔
      (∀ e ∈ es, ∀ x, w[e.1]? = some x → InInt32 (x + e.2)) ∧ t = addAll es w) := by
  induction es with
  | nil =>
    intro w t _ _
    have hid : addAll [] w = w := by
      refine List.ext_getElem? fun i => ?_
      simp [addAll, total]
    simp [runAssigns, hid, eq_comm]
  | cons e es ih =>
    intro w t hnd hw
    obtain ⟨he, hes⟩ := List.nodup_cons.mp hnd
    obtain ⟨hadd, hrhs⟩ := List.forall_mem_cons.mp hrhs
    obtain ⟨⟨x, hx, hr⟩, hw⟩ := List.forall_mem_cons.mp hw
    have hother : ∀ y : Int, ∀ f ∈ es, (w.set e.1 y)[f.1]? = w[f.1]? := by
      intro y f hf
      refine List.getElem?_set_ne fun heq => ?_
      rw [heq] at he
      exact he (List.mem_map_of_mem hf)
    have hset : addAll es (w.set e.1 (x + e.2)) = addAll (e :: es) w := by
      refine List.ext_getElem? fun i => ?_
      simp only [addAll, List.getElem?_mapIdx, total]
      by_cases hi : e.1 = i
      · subst hi
        obtain ⟨hlt, hget⟩ := List.getElem?_eq_some_iff.mp hx
        simp [hlt, hget, total_notMem he]
      · rw [List.getElem?_set_ne hi, if_neg hi, zero_add]
    rw [List.map_cons, runAssigns, hadd.value w x hx hr]
    by_cases hin : InInt32 (x + e.2)
    · rw [check32_ok hin]
      have hrest := @ih hrhs (w.set e.1 (x + e.2)) t hes fun f hf => by
        rw [hother _ f hf]
        exact hw f hf
      refine Iff.trans hrest ?_
      rw [hset, List.forall_mem_cons]
      refine and_congr_left fun _ => ?_
      constructor
      · intro h
        refine ⟨fun y hy => ?_, fun f hf y hy => h f hf y (by rwa [hother _ f hf])⟩
        rw [hx] at hy
        cases hy
        exact hin
      · intro h f hf y hy
        rw [hother _ f hf] at hy
        exact h.2 f hf y hy
    · have herr : check32 (x + e.2) = .error (.overflow (x + e.2)) := if_neg hin
      rw [herr]
      constructor
      · intro h
        cases h
      · intro h
        exact absurd (h.1 e List.mem_cons_self x hx) hin

end LibHSC.Petri
