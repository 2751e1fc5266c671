import LibHSC.Places
import Mathlib.Data.List.Sort

/-!
Linear constraints over frontier positions, and how a list of them is brought to a normal
form: the terms sorted and added up by position, the zero ones dropped, the constraints sorted
and without duplicates. Sums are checked 64-bit sums.
-/

namespace LibHSC.Linear

/-! ## Checked arithmetic -/

inductive Failure where
  | overflow (message : String)
  | invalid (message : String)

def maxLong : Int := 2 ^ 63 - 1

def minLong : Int := -2 ^ 63

def add (a b : Int) : Except Failure Int :=
  if (0 < b ∧ maxLong - b < a) ∨ (b < 0 ∧ a < minLong - b) then
    .error (.overflow "conjunction sum overflow")
  else .ok (a + b)

def subtract (a b : Int) : Except Failure Int :=
  if (0 < b ∧ a < minLong + b) ∨ (b < 0 ∧ maxLong + b < a) then
    .error (.overflow "conjunction residual overflow")
  else .ok (a - b)

def productOverflows (a b : Int) : Bool :=
  if 0 < a then (if 0 < b then maxLong.tdiv b < a else b < minLong.tdiv a)
  else a < 0 && (if 0 < b then a < minLong.tdiv b else b < 0 && a < maxLong.tdiv b)

def multiply (a b : Int) : Except Failure Int :=
  if productOverflows a b then .error (.overflow "conjunction product overflow")
  else .ok (a * b)

theorem add_ok {a b v : Int} (h : add a b = .ok v) : v = a + b := by
  unfold add at h
  split at h
  · cases h
  · exact (Except.ok.inj h).symm

theorem subtract_ok {a b v : Int} (h : subtract a b = .ok v) : v = a - b := by
  unfold subtract at h
  split at h
  · cases h
  · exact (Except.ok.inj h).symm

theorem multiply_ok {a b v : Int} (h : multiply a b = .ok v) : v = a * b := by
  unfold multiply at h
  split at h
  · cases h
  · exact (Except.ok.inj h).symm

def Failure.isOverflow : Failure → Prop
  | .overflow _ => True
  | .invalid _ => False

theorem add_error {a b : Int} {e : Failure} (h : add a b = .error e) : e.isOverflow := by
  unfold add at h
  split at h
  · cases h
    trivial
  · cases h

theorem subtract_error {a b : Int} {e : Failure} (h : subtract a b = .error e) :
    e.isOverflow := by
  unfold subtract at h
  split at h
  · cases h
    trivial
  · cases h

theorem multiply_error {a b : Int} {e : Failure} (h : multiply a b = .error e) :
    e.isOverflow := by
  unfold multiply at h
  split at h
  · cases h
    trivial
  · cases h

def InLong (v : Int) : Prop := minLong ≤ v ∧ v ≤ maxLong

/-! ## Constraints -/

/-- Coefficients by frontier position, the order of the terms free and positions repeated. -/
structure Constraint where
  terms : List (Nat × Int)
  target : Int
  atMost : Bool
  deriving DecidableEq

/-- The value of the linear form on the values of a word. -/
def formValue (terms : List (Nat × Int)) (vs : List Int) : Int :=
  (terms.map fun t => t.2 * vs.getD t.1 0).sum

/-- What a constraint says of the values of a word. -/
def Constraint.Holds (c : Constraint) (vs : List Int) : Prop :=
  if c.atMost then formValue c.terms vs ≤ c.target else formValue c.terms vs = c.target

/-- The coefficient of a position: its terms added up. -/
def coeffOf (terms : List (Nat × Int)) (p : Nat) : Int :=
  (terms.map fun t => if t.1 = p then t.2 else 0).sum

theorem coeffOf_cons (t : Nat × Int) (terms : List (Nat × Int)) (p : Nat) :
    coeffOf (t :: terms) p = (if t.1 = p then t.2 else 0) + coeffOf terms p := List.sum_cons

theorem coeffOf_perm {terms terms' : List (Nat × Int)} (h : terms.Perm terms') (p : Nat) :
    coeffOf terms p = coeffOf terms' p := (h.map _).sum_eq

theorem coeffOf_eq_zero {terms : List (Nat × Int)} {p : Nat} (h : ∀ t ∈ terms, t.1 ≠ p) :
    coeffOf terms p = 0 := by
  refine List.sum_eq_zero fun k hk => ?_
  obtain ⟨t, ht, rfl⟩ := List.mem_map.mp hk
  exact if_neg (h t ht)

theorem linearSum_add (f g : Nat → Int) (vs : List Int) : ∀ first,
    linearSum (fun p => f p + g p) first vs = linearSum f first vs + linearSum g first vs := by
  induction vs with
  | nil => exact fun _ => rfl
  | cons v vs ih =>
    intro first
    simp only [linearSum]
    rw [ih, Int.add_mul]
    omega

theorem linearSum_congr {f g : Nat → Int} (vs : List Int) : ∀ first,
    (∀ p, first ≤ p → p < first + vs.length → f p = g p) →
      linearSum f first vs = linearSum g first vs := by
  induction vs with
  | nil => exact fun _ _ => rfl
  | cons v vs ih =>
    intro first h
    rw [List.length_cons] at h
    simp only [linearSum]
    rw [h first le_rfl (by omega), ih (first + 1) fun p h1 h2 => h p (by omega) (by omega)]

theorem linearSum_zero (vs : List Int) : ∀ first, linearSum (fun _ => 0) first vs = 0 := by
  induction vs with
  | nil => exact fun _ => rfl
  | cons v vs ih =>
    intro first
    rw [linearSum, ih, Int.zero_mul, Int.add_zero]

theorem linearSum_single (q : Nat) (k : Int) (vs : List Int) : ∀ first, first ≤ q →
    q < first + vs.length →
      linearSum (fun p => if q = p then k else 0) first vs = k * vs.getD (q - first) 0 := by
  induction vs with
  | nil =>
    intro first h1 h2
    rw [List.length_nil] at h2
    omega
  | cons v vs ih =>
    intro first h1 h2
    rw [List.length_cons] at h2
    rw [linearSum]
    by_cases hq : q = first
    · subst hq
      have hrest : linearSum (fun p => if q = p then k else 0) (q + 1) vs = 0 := by
        rw [linearSum_congr vs (q + 1) fun p h1 _ => if_neg (by omega), linearSum_zero]
      rw [if_pos rfl, hrest, Nat.sub_self, Int.add_zero]
      rfl
    · rw [if_neg hq, ih (first + 1) (by omega) (by omega), Int.zero_mul, Int.zero_add,
        show q - first = q - (first + 1) + 1 by omega, List.getD_cons_succ]

/-- Terms in any order are their coefficients, position by position. -/
theorem formValue_eq (vs : List Int) (terms : List (Nat × Int)) :
    (∀ t ∈ terms, t.1 < vs.length) → formValue terms vs = linearSum (coeffOf terms) 0 vs := by
  induction terms with
  | nil => exact fun _ => (linearSum_zero vs 0).symm
  | cons t terms ih =>
    intro h
    obtain ⟨ht, hts⟩ := List.forall_mem_cons.mp h
    have hfun : coeffOf (t :: terms) =
        fun p => (if t.1 = p then t.2 else 0) + coeffOf terms p := funext (coeffOf_cons t terms)
    rw [hfun, linearSum_add, linearSum_single t.1 t.2 vs 0 (Nat.zero_le _) (by omega), ← ih hts]
    rfl

/-! ## The normal form -/

/-- The order of pairs. -/
def termLe (a b : Nat × Int) : Prop := a.1 < b.1 ∨ (a.1 = b.1 ∧ a.2 ≤ b.2)

instance (a b : Nat × Int) : Decidable (termLe a b) := inferInstanceAs (Decidable (_ ∨ _))

/-- Terms of one position are added up; `out` holds what there is, the last first. -/
def collectTerms (width : Nat) :
    List (Nat × Int) → List (Nat × Int) → Except Failure (List (Nat × Int))
  | [], out => .ok out.reverse
  | t :: rest, out =>
    if width ≤ t.1 then .error (.invalid "conjunction position outside shape")
    else match out with
      | [] => collectTerms width rest [t]
      | u :: out =>
        if u.1 = t.1 then
          match add u.2 t.2 with
          | .error e => .error e
          | .ok k => collectTerms width rest ((u.1, k) :: out)
        else collectTerms width rest (t :: u :: out)

def normalize (width : Nat) (c : Constraint) : Except Failure Constraint :=
  match collectTerms width (c.terms.insertionSort termLe) [] with
  | .error e => .error e
  | .ok terms => .ok { c with terms := terms.filter fun t => t.2 ≠ 0 }

/-- Positions ascending, none twice. -/
def Ascending (terms : List (Nat × Int)) : Prop := terms.Pairwise fun a b => a.1 < b.1

theorem collectTerms_ok {width : Nat} (ts : List (Nat × Int)) :
    ∀ {out terms : List (Nat × Int)}, collectTerms width ts out = .ok terms →
      (∀ p, coeffOf terms p = coeffOf out p + coeffOf ts p) ∧ (∀ t ∈ ts, t.1 < width) ∧
      ((∀ t ∈ out, t.1 < width) → ∀ t ∈ terms, t.1 < width) ∧
      (ts.Pairwise termLe → (out.Pairwise fun a b => b.1 < a.1) →
        (∀ a ∈ out, ∀ b ∈ ts, a.1 ≤ b.1) → Ascending terms) := by
  induction ts with
  | nil =>
    rintro out _ ⟨⟩
    refine ⟨fun p => ?_, nofun, fun h t ht => h t (List.mem_reverse.mp ht), fun _ h _ => ?_⟩
    · rw [coeffOf_perm (List.reverse_perm out)]
      exact (Int.add_zero _).symm
    · exact List.pairwise_reverse.mpr h
  | cons t ts ih =>
    intro out terms h
    unfold collectTerms at h
    split at h
    · cases h
    · next hwidth =>
      split at h
      · obtain ⟨h1, h2, h3, h4⟩ := ih h
        refine ⟨fun p => ?_, ?_, fun _ => h3 ?_, fun hs _ _ => ?_⟩
        · rw [h1, coeffOf_cons, coeffOf_cons]
          simp [coeffOf]
        · exact List.forall_mem_cons.mpr ⟨by omega, h2⟩
        · exact List.forall_mem_singleton.mpr (by omega)
        · obtain ⟨hhead, htail⟩ := List.pairwise_cons.mp hs
          refine h4 htail (List.pairwise_singleton _ _) fun a ha b hb => ?_
          obtain rfl := List.mem_singleton.mp ha
          rcases hhead b hb with hlt | ⟨heq, -⟩ <;> omega
      · next u out =>
        split at h
        · next hsame =>
          split at h
          · cases h
          · next k hk =>
            obtain ⟨h1, h2, h3, h4⟩ := ih h
            obtain rfl := add_ok hk
            refine ⟨fun p => ?_, ?_, fun hout => h3 ?_, fun hs hord hle => ?_⟩
            · rw [h1, coeffOf_cons, coeffOf_cons, coeffOf_cons, ← hsame]
              by_cases hp : u.1 = p
              · simp only [hp, if_true]
                omega
              · simp only [hp, if_false]
                omega
            · exact List.forall_mem_cons.mpr ⟨by omega, h2⟩
            · obtain ⟨hu, hrest⟩ := List.forall_mem_cons.mp hout
              exact List.forall_mem_cons.mpr ⟨hu, hrest⟩
            · obtain ⟨hu, hord⟩ := List.pairwise_cons.mp hord
              obtain ⟨hhead, htail⟩ := List.pairwise_cons.mp hs
              refine h4 htail (List.pairwise_cons.mpr ⟨hu, hord⟩) fun a ha b hb => ?_
              have hb' := List.mem_cons_of_mem t hb
              rcases List.mem_cons.mp ha with rfl | ha
              · exact hle u List.mem_cons_self b hb'
              · exact hle a (List.mem_cons_of_mem u ha) b hb'
        · next hdiff =>
          obtain ⟨h1, h2, h3, h4⟩ := ih h
          refine ⟨fun p => ?_, ?_, fun hout => h3 ?_, fun hs hord hle => ?_⟩
          · rw [h1, coeffOf_cons, coeffOf_cons t ts]
            omega
          · exact List.forall_mem_cons.mpr ⟨by omega, h2⟩
          · exact List.forall_mem_cons.mpr ⟨by omega, hout⟩
          · obtain ⟨hhead, htail⟩ := List.pairwise_cons.mp hs
            refine h4 htail (List.pairwise_cons.mpr ⟨fun a ha => ?_, hord⟩) ?_
            · -- below the last position, and that one is below the new one
              have hu := hle u List.mem_cons_self t List.mem_cons_self
              rcases List.mem_cons.mp ha with rfl | ha
              · omega
              · have := (List.pairwise_cons.mp hord).1 a ha
                omega
            · intro a ha b hb
              rcases List.mem_cons.mp ha with rfl | ha
              · rcases hhead b hb with hlt | ⟨heq, -⟩ <;> omega
              · exact hle a ha b (List.mem_cons_of_mem t hb)

theorem collectTerms_error {width : Nat} (ts : List (Nat × Int)) :
    ∀ {out : List (Nat × Int)} {e : Failure}, collectTerms width ts out = .error e →
      e.isOverflow ∨ ∃ t ∈ ts, width ≤ t.1 := by
  induction ts with
  | nil => exact fun h => nomatch h
  | cons t ts ih =>
    intro out e h
    have hlater : (e.isOverflow ∨ ∃ u ∈ ts, width ≤ u.1) →
        e.isOverflow ∨ ∃ u ∈ t :: ts, width ≤ u.1 :=
      Or.imp_right fun ⟨u, hu, hle⟩ => ⟨u, List.mem_cons_of_mem t hu, hle⟩
    unfold collectTerms at h
    split at h
    · next hout => exact .inr ⟨t, List.mem_cons_self .., hout⟩
    · split at h
      · exact hlater (ih h)
      · split at h
        · split at h
          · next hadd =>
            cases h
            exact .inl (add_error hadd)
          · exact hlater (ih h)
        · exact hlater (ih h)

/-- The normal form of a constraint says the same, over positions that ascend. -/
theorem normalize_ok {width : Nat} {c c' : Constraint} (h : normalize width c = .ok c') :
    Ascending c'.terms ∧ (∀ t ∈ c'.terms, t.1 < width) ∧ (∀ t ∈ c.terms, t.1 < width) ∧
      (∀ p, coeffOf c'.terms p = coeffOf c.terms p) ∧ c'.target = c.target ∧
      c'.atMost = c.atMost := by
  unfold normalize at h
  split at h
  · cases h
  · next terms hterms =>
    cases h
    obtain ⟨h1, h2, h3, h4⟩ := collectTerms_ok _ hterms
    have hperm := List.perm_insertionSort termLe c.terms
    have htotal : Std.Total termLe := ⟨fun a b => by unfold termLe; omega⟩
    have htrans : IsTrans (Nat × Int) termLe := ⟨fun a b c hab hbc => by
      unfold termLe at *
      omega⟩
    have hasc := h4 (List.pairwise_insertionSort termLe c.terms) List.Pairwise.nil nofun
    refine ⟨hasc.sublist List.filter_sublist, fun t ht => h3 nofun t (List.mem_of_mem_filter ht),
      fun t ht => h2 t (hperm.mem_iff.mpr ht), fun p => ?_, rfl, rfl⟩
    have hfilter : ∀ ts : List (Nat × Int),
        coeffOf (ts.filter fun t => t.2 ≠ 0) p = coeffOf ts p := by
      intro ts
      induction ts with
      | nil => rfl
      | cons t ts ih =>
        rw [List.filter_cons]
        by_cases hz : t.2 = 0
        · simp only [hz, ne_eq, not_true_eq_false, decide_false, Bool.false_eq_true, if_false]
          rw [ih, coeffOf_cons, hz, ite_self, Int.zero_add]
        · simp only [ne_eq, hz, not_false_eq_true, decide_true, if_true]
          rw [coeffOf_cons, coeffOf_cons, ih]
    rw [hfilter, h1, coeffOf_perm hperm]
    exact Int.zero_add _

theorem normalize_error {width : Nat} {c : Constraint} {e : Failure}
    (h : normalize width c = .error e) : e.isOverflow ∨ ∃ t ∈ c.terms, width ≤ t.1 := by
  unfold normalize at h
  split at h
  · next hcollect =>
    cases h
    refine (collectTerms_error _ hcollect).imp_right fun ⟨t, ht, hle⟩ => ⟨t, ?_, hle⟩
    exact (List.perm_insertionSort termLe c.terms).mem_iff.mp ht
  · cases h

/-- The constraint in its normal form, on the words of a shape. -/
theorem holds_iff_of_normalize {s : Shape} {c c' : Constraint}
    (h : normalize s.width c = .ok c') (w : Word s) :
    c.Holds (frontier s w) ↔ if c.atMost then
        linearSum (coeffOf c'.terms) 0 (frontier s w) ≤ c.target
      else linearSum (coeffOf c'.terms) 0 (frontier s w) = c.target := by
  obtain ⟨-, -, hin, hcoeff, -, -⟩ := normalize_ok h
  have hvalue := formValue_eq (frontier s w) c.terms fun t ht => by
    rw [frontier_length]
    exact hin t ht
  rw [Constraint.Holds, hvalue, show coeffOf c'.terms = coeffOf c.terms from funext hcoeff]

end LibHSC.Linear
