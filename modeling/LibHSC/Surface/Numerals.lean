import LibHSC.Surface.Reader

/-!
Decimal numerals: what the printers write, the readers read back.
-/

namespace LibHSC.Surface

theorem digits_foldl : ∀ (cs : List Char) (n : Nat), (∀ c ∈ cs, c.isDigit = true) →
    cs.foldl (fun acc c => if c.isDigit then acc.map (10 * · + (c.toNat - 48)) else none) (some n) =
      some (Nat.ofDigitChars 10 cs n) := by
  intro cs
  induction cs with
  | nil =>
    intro n _
    simp
  | cons c cs ih =>
    intro n hcs
    rw [List.foldl_cons, if_pos (hcs c List.mem_cons_self), Option.map_some,
      ih _ fun d hd => hcs d (List.mem_cons_of_mem _ hd), Nat.ofDigitChars_cons]
    rfl

theorem digits_toDigits (n : Nat) : digits (Nat.toDigits 10 n) = some n := by
  have hdig : ∀ c ∈ Nat.toDigits 10 n, c.isDigit = true :=
    fun c hc => Nat.isDigit_of_mem_toDigits (by omega) (by omega) hc
  cases hcs : Nat.toDigits 10 n with
  | nil => exact absurd hcs Nat.toDigits_ne_nil
  | cons c cs =>
    rw [hcs] at hdig
    rw [digits, digits_foldl _ _ hdig, ← hcs, Nat.ofDigitChars_ten_toDigits]
    exact nofun

theorem toString_int_toList (v : Int) :
    (toString v).toList =
      if 0 ≤ v then Nat.toDigits 10 v.toNat else '-' :: Nat.toDigits 10 (-v).toNat := by
  rw [Int.toString_eq_repr, Int.repr_eq_if]
  split
  · exact Nat.toList_repr
  · rw [String.toList_append, Nat.toList_repr]
    rfl

theorem asInt_inInt32 {d : Datum} {v : Int} (h : asInt d = some v) : InInt32 v := by
  unfold asInt at h
  split at h
  · obtain ⟨-, hv⟩ := Option.filter_eq_some_iff.mp h
    simpa [InInt32] using hv
  · cases h

/-- A numeral is read as its value. -/
theorem signed_toString (v : Int) : (match (toString v).toList with
    | '-' :: cs => (digits cs).map fun n => -(n : Int)
    | cs => (digits cs).map Int.ofNat) = some v := by
  rw [toString_int_toList]
  by_cases hpos : 0 ≤ v
  · rw [if_pos hpos]
    split
    · next cs hcs =>
      have hdig : ('-').isDigit = true :=
        Nat.isDigit_of_mem_toDigits (by omega) (by omega) (hcs ▸ List.mem_cons_self ..)
      exact absurd hdig (by decide)
    · rw [digits_toDigits, Option.map_some]
      exact congrArg some (by simp; omega)
  · rw [if_neg hpos]
    simp only [digits_toDigits]
    exact congrArg some (show -((-v).toNat : Int) = v by omega)

theorem asInt_toString {v : Int} (h : InInt32 v) (line : Int) :
    asInt (.atom (toString v) line) = some v := by
  refine (congrArg (Option.filter _) (signed_toString v)).trans ?_
  simpa [InInt32] using h

theorem isDelimiter_of_isDigit {c : Char} (h : c.isDigit = true) : isDelimiter c = false := by
  unfold isDelimiter isSpace
  have hne : ∀ d : Char, d.isDigit = false → c ≠ d := by
    intro d hd heq
    rw [heq, hd] at h
    cases h
  simp only [Bool.or_eq_false_iff, decide_eq_false_iff_not]
  exact ⟨⟨⟨⟨⟨⟨⟨⟨hne _ rfl, hne _ rfl⟩, hne _ rfl⟩, hne _ rfl⟩, hne _ rfl⟩, hne _ rfl⟩,
    hne _ rfl⟩, hne _ rfl⟩, hne _ rfl⟩

/-- A numeral is one token. -/
theorem isToken_toString (v : Int) : IsToken (toString v).toList := by
  have hdig : ∀ n : Nat, ∀ c ∈ Nat.toDigits 10 n, isDelimiter c = false := fun n c hc =>
    isDelimiter_of_isDigit (Nat.isDigit_of_mem_toDigits (by omega) (by omega) hc)
  rw [toString_int_toList]
  split
  · exact ⟨Nat.toDigits_ne_nil, hdig _⟩
  · refine ⟨nofun, fun c hc => ?_⟩
    rcases List.mem_cons.mp hc with rfl | hc
    · rfl
    · exact hdig _ c hc

end LibHSC.Surface
