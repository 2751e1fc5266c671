import LibHSC.Dve.Ends
import Mathlib.Tactic.FinCases
import Mathlib.Tactic.IntervalCases

/-!
The expressions of the DVE grammar and the trees its precedences dictate. The grammar
takes the values of the numerals as a parameter: with the values the tokens carry it is
what the parser reads, with the decimal values it is what the language says.
-/

namespace LibHSC.Dve

/-! ## The grammar -/

/-- The operator signs of a tier, the loosest tier first. -/
def signs : Nat → List (String × Eop)
  | 0 => [("=>", .imply), ("||", .or_), ("&&", .and_)]
  | 1 => [("|", .bor), ("&", .band), ("^", .bxor)]
  | 2 => [("==", .eq), ("!=", .ne), ("<", .lt), ("<=", .le), (">", .gt), (">=", .ge)]
  | 3 => [("<<", .shl), (">>", .shr)]
  | 4 => [("+", .add), ("-", .sub)]
  | 5 => [("*", .mul), ("/", .div), ("%", .mod)]
  | _ => []

/-- The operators that are words, all in the loosest tier. -/
def words : Nat → List (String × Eop)
  | 0 => [("imply", .imply), ("and", .and_), ("or", .or_)]
  | _ => []

/-- A token is a binary operator of a tier. -/
def Operates (tier : Nat) (t : Token) (op : Eop) : Prop :=
  (t.kind = .punct ∧ (t.text, op) ∈ signs tier) ∨ (t.kind = .id ∧ (t.text, op) ∈ words tier)

/-- A token is a prefix operator. -/
def Prefixes (t : Token) (op : Eop) : Prop :=
  (t.kind = .punct ∧ (t.text, op) ∈ [("!", Eop.not_), ("-", .neg), ("~", .comp)]) ∨
    (t.kind = .id ∧ (t.text, op) ∈ [("not", Eop.not_)])

def IsPunct (p : String) (t : Token) : Prop := t.kind = .punct ∧ t.text = p

/-- A word that no expression keyword takes. -/
def IsName (t : Token) : Prop :=
  t.kind = .id ∧ t.text ∉ ["not", "true", "false", "imply", "and", "or"]

theorem IsName.notBoolean {t : Token} (ht : IsName t) : ¬ (t.text = "true" ∨ t.text = "false") := by
  rintro (h | h)
  · exact ht.2 (by simp [h])
  · exact ht.2 (by simp [h])

/-- The tokens derive the tree at a tier: tiers 0 to 5 join their operands from the left,
6 is the prefix operators and 7 the atoms. -/
inductive Derives (value : Token → Int) : Nat → List Token → Expr → Prop
  | tighter {tier : Nat} {ts : List Token} {e : Expr} (ht : tier ≤ 6)
      (he : Derives value (tier + 1) ts e) : Derives value tier ts e
  | binary {tier : Nat} {ts us : List Token} {l r : Expr} {t : Token} {op : Eop} (ht : tier ≤ 5)
      (hl : Derives value tier ts l) (hop : Operates tier t op)
      (hr : Derives value (tier + 1) us r) :
      Derives value tier (ts ++ t :: us) (.binary op l r t.line)
  | unary {ts : List Token} {a : Expr} {t : Token} {op : Eop} (hop : Prefixes t op)
      (ha : Derives value 6 ts a) : Derives value 6 (t :: ts) (.unary op a t.line)
  | number {t : Token} (ht : t.kind = .num) : Derives value 7 [t] (.number (value t) t.line)
  | true {t : Token} (ht : t.kind = .id) (htext : t.text = "true") :
      Derives value 7 [t] (.number 1 t.line)
  | false {t : Token} (ht : t.kind = .id) (htext : t.text = "false") :
      Derives value 7 [t] (.number 0 t.line)
  | name {t : Token} (ht : IsName t) : Derives value 7 [t] (.name t.text t.line)
  | arrayRef {t b1 b2 : Token} {ts : List Token} {e : Expr} (ht : IsName t) (h1 : IsPunct "[" b1)
      (he : Derives value 0 ts e) (h2 : IsPunct "]" b2) :
      Derives value 7 (t :: b1 :: (ts ++ [b2])) (.arrayRef t.text e t.line)
  | procState {t d s : Token} (ht : IsName t) (hd : IsPunct "." d) (hs : IsName s) :
      Derives value 7 [t, d, s] (.procState t.text s.text t.line)
  | parens {b1 b2 : Token} {ts : List Token} {e : Expr} (h1 : IsPunct "(" b1)
      (he : Derives value 0 ts e) (h2 : IsPunct ")" b2) :
      Derives value 7 (b1 :: (ts ++ [b2])) e

/-- The value a numeral denotes. -/
def Token.decimal (t : Token) : Int := Dve.decimal t.text.toList

/-! ## Tokens ahead of the lexer -/

/-- Taking these tokens leads from the one lexer to the other. -/
def Upcoming : Lexer → List Token → Lexer → Prop
  | lx, [], lx' => lx = lx'
  | lx, t :: ts, lx' => t.kind ≠ .fin ∧ ∃ lx1, lx.take = .ok (t, lx1) ∧ Upcoming lx1 ts lx'

theorem upcoming_append {ts us : List Token} : ∀ {lx lx' : Lexer},
    Upcoming lx (ts ++ us) lx' → ∃ lx1, Upcoming lx ts lx1 ∧ Upcoming lx1 us lx' := by
  induction ts with
  | nil =>
    intro lx lx' h
    exact ⟨lx, rfl, h⟩
  | cons t ts ih =>
    rintro lx lx' ⟨ht, lx1, h1, h⟩
    obtain ⟨lx2, h2, h3⟩ := ih h
    exact ⟨lx2, ⟨ht, lx1, h1, h2⟩, h3⟩

theorem upcoming_cur {t : Token} {ts : List Token} {lx lx' : Lexer}
    (h : Upcoming lx (t :: ts) lx') : lx.cur = t := by
  obtain ⟨-, lx1, h1, -⟩ := h
  exact (take_spec h1).1.symm

/-- Every token takes a character at least. -/
theorem upcoming_length {ts : List Token} : ∀ {lx lx' : Lexer},
    Upcoming lx ts lx' → ts.length + lx'.left ≤ lx.left := by
  induction ts with
  | nil =>
    rintro lx lx' rfl
    simp
  | cons t ts ih =>
    rintro lx lx' ⟨ht, lx1, h1, h⟩
    obtain ⟨rfl, -, -, hlt⟩ := take_spec h1
    have h2 := ih h
    have h3 := hlt ht
    simp only [List.length_cons]
    omega

/-- The numerals ahead carry what was read for them. -/
theorem upcoming_num {ts : List Token} : ∀ {lx lx' : Lexer}, Upcoming lx ts lx' →
    (lx.cur.kind = .num → lx.cur.num = fromChars lx.cur.text.toList) →
    (∀ t ∈ ts, t.kind = .num → t.num = fromChars t.text.toList) ∧
      (lx'.cur.kind = .num → lx'.cur.num = fromChars lx'.cur.text.toList) := by
  induction ts with
  | nil =>
    rintro lx lx' rfl hnum
    exact ⟨fun t ht => (nomatch ht), hnum⟩
  | cons t ts ih =>
    rintro lx lx' ⟨ht, lx1, h1, h⟩ hnum
    obtain ⟨rfl, ha, -⟩ := take_spec h1
    obtain ⟨h2, h3⟩ := ih h (advance_spec ha).2
    refine ⟨fun u hu => ?_, h3⟩
    rcases List.mem_cons.mp hu with rfl | hu
    · exact hnum
    · exact h2 u hu

/-! ## Operators -/

/-- The parser finds the operators of a tier at that tier and at no tighter one. -/
theorem signs_peekOp {tier : Nat} : ∀ p ∈ signs tier, ∀ (num : Int) (line : Nat),
    peekOp tier ⟨.punct, p.1, num, line⟩ = some p.2 ∧
      ∀ k, tier < k → peekOp k ⟨.punct, p.1, num, line⟩ = none := by
  intro p hp num line
  match tier with
  | 0 | 1 | 2 | 3 | 4 | 5 =>
    refine ⟨?_, fun k hlt => ?_⟩
    · fin_cases hp <;> rfl
    · rcases Nat.lt_or_ge k 6 with hk | hk
      · interval_cases k <;> fin_cases hp <;> rfl
      · obtain ⟨j, rfl⟩ := Nat.exists_eq_add_of_le' hk
        rfl
  | n + 6 => cases hp

theorem words_peekOp {tier : Nat} : ∀ p ∈ words tier, ∀ (num : Int) (line : Nat),
    peekOp tier ⟨.id, p.1, num, line⟩ = some p.2 ∧
      ∀ k, tier < k → peekOp k ⟨.id, p.1, num, line⟩ = none := by
  intro p hp num line
  match tier with
  | 0 =>
    refine ⟨?_, fun k hlt => ?_⟩
    · fin_cases hp <;> rfl
    · match k, hlt with
      | 1, _ | 2, _ | 3, _ | 4, _ | 5, _ => rfl
      | k + 6, _ => rfl
  | n + 1 => cases hp

theorem operates_peekOp {tier : Nat} {t : Token} {op : Eop} (h : Operates tier t op) :
    peekOp tier t = some op ∧ ∀ k, tier < k → peekOp k t = none := by
  obtain ⟨kind, text, num, line⟩ := t
  rcases h with ⟨rfl, h⟩ | ⟨rfl, h⟩
  · exact signs_peekOp _ h num line
  · exact words_peekOp _ h num line

theorem prefixes_prefixOp {t : Token} {op : Eop} (h : Prefixes t op) : prefixOp t = some op := by
  obtain ⟨kind, text, num, line⟩ := t
  rcases h with ⟨rfl, h⟩ | ⟨rfl, h⟩
  · fin_cases h <;> rfl
  · fin_cases h
    rfl

/-- A token that goes on with no expression of a tier or a tighter one. -/
structure Stops (tier : Nat) (t : Token) : Prop where
  op : ∀ k, tier ≤ k → peekOp k t = none
  bracket : ¬ IsPunct "[" t
  dot : ¬ IsPunct "." t

theorem Stops.mono {tier k : Nat} {t : Token} (h : Stops tier t) (hle : tier ≤ k) : Stops k t :=
  ⟨fun j hj => h.op j (hle.trans hj), h.bracket, h.dot⟩

/-- A binary operator ends the operand before it. -/
theorem operates_stops {tier : Nat} {t : Token} {op : Eop} (h : Operates tier t op) :
    Stops (tier + 1) t := by
  refine ⟨(operates_peekOp h).2, fun hb => ?_, fun hd => ?_⟩
  · rcases h with ⟨-, h⟩ | ⟨hk, -⟩
    · rw [hb.2] at h
      match tier with
      | 0 | 1 | 2 | 3 | 4 | 5 => simp [signs] at h
      | n + 6 => cases h
    · rw [hb.1] at hk
      cases hk
  · rcases h with ⟨-, h⟩ | ⟨hk, -⟩
    · rw [hd.2] at h
      match tier with
      | 0 | 1 | 2 | 3 | 4 | 5 => simp [signs] at h
      | n + 6 => cases h
    · rw [hd.1] at hk
      cases hk

theorem punct_stops {p : String} {t : Token} (ht : IsPunct p t) (hp : p = ")" ∨ p = "]") :
    Stops 0 t := by
  obtain ⟨kind, text, num, line⟩ := t
  obtain ⟨rfl, rfl⟩ := ht
  rcases hp with rfl | rfl
  · refine ⟨fun k _ => ?_, fun h => ?_, fun h => ?_⟩
    · match k with
      | 0 | 1 | 2 | 3 | 4 | 5 => rfl
      | k + 6 => rfl
    · exact absurd (show ")" = "[" from h.2) (by decide)
    · exact absurd (show ")" = "." from h.2) (by decide)
  · refine ⟨fun k _ => ?_, fun h => ?_, fun h => ?_⟩
    · match k with
      | 0 | 1 | 2 | 3 | 4 | 5 => rfl
      | k + 6 => rfl
    · exact absurd (show "]" = "[" from h.2) (by decide)
    · exact absurd (show "]" = "." from h.2) (by decide)

/-! ## The parser on a derivation -/

theorem eat_punct {p : String} {t : Token} {lx lx1 : Lexer} (ht : IsPunct p t)
    (h : lx.take = .ok (t, lx1)) : eat p lx = .ok (true, lx1) := by
  have hcur := (take_spec h).1
  rw [eat, if_pos (by simp [atPunct, ← hcur, ht.1, ht.2]), h]
  rfl

theorem eat_other {p : String} {lx : Lexer} (h : ¬ IsPunct p lx.cur) :
    eat p lx = .ok (false, lx) := by
  refine if_neg fun hp => h ?_
  simpa [atPunct, IsPunct] using hp

theorem expect_punct {p : String} {t : Token} {lx lx1 : Lexer} (ht : IsPunct p t)
    (h : lx.take = .ok (t, lx1)) : expect p lx = .ok ((), lx1) := by
  rw [expect, h]
  exact if_neg (by simp [ht.1, ht.2])

theorem ident_word {what : String} {t : Token} {lx lx1 : Lexer} (ht : t.kind = .id)
    (h : lx.take = .ok (t, lx1)) : ident what lx = .ok (t.text, lx1) := by
  rw [ident, h]
  exact if_neg (by simp [ht])

theorem parseRest_stops {tier m : Nat} {e : Expr} {lx : Lexer} (hs : Stops tier lx.cur)
    (hm : 0 < m) : parseRest m tier e lx = .ok (e, lx) := by
  obtain ⟨m, rfl⟩ := Nat.exists_eq_succ_of_ne_zero hm.ne'
  rw [parseRest, hs.op tier le_rfl]

/-- The parser reads the tree over these `n` tokens. A tier of binary operators goes on
from the tree as from a first operand, for the tokens may be one. -/
structure Parsed (tier n : Nat) (e : Expr) (lx lx' : Lexer) : Prop where
  joined : tier ≤ 5 → ∀ (c : Nat) (r : Except ParseError (Expr × Lexer)),
    (∀ m, c < m → parseRest m tier e lx' = r) →
      ∀ m, c + 10 * n + (10 - tier) < m → parseTier m tier lx = r
  prefixed : tier = 6 → ∀ m, 10 * n + 3 < m → parsePrefixed m lx = .ok (e, lx')
  atom : tier = 7 → ∀ m, 10 * n + 2 < m → parseAtom m lx = .ok (e, lx')

namespace Parsed

variable {tier n : Nat} {e : Expr} {lx lx' : Lexer}

theorem ofAtom (h : ∀ m, 10 * n + 2 < m → parseAtom m lx = .ok (e, lx')) :
    Parsed 7 n e lx lx' := ⟨fun h => by omega, fun h => by omega, fun _ => h⟩

theorem ofPrefixed (h : ∀ m, 10 * n + 3 < m → parsePrefixed m lx = .ok (e, lx')) :
    Parsed 6 n e lx lx' := ⟨fun h => by omega, fun _ => h, fun h => by omega⟩

theorem ofJoined (ht : tier ≤ 5) (h : ∀ (c : Nat) (r : Except ParseError (Expr × Lexer)),
    (∀ m, c < m → parseRest m tier e lx' = r) →
      ∀ m, c + 10 * n + (10 - tier) < m → parseTier m tier lx = r) :
    Parsed tier n e lx lx' := ⟨fun _ => h, fun h => by omega, fun h => by omega⟩

/-- Where no operator of the tier follows, the tier ends with the tree. -/
theorem tier_ok (h : Parsed tier n e lx lx') (ht : tier ≤ 6) (hs : Stops tier lx'.cur) {m : Nat}
    (hm : 10 * n + (10 - tier) < m) : parseTier m tier lx = .ok (e, lx') := by
  rcases Nat.lt_or_ge 5 tier with h6 | h5
  · obtain rfl : tier = 6 := by omega
    obtain ⟨m, rfl⟩ := Nat.exists_eq_succ_of_ne_zero (Nat.ne_zero_of_lt hm)
    rw [parseTier, if_pos rfl]
    exact h.prefixed rfl m (by omega)
  · exact h.joined h5 0 _ (fun m hm => parseRest_stops hs hm) m (by omega)

end Parsed

theorem parsed_tighter {tier n : Nat} {e : Expr} {lx lx' : Lexer} (ht : tier ≤ 6)
    (h : Parsed (tier + 1) n e lx lx') (hcur : prefixOp lx.cur = none ∨ tier ≤ 5)
    (hs : Stops (tier + 1) lx'.cur) : Parsed tier n e lx lx' := by
  rcases Nat.lt_or_ge 5 tier with h6 | h5
  · obtain rfl : tier = 6 := by omega
    have hcur : prefixOp lx.cur = none := hcur.resolve_right (by omega)
    refine .ofPrefixed fun m hm => ?_
    obtain ⟨m, rfl⟩ := Nat.exists_eq_succ_of_ne_zero (Nat.ne_zero_of_lt hm)
    rw [parsePrefixed, hcur]
    exact h.atom rfl m (by omega)
  · refine .ofJoined h5 fun c r hrest m hm => ?_
    obtain ⟨m, rfl⟩ := Nat.exists_eq_succ_of_ne_zero (Nat.ne_zero_of_lt hm)
    rw [parseTier, if_neg (by omega), h.tier_ok (by omega) hs (by omega)]
    exact hrest m (by omega)

/-- An atom starts with no prefix operator. -/
theorem atom_prefixOp {value : Token → Int} {ts : List Token} {e : Expr}
    (h : Derives value 7 ts e) : ∃ t us, ts = t :: us ∧ prefixOp t = none := by
  have hname : ∀ {t : Token}, IsName t → prefixOp t = none := by
    intro t ht
    have hne : t.text ≠ "not" := fun h => ht.2 (by simp [h])
    simp [prefixOp, ht.1, hne]
  cases h with
  | tighter ht => omega
  | binary ht => omega
  | number ht => exact ⟨_, _, rfl, by simp [prefixOp, ht]⟩
  | true ht htext => exact ⟨_, _, rfl, by simp [prefixOp, ht, htext]⟩
  | false ht htext => exact ⟨_, _, rfl, by simp [prefixOp, ht, htext]⟩
  | name ht => exact ⟨_, _, rfl, hname ht⟩
  | arrayRef ht => exact ⟨_, _, rfl, hname ht⟩
  | procState ht => exact ⟨_, _, rfl, hname ht⟩
  | parens h1 => exact ⟨_, _, rfl, by simp [prefixOp, h1.1, h1.2]⟩

theorem parsed_binary {tier : Nat} {ts us : List Token} {l r : Expr} {t : Token} {op : Eop}
    {lx lx1 lx2 lx' : Lexer} (ht : tier ≤ 5) (hop : Operates tier t op)
    (hl : Parsed tier ts.length l lx lx1) (h1 : lx1.take = .ok (t, lx2))
    (hr : Parsed (tier + 1) us.length r lx2 lx') (hs : Stops (tier + 1) lx'.cur) :
    Parsed tier (ts ++ t :: us).length (.binary op l r t.line) lx lx' := by
  refine .ofJoined ht fun c res hrest m hm => ?_
  rw [List.length_append, List.length_cons] at hm
  refine hl.joined ht (c + 10 * us.length + (10 - tier)) res (fun m hm => ?_) m (by omega)
  obtain ⟨m, rfl⟩ := Nat.exists_eq_succ_of_ne_zero (Nat.ne_zero_of_lt hm)
  have hcur : peekOp tier lx1.cur = some op := by
    rw [← (take_spec h1).1]
    exact (operates_peekOp hop).1
  have hright := hr.tier_ok (by omega) hs (m := m) (by omega)
  rw [parseRest, hcur]
  dsimp only
  rw [h1]
  dsimp only [bind, Except.bind]
  rw [hright]
  exact hrest m (by omega)

theorem parsed_unary {ts : List Token} {a : Expr} {t : Token} {op : Eop} {lx lx1 lx' : Lexer}
    (hop : Prefixes t op) (h1 : lx.take = .ok (t, lx1)) (ha : Parsed 6 ts.length a lx1 lx') :
    Parsed 6 (t :: ts).length (.unary op a t.line) lx lx' := by
  refine .ofPrefixed fun m hm => ?_
  obtain ⟨m, rfl⟩ := Nat.exists_eq_succ_of_ne_zero (Nat.ne_zero_of_lt hm)
  rw [List.length_cons] at hm
  have hcur : prefixOp lx.cur = some op := by
    rw [← (take_spec h1).1]
    exact prefixes_prefixOp hop
  rw [parsePrefixed, hcur]
  dsimp only
  rw [h1]
  dsimp only [bind, Except.bind]
  rw [ha.prefixed rfl m (by omega)]
  rfl

/-- An expression between brackets: the closing token ends it. -/
theorem parsed_inside {p : String} {b : Token} {ts : List Token} {e : Expr} {lx lx1 lx' : Lexer}
    (hb : IsPunct p b) (hp : p = ")" ∨ p = "]")
    (he : Stops 1 lx1.cur → Parsed 0 ts.length e lx lx1) (h1 : lx1.take = .ok (b, lx')) :
    (∀ m, 10 * ts.length + 10 < m → parseTier m 0 lx = .ok (e, lx1)) ∧
      expect p lx1 = .ok ((), lx') := by
  have hs : Stops 0 lx1.cur := (take_spec h1).1 ▸ punct_stops hb hp
  exact ⟨fun m hm => (he (hs.mono (Nat.zero_le _))).tier_ok (Nat.zero_le _) hs hm,
    expect_punct hb h1⟩

/-- The parser reads what the grammar derives. -/
theorem derives_parsed {tier : Nat} {ts : List Token} {e : Expr}
    (h : Derives Token.num tier ts e) : ∀ {lx lx' : Lexer}, Upcoming lx ts lx' →
      Stops (tier + 1) lx'.cur → Parsed tier ts.length e lx lx' := by
  induction h with
  | @tighter tier ts e ht he ih =>
    intro lx lx' hup hs
    refine parsed_tighter ht (ih hup (hs.mono (by omega))) ?_ hs
    rcases Nat.lt_or_ge 5 tier with h6 | h5
    · obtain rfl : tier = 6 := by omega
      obtain ⟨t, us, rfl, ht⟩ := atom_prefixOp he
      exact .inl (upcoming_cur hup ▸ ht)
    · exact .inr h5
  | @binary tier ts us l r t op ht hl hop hr ihl ihr =>
    intro lx lx' hup hs
    obtain ⟨lx1, h1, -, lx2, h2, h3⟩ := upcoming_append hup
    have hcur : Stops (tier + 1) lx1.cur := (take_spec h2).1 ▸ operates_stops hop
    exact parsed_binary ht hop (ihl h1 hcur) h2 (ihr h3 (hs.mono (by omega))) hs
  | unary hop ha ih =>
    rintro lx lx' ⟨-, lx1, h1, h2⟩ hs
    exact parsed_unary hop h1 (ih h2 hs)
  | number ht =>
    rintro lx lx' ⟨-, lx1, h1, rfl⟩ hs
    refine .ofAtom fun m hm => ?_
    obtain ⟨m, rfl⟩ := Nat.exists_eq_succ_of_ne_zero (Nat.ne_zero_of_lt hm)
    rw [parseAtom, h1]
    dsimp only [bind, Except.bind]
    rw [if_neg (by simp [ht]), if_pos ht]
    rfl
  | true ht htext =>
    rintro lx lx' ⟨-, lx1, h1, rfl⟩ hs
    refine .ofAtom fun m hm => ?_
    obtain ⟨m, rfl⟩ := Nat.exists_eq_succ_of_ne_zero (Nat.ne_zero_of_lt hm)
    rw [parseAtom, h1]
    dsimp only [bind, Except.bind]
    rw [if_neg (by simp [ht]), if_neg (by simp [ht]), if_pos ht, if_pos (.inl htext), if_pos htext]
    rfl
  | false ht htext =>
    rintro lx lx' ⟨-, lx1, h1, rfl⟩ hs
    refine .ofAtom fun m hm => ?_
    obtain ⟨m, rfl⟩ := Nat.exists_eq_succ_of_ne_zero (Nat.ne_zero_of_lt hm)
    rw [parseAtom, h1]
    dsimp only [bind, Except.bind]
    rw [if_neg (by simp [ht]), if_neg (by simp [ht]), if_pos ht, if_pos (.inr htext),
      if_neg (by simp [htext])]
    rfl
  | name ht =>
    rintro lx lx' ⟨-, lx1, h1, rfl⟩ hs
    refine .ofAtom fun m hm => ?_
    obtain ⟨m, rfl⟩ := Nat.exists_eq_succ_of_ne_zero (Nat.ne_zero_of_lt hm)
    rw [parseAtom, h1]
    dsimp only [bind, Except.bind]
    rw [if_neg (by simp [ht.1]), if_neg (by simp [ht.1]), if_pos ht.1, if_neg ht.notBoolean,
      eat_other hs.bracket]
    dsimp only
    rw [if_neg Bool.false_ne_true, eat_other hs.dot]
    rfl
  | arrayRef ht hb1 he hb2 ih =>
    rintro lx lx' ⟨-, lx1, h1, -, lx2, h2, h3⟩ hs
    obtain ⟨lx3, hin, -, lx4, h4, rfl⟩ := upcoming_append h3
    obtain ⟨htier, hclose⟩ := parsed_inside hb2 (.inr rfl) (ih hin) h4
    refine .ofAtom fun m hm => ?_
    obtain ⟨m, rfl⟩ := Nat.exists_eq_succ_of_ne_zero (Nat.ne_zero_of_lt hm)
    simp only [List.length_cons, List.length_append, List.length_nil] at hm
    rw [parseAtom, h1]
    dsimp only [bind, Except.bind]
    rw [if_neg (by simp [ht.1]), if_neg (by simp [ht.1]), if_pos ht.1, if_neg ht.notBoolean,
      eat_punct hb1 h2]
    dsimp only
    rw [if_pos rfl, htier m (by omega)]
    dsimp only
    rw [hclose]
    rfl
  | procState ht hd hfield =>
    rintro lx lx' ⟨-, lx1, h1, -, lx2, h2, -, lx3, h3, rfl⟩ hs
    refine .ofAtom fun m hm => ?_
    obtain ⟨m, rfl⟩ := Nat.exists_eq_succ_of_ne_zero (Nat.ne_zero_of_lt hm)
    have hdot : ¬ IsPunct "[" lx1.cur := by
      rw [← (take_spec h2).1]
      intro hb
      exact absurd (hb.2.symm.trans hd.2) (by decide)
    rw [parseAtom, h1]
    dsimp only [bind, Except.bind]
    rw [if_neg (by simp [ht.1]), if_neg (by simp [ht.1]), if_pos ht.1, if_neg ht.notBoolean,
      eat_other hdot]
    dsimp only
    rw [if_neg Bool.false_ne_true, eat_punct hd h2]
    dsimp only
    rw [if_pos rfl, ident_word hfield.1 h3]
    rfl
  | parens hb1 he hb2 ih =>
    rintro lx lx' ⟨-, lx1, h1, h2⟩ hs
    obtain ⟨lx2, hin, -, lx3, h3, rfl⟩ := upcoming_append h2
    obtain ⟨htier, hclose⟩ := parsed_inside hb2 (.inl rfl) (ih hin) h3
    refine .ofAtom fun m hm => ?_
    obtain ⟨m, rfl⟩ := Nat.exists_eq_succ_of_ne_zero (Nat.ne_zero_of_lt hm)
    simp only [List.length_cons, List.length_append, List.length_nil] at hm
    rw [parseAtom, h1]
    dsimp only [bind, Except.bind]
    rw [if_pos ⟨hb1.1, hb1.2⟩, htier m (by omega)]
    dsimp only
    rw [hclose]
    rfl

/-! ## Numerals -/

/-- With other values for the numerals the tokens derive a tree too, and it is another
one unless the values are the same. -/
theorem derives_values {value : Token → Int} (value' : Token → Int) {tier : Nat}
    {ts : List Token} {e : Expr} (h : Derives value tier ts e) : ∃ e', Derives value' tier ts e' ∧
      (e' = e ↔ ∀ t ∈ ts, t.kind = .num → value' t = value t) := by
  have hword : ∀ {t : Token}, t.kind ≠ .num → t.kind = .num → value' t = value t :=
    fun hne hk => absurd hk hne
  induction h with
  | tighter ht he ih =>
    obtain ⟨e', h, heq⟩ := ih
    exact ⟨e', .tighter ht h, heq⟩
  | @binary tier ts us l r t op ht hl hop hr ihl ihr =>
    obtain ⟨l', hl', heql⟩ := ihl
    obtain ⟨r', hr', heqr⟩ := ihr
    have hne : t.kind ≠ .num := by
      rcases hop with ⟨hk, -⟩ | ⟨hk, -⟩ <;> simp [hk]
    refine ⟨_, .binary ht hl' hop hr', ?_⟩
    simp only [Expr.binary.injEq, true_and, and_true, heql, heqr, List.forall_mem_append,
      List.forall_mem_cons]
    exact ⟨fun ⟨h1, h2⟩ => ⟨h1, hword hne, h2⟩, fun ⟨h1, _, h2⟩ => ⟨h1, h2⟩⟩
  | @unary ts a t op hop ha ih =>
    obtain ⟨a', ha', heq⟩ := ih
    have hne : t.kind ≠ .num := by
      rcases hop with ⟨hk, -⟩ | ⟨hk, -⟩ <;> simp [hk]
    refine ⟨_, .unary hop ha', ?_⟩
    simp only [Expr.unary.injEq, true_and, and_true, heq, List.forall_mem_cons]
    exact ⟨fun h => ⟨hword hne, h⟩, fun h => h.2⟩
  | number ht =>
    refine ⟨_, .number ht, ?_⟩
    simp [ht]
  | true ht htext => exact ⟨_, .true ht htext, by simp [ht]⟩
  | false ht htext => exact ⟨_, .false ht htext, by simp [ht]⟩
  | name ht => exact ⟨_, .name ht, by simp [ht.1]⟩
  | arrayRef ht h1 he h2 ih =>
    obtain ⟨e', he', heq⟩ := ih
    refine ⟨_, .arrayRef ht h1 he' h2, ?_⟩
    simp only [Expr.arrayRef.injEq, true_and, and_true, heq, List.forall_mem_cons,
      List.forall_mem_append]
    refine ⟨fun h => ⟨hword ?_, hword ?_, h, hword ?_, fun t ht => (nomatch ht)⟩,
      fun ⟨_, _, h, _⟩ => h⟩
    · simp [ht.1]
    · simp [h1.1]
    · simp [h2.1]
  | procState ht hd hs => exact ⟨_, .procState ht hd hs, by simp [ht.1, hd.1, hs.1]⟩
  | parens h1 he h2 ih =>
    obtain ⟨e', he', heq⟩ := ih
    refine ⟨_, .parens h1 he' h2, ?_⟩
    simp only [heq, List.forall_mem_cons, List.forall_mem_append]
    refine ⟨fun h => ⟨hword ?_, h, hword ?_, fun t ht => (nomatch ht)⟩, fun ⟨_, h, _⟩ => h⟩
    · simp [h1.1]
    · simp [h2.1]

theorem fromChars_eq_decimal {digits : List Char} :
    fromChars digits = decimal digits ↔ decimal digits ≤ 2147483647 := by
  unfold fromChars
  split
  · next h => exact ⟨fun _ => h, fun _ => rfl⟩
  · next h => exact ⟨fun h0 => by omega, fun h0 => absurd h0 h⟩

/-- At any place of a text, the parser reads over the tokens of an expression the tree they
derive with the values it gave the numerals. -/
theorem parseExpr_derives {text : List Char} {lx0 lx lx' : Lexer} {before tokens : List Token}
    {e : Expr} (h0 : lexer text = .ok lx0) (hb : Upcoming lx0 before lx)
    (hup : Upcoming lx tokens lx') (he : Derives Token.num 0 tokens e) (hs : Stops 0 lx'.cur) :
    parseExpr (enough text.length) lx = .ok (e, lx') := by
  have hlen := (advance_spec h0).1
  have h1 := upcoming_length hb
  have h2 := upcoming_length hup
  refine (derives_parsed he hup (hs.mono (Nat.zero_le _))).tier_ok (Nat.zero_le _) hs ?_
  unfold enough
  omega

/-- The parser ends on every text. Over the tokens of an expression, wherever they stand in
a text, it reads the tree they denote or reports an error exactly if every numeral among
them fits 32 bits. -/
theorem expressions_exact_iff {text : List Char} {lx0 lx lx' : Lexer}
    {before tokens : List Token} {e : Expr} (h0 : lexer text = .ok lx0)
    (hb : Upcoming lx0 before lx) (hup : Upcoming lx tokens lx')
    (he : Derives Token.decimal 0 tokens e) (hs : Stops 0 lx'.cur) :
    parse text ≠ .error .outOfFuel ∧ ((parseExpr (enough text.length) lx = .ok (e, lx') ∨
          ∃ line what, parseExpr (enough text.length) lx = .error (.syntaxError line what)) ↔
        ∀ t ∈ tokens, t.kind = .num → t.decimal ≤ 2147483647) := by
  obtain ⟨e', he', heq⟩ := derives_values Token.num he
  have hread := parseExpr_derives h0 hb hup he' hs
  have hnum := (upcoming_num hup (upcoming_num hb (advance_spec h0).2).2).1
  have hfits : (∀ t ∈ tokens, t.kind = .num → t.num = t.decimal) ↔
      ∀ t ∈ tokens, t.kind = .num → t.decimal ≤ 2147483647 := by
    refine forall₂_congr fun t ht => forall_congr' fun hk => ?_
    rw [hnum t ht hk]
    unfold Token.decimal
    rw [fromChars_eq_decimal]
    exact Int.ofNat_le.symm
  refine ⟨parse_ends text, ?_⟩
  rw [hread, ← hfits, ← heq]
  constructor
  · rintro (h | ⟨line, what, h⟩)
    · cases h
      rfl
    · cases h
  · rintro rfl
    exact .inl rfl

/-- In `1+x*2` the product is the second operand of the sum. -/
theorem expressions_exact_iff_sum :
    parse "1+x*2".toList ≠ .error .outOfFuel ∧
      ((parseExpr (enough 5) ⟨"+x*2".toList, 1, ⟨.num, "1", 1, 1⟩⟩ =
            .ok (.binary .add (.number 1 1) (.binary .mul (.name "x" 1) (.number 2 1) 1) 1,
              ⟨[], 1, ⟨.fin, "", 0, 1⟩⟩) ∨
          ∃ line what, parseExpr (enough 5) ⟨"+x*2".toList, 1, ⟨.num, "1", 1, 1⟩⟩ =
            .error (.syntaxError line what)) ↔
        ∀ t ∈ ([⟨.num, "1", 1, 1⟩, ⟨.punct, "+", 0, 1⟩, ⟨.id, "x", 0, 1⟩, ⟨.punct, "*", 0, 1⟩,
          ⟨.num, "2", 2, 1⟩] : List Token), t.kind = .num → t.decimal ≤ 2147483647) := by
  have htwo : Derives Token.decimal 7 [⟨.num, "2", 2, 1⟩] (.number 2 1) := .number rfl
  have hx : Derives Token.decimal 7 [⟨.id, "x", 0, 1⟩] (.name "x" 1) := .name ⟨rfl, by decide⟩
  have hone : Derives Token.decimal 7 [⟨.num, "1", 1, 1⟩] (.number 1 1) := .number rfl
  have hmul : Derives Token.decimal 5
      ([⟨.id, "x", 0, 1⟩] ++ ⟨.punct, "*", 0, 1⟩ :: [⟨.num, "2", 2, 1⟩])
      (.binary .mul (.name "x" 1) (.number 2 1) 1) :=
    .binary (by decide) (.tighter (by decide) (.tighter (by decide) hx)) (.inl ⟨rfl, by decide⟩)
      (.tighter (by decide) htwo)
  have hsum : Derives Token.decimal 4 ([⟨.num, "1", 1, 1⟩] ++ ⟨.punct, "+", 0, 1⟩ ::
      ([⟨.id, "x", 0, 1⟩] ++ ⟨.punct, "*", 0, 1⟩ :: [⟨.num, "2", 2, 1⟩]))
      (.binary .add (.number 1 1) (.binary .mul (.name "x" 1) (.number 2 1) 1) 1) :=
    .binary (by decide) (.tighter (by decide) (.tighter (by decide) (.tighter (by decide) hone)))
      (.inl ⟨rfl, by decide⟩) hmul
  have hend : Stops 0 ⟨.fin, "", 0, 1⟩ := by
    refine ⟨fun k _ => ?_, fun h => (nomatch h.1), fun h => (nomatch h.1)⟩
    match k with
    | 0 | 1 | 2 | 3 | 4 | 5 => rfl
    | k + 6 => rfl
  exact @expressions_exact_iff "1+x*2".toList _ _ _ [] _ _ rfl rfl
    ⟨by decide, _, rfl, by decide, _, rfl, by decide, _, rfl, by decide, _, rfl, by decide, _, rfl,
      rfl⟩
    (.tighter (by decide) (.tighter (by decide) (.tighter (by decide) (.tighter (by decide) hsum))))
    hend

/-- The numeral `2147483648` is read as zero, with no error. -/
theorem numeral_out_of_range_is_zero :
    lexer "2147483648".toList = .ok ⟨[], 1, ⟨.num, "2147483648", 0, 1⟩⟩ ∧
      Upcoming ⟨[], 1, ⟨.num, "2147483648", 0, 1⟩⟩ [⟨.num, "2147483648", 0, 1⟩]
        ⟨[], 1, ⟨.fin, "", 0, 1⟩⟩ ∧
      Derives Token.decimal 0 [⟨.num, "2147483648", 0, 1⟩] (.number 2147483648 1) ∧
      parseExpr (enough 10) ⟨[], 1, ⟨.num, "2147483648", 0, 1⟩⟩ =
        .ok (.number 0 1, ⟨[], 1, ⟨.fin, "", 0, 1⟩⟩) := by
  have hatom : Derives Token.decimal 7 [⟨.num, "2147483648", 0, 1⟩] (.number 2147483648 1) :=
    .number rfl
  refine ⟨rfl, ⟨by decide, _, rfl, rfl⟩, ?_, rfl⟩
  exact .tighter (by decide) (.tighter (by decide) (.tighter (by decide) (.tighter (by decide)
    (.tighter (by decide) (.tighter (by decide) (.tighter (by decide) hatom))))))

end LibHSC.Dve
