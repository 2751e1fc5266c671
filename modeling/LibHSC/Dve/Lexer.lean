import LibHSC.Library.Images
import Mathlib.Data.List.TakeWhile

/-!
The lexer of the DVE language: a token of lookahead over the bytes of the text. It skips
whitespace and comments, and takes the longest token; a numeral carries its value.
-/

namespace LibHSC.Dve

inductive Tk where
  | id
  | num
  | punct
  | fin
  deriving DecidableEq, Repr

structure Token where
  kind : Tk
  text : String
  num : Int
  line : Nat
  deriving DecidableEq, Repr

inductive ParseError where
  | syntaxError (line : Nat) (what : String)
  /-- No run of the source ends here. -/
  | outOfFuel
  deriving DecidableEq, Repr

/-! ## Characters, in the C locale -/

def isSpace (c : Char) : Bool :=
  c = ' ' || c = '\t' || c = '\n' || c = '\x0b' || c = '\x0c' || c = '\r'

def isDigit (c : Char) : Bool := decide ('0' ≤ c ∧ c ≤ '9')

def isAlpha (c : Char) : Bool := decide (('a' ≤ c ∧ c ≤ 'z') ∨ ('A' ≤ c ∧ c ≤ 'Z'))

def isWordStart (c : Char) : Bool := isAlpha c || c = '_'

def isWordPart (c : Char) : Bool := isAlpha c || isDigit c || c = '_'

/-! ## Space and comments -/

/-- What the skipping is in the middle of. -/
inductive Skipping where
  | space
  | lineComment
  | blockComment
  deriving DecidableEq

/-- Skip whitespace and comments. The newline that ends a line comment is whitespace. -/
def skip : Skipping → List Char → Nat → Except ParseError (List Char × Nat)
  | .space, [], line => .ok ([], line)
  | .space, '/' :: '/' :: cs, line => skip .lineComment cs line
  | .space, '/' :: '*' :: cs, line => skip .blockComment cs line
  | .space, c :: cs, line =>
    if isSpace c then skip .space cs (if c = '\n' then line + 1 else line)
    else .ok (c :: cs, line)
  | .lineComment, [], line => .ok ([], line)
  | .lineComment, c :: cs, line =>
    if c = '\n' then skip .space cs (line + 1) else skip .lineComment cs line
  | .blockComment, '*' :: '/' :: cs, line => skip .space cs line
  | .blockComment, c :: d :: cs, line =>
    skip .blockComment (d :: cs) (if c = '\n' then line + 1 else line)
  | .blockComment, _, line => .error (.syntaxError line "unclosed comment")

def skipSpace (cs : List Char) (line : Nat) : Except ParseError (List Char × Nat) :=
  skip .space cs line

/-! ## Numerals -/

def digitValue (c : Char) : Nat := c.toNat - 48

/-- The value a run of digits denotes. -/
def decimal (digits : List Char) : Nat := digits.foldl (fun v c => 10 * v + digitValue c) 0

/-- `from_chars` into a 32-bit zero: a value out of range leaves the zero as it is. -/
def fromChars (digits : List Char) : Int :=
  if decimal digits ≤ 2147483647 then decimal digits else 0

/-! ## Tokens -/

def twoChars : List (Char × Char) :=
  [('=', '>'), ('|', '|'), ('&', '&'), ('=', '='), ('!', '='), ('<', '='), ('>', '='),
    ('<', '<'), ('>', '>'), ('-', '>')]

structure Lexer where
  rest : List Char
  line : Nat
  cur : Token
  deriving DecidableEq, Repr

/-- The longest token at the first character that is no space. -/
def nextToken (c : Char) (cs : List Char) (line : Nat) : Except ParseError Lexer :=
  if isWordStart c then
    .ok ⟨(c :: cs).dropWhile isWordPart, line,
      ⟨.id, String.ofList ((c :: cs).takeWhile isWordPart), 0, line⟩⟩
  else if isDigit c then
    let digits := (c :: cs).takeWhile isDigit
    .ok ⟨(c :: cs).dropWhile isDigit, line, ⟨.num, String.ofList digits, fromChars digits, line⟩⟩
  else
    match cs with
    | d :: ds =>
      if (c, d) ∈ twoChars then .ok ⟨ds, line, ⟨.punct, String.ofList [c, d], 0, line⟩⟩
      else if c = '"' then .error (.syntaxError line "string literals are not supported")
      else .ok ⟨cs, line, ⟨.punct, String.ofList [c], 0, line⟩⟩
    | [] =>
      if c = '"' then .error (.syntaxError line "string literals are not supported")
      else .ok ⟨cs, line, ⟨.punct, String.ofList [c], 0, line⟩⟩

/-- The lexer at the token after `rest` begins. -/
def advance (rest : List Char) (line : Nat) : Except ParseError Lexer := do
  match ← skipSpace rest line with
  | ([], line) => return ⟨[], line, ⟨.fin, "", 0, line⟩⟩
  | (c :: cs, line) => nextToken c cs line

/-- The lexer at the first token of a text. -/
def lexer (text : List Char) : Except ParseError Lexer := advance text 1

/-- The current token, and the lexer at the next one. -/
def Lexer.take (lx : Lexer) : Except ParseError (Token × Lexer) := do
  return (lx.cur, ← advance lx.rest lx.line)

/-! ## What a step of the lexer does -/

/-- How much is left to read: the characters after the current token, and the token. -/
def Lexer.left (lx : Lexer) : Nat := lx.rest.length + if lx.cur.kind = .fin then 0 else 1

theorem skip_length {m : Skipping} {cs : List Char} {line : Nat} :
    ∀ {rest : List Char} {line' : Nat}, skip m cs line = .ok (rest, line') →
      rest.length ≤ cs.length := by
  fun_induction skip m cs line with
  | case1 line =>
    intro rest line' h
    cases h
    exact Nat.le_refl _
  | case2 cs line ih =>
    intro rest line' h
    exact (ih h).trans (Nat.le_add_right _ 2)
  | case3 cs line ih =>
    intro rest line' h
    exact (ih h).trans (Nat.le_add_right _ 2)
  | case4 c cs line h1 h2 hs ih =>
    intro rest line' h
    exact (ih h).trans (Nat.le_succ _)
  | case5 c cs line h1 h2 hs =>
    intro rest line' h
    cases h
    exact Nat.le_refl _
  | case6 line =>
    intro rest line' h
    cases h
    exact Nat.le_refl _
  | case7 cs line ih =>
    intro rest line' h
    exact (ih h).trans (Nat.le_succ _)
  | case8 c cs line hc ih =>
    intro rest line' h
    exact (ih h).trans (Nat.le_succ _)
  | case9 cs line ih =>
    intro rest line' h
    exact (ih h).trans (Nat.le_add_right _ 2)
  | case10 c d cs line hne ih =>
    intro rest line' h
    exact (ih h).trans (Nat.le_succ _)
  | case11 cs line h1 h2 =>
    intro rest line' h
    cases h

theorem skip_ne_outOfFuel {m : Skipping} {cs : List Char} {line : Nat} :
    skip m cs line ≠ .error .outOfFuel := by
  fun_induction skip m cs line <;> simp_all

/-- A token takes a character at least, and a numeral carries what was read for it. -/
theorem nextToken_spec {c : Char} {cs : List Char} {line : Nat} {lx : Lexer}
    (h : nextToken c cs line = .ok lx) : lx.left ≤ cs.length + 1 ∧
      (lx.cur.kind = .num → lx.cur.num = fromChars lx.cur.text.toList) := by
  have hone : ∀ {w : List Char} {t : Token}, w.length ≤ cs.length →
      Lexer.left ⟨w, line, t⟩ ≤ cs.length + 1 := by
    intro w t hw
    unfold Lexer.left
    dsimp only
    split <;> omega
  have hdrop : ∀ {p : Char → Bool}, p c = true → ((c :: cs).dropWhile p).length ≤ cs.length := by
    intro p hp
    rw [List.dropWhile_cons_of_pos hp]
    exact (List.dropWhile_sublist _).length_le
  unfold nextToken at h
  split at h
  · next hw =>
    cases h
    refine ⟨hone (hdrop ?_), fun hk => nomatch hk⟩
    unfold isWordStart at hw
    unfold isWordPart
    rcases (Bool.or_eq_true _ _).mp hw with hw | hw
    · simp [hw]
    · simp [hw]
  · split at h
    · next hd =>
      cases h
      refine ⟨hone (hdrop hd), fun _ => ?_⟩
      rw [String.toList_ofList]
    · split at h
      · next d ds =>
        split at h
        · cases h
          exact ⟨hone (by simp), fun hk => nomatch hk⟩
        · split at h
          · cases h
          · cases h
            exact ⟨hone le_rfl, fun hk => nomatch hk⟩
      · split at h
        · cases h
        · cases h
          exact ⟨hone le_rfl, fun hk => nomatch hk⟩

theorem nextToken_ne_outOfFuel {c : Char} {cs : List Char} {line : Nat} :
    nextToken c cs line ≠ .error .outOfFuel := by
  intro h
  unfold nextToken at h
  repeat' split at h
  all_goals cases h

theorem advance_spec {rest : List Char} {line : Nat} {lx : Lexer}
    (h : advance rest line = .ok lx) : lx.left ≤ rest.length ∧
      (lx.cur.kind = .num → lx.cur.num = fromChars lx.cur.text.toList) := by
  obtain ⟨⟨cs, line'⟩, hs, h⟩ := bind_eq_ok.mp h
  have hlen := skip_length hs
  cases cs with
  | nil =>
    cases h
    exact ⟨Nat.zero_le _, fun hk => nomatch hk⟩
  | cons c cs =>
    obtain ⟨h1, h2⟩ := nextToken_spec h
    exact ⟨h1.trans hlen, h2⟩

theorem advance_ne_outOfFuel {rest : List Char} {line : Nat} :
    advance rest line ≠ .error .outOfFuel := by
  intro h
  rcases bind_eq_error.mp h with hs | ⟨⟨cs, line'⟩, -, h⟩
  · exact skip_ne_outOfFuel hs
  · cases cs with
    | nil => cases h
    | cons c cs => exact nextToken_ne_outOfFuel h

/-- Taking a token leaves less to read, unless the text had ended. -/
theorem take_spec {lx lx' : Lexer} {t : Token} (h : lx.take = .ok (t, lx')) :
    t = lx.cur ∧ advance lx.rest lx.line = .ok lx' ∧ lx'.left ≤ lx.left ∧
      (lx.cur.kind ≠ .fin → lx'.left < lx.left) := by
  obtain ⟨lx1, ha, h⟩ := bind_eq_ok.mp h
  cases h
  have hle := (advance_spec ha).1
  refine ⟨rfl, ha, ?_, fun hne => ?_⟩
  · unfold Lexer.left
    exact hle.trans (Nat.le_add_right _ _)
  · rw [Lexer.left.eq_def lx, if_neg hne]
    omega

theorem take_ne_outOfFuel {lx : Lexer} : lx.take ≠ .error .outOfFuel := by
  intro h
  rcases bind_eq_error.mp h with ha | ⟨lx1, -, h⟩
  · exact advance_ne_outOfFuel ha
  · cases h

end LibHSC.Dve
