import LibHSC.Library.Images
import Mathlib.Data.List.TakeWhile

/-!
The file surface: s-expression data, the reader and the printer.

A character of the text is a byte, and every delimiter is an ASCII byte. The
reader recurses with fuel; `parse` gives it more than any text needs.
-/

namespace LibHSC.Surface

/-- An s-expression: an atom or a list, with its source line. -/
inductive Datum where
  | atom (text : String) (line : Int)
  | list (items : List Datum) (line : Int)

namespace Datum

def isAtom : Datum → Bool
  | .atom _ _ => true
  | .list _ _ => false

def line : Datum → Int
  | .atom _ n => n
  | .list _ n => n

/-- Empty for a list. -/
def text : Datum → String
  | .atom t _ => t
  | .list _ _ => ""

/-- Empty for an atom. -/
def items : Datum → List Datum
  | .atom _ _ => []
  | .list ds _ => ds

def head (d : Datum) : String :=
  match d.items with
  | .atom t _ :: _ => t
  | _ => ""

end Datum

/-! ## The scanner -/

structure Scanner where
  rest : List Char
  line : Int

/-- `isspace` in the C locale. -/
def isSpace (c : Char) : Bool :=
  c = ' ' || c = '\t' || c = '\n' || c = '\x0b' || c = '\x0c' || c = '\r'

/-- What ends an atom. -/
def isDelimiter (c : Char) : Bool :=
  isSpace c || c = '(' || c = ')' || c = ';'

/-- Up to the end of the line, which stays. -/
def skipComment (cs : List Char) : List Char := cs.dropWhile fun c => decide (c ≠ '\n')

theorem skipComment_length (cs : List Char) : (skipComment cs).length ≤ cs.length :=
  (List.dropWhile_sublist _).length_le

/-- Skip whitespace and line comments. -/
def skipTrivia (cs : List Char) (line : Int) : Scanner :=
  match cs with
  | [] => ⟨[], line⟩
  | c :: cs =>
    if c = '\n' then skipTrivia cs (line + 1)
    else if isSpace c then skipTrivia cs line
    else if c = ';' then skipTrivia (skipComment cs) line
    else ⟨c :: cs, line⟩
termination_by cs.length
decreasing_by
  · simp
  · simp
  · have := skipComment_length cs
    simp
    omega

def Scanner.skipTrivia (s : Scanner) : Scanner := Surface.skipTrivia s.rest s.line

inductive ParseError where
  | unterminatedList (line : Int)
  | unexpectedClose (line : Int)
  /-- No run of the source ends here. -/
  | outOfFuel
  deriving DecidableEq

def ParseError.what : ParseError → String
  | .unterminatedList n => "line " ++ toString n ++ ": unterminated list"
  | .unexpectedClose n => "line " ++ toString n ++ ": unexpected ')'"
  | .outOfFuel => ""

/-! ## The reader -/

mutual

/-- Read one datum, at the first character that is no trivia. -/
def readDatum (fuel : Nat) (c : Char) (cs : List Char) (line : Int) :
    Except ParseError (Datum × Scanner) :=
  match fuel with
  | 0 => .error .outOfFuel
  | fuel + 1 =>
    if c = '(' then do
      let (items, s) ← readItems fuel line ⟨cs, line⟩
      return (.list items line, s)
    else if c = ')' then .error (.unexpectedClose line)
    else
      let atom := (c :: cs).takeWhile fun d => !isDelimiter d
      .ok (.atom (String.ofList atom) line, ⟨(c :: cs).dropWhile fun d => !isDelimiter d, line⟩)

/-- The items of the list opened on line `opened`, and its closing parenthesis. -/
def readItems (fuel : Nat) (opened : Int) (s : Scanner) :
    Except ParseError (List Datum × Scanner) :=
  match fuel with
  | 0 => .error .outOfFuel
  | fuel + 1 =>
    match s.skipTrivia with
    | ⟨[], _⟩ => .error (.unterminatedList opened)
    | ⟨c :: cs, line⟩ =>
      if c = ')' then .ok ([], ⟨cs, line⟩)
      else do
        let (d, s) ← readDatum fuel c cs line
        let (ds, s) ← readItems fuel opened s
        return (d :: ds, s)

end

def readForms (fuel : Nat) (s : Scanner) : Except ParseError (List Datum) :=
  match fuel with
  | 0 => .error .outOfFuel
  | fuel + 1 =>
    match s.skipTrivia with
    | ⟨[], _⟩ => .ok []
    | ⟨c :: cs, line⟩ => do
        let (d, s) ← readDatum fuel c cs line
        return d :: (← readForms fuel s)

def parse (text : List Char) : Except ParseError (List Datum) :=
  readForms (2 * text.length + 1) ⟨text, 1⟩

/-! ## The printer -/

mutual

def write : Datum → List Char
  | .atom text _ => text.toList
  | .list items _ => '(' :: (writeItems true items ++ [')'])

/-- A blank before every item but the first. -/
def writeItems : Bool → List Datum → List Char
  | _, [] => []
  | first, d :: ds => (if first then [] else [' ']) ++ write d ++ writeItems false ds

end

/-- The forms as the drivers print them, one a line. -/
def writeForms (forms : List Datum) : List Char :=
  forms.flatMap fun d => write d ++ ['\n']

/-! ## The grammar -/

/-- Whitespace and comments, every comment ended by its newline. -/
inductive Trivia : List Char → Prop
  | nil : Trivia []
  | space {c : Char} {cs : List Char} : isSpace c = true → Trivia cs → Trivia (c :: cs)
  | comment {body cs : List Char} : '\n' ∉ body → Trivia cs →
      Trivia (';' :: (body ++ '\n' :: cs))

/-- A token text: not empty, and no delimiter in it. -/
def IsToken (w : List Char) : Prop := w ≠ [] ∧ ∀ c ∈ w, isDelimiter c = false

/-- An atom that stands before `rest` is not continued there. -/
def EndsToken (rest : List Char) : Prop := ∀ c ∈ rest.head?, isDelimiter c = true

/-- A sequence of data interleaved with trivia. Lines are all 0 here. -/
inductive Reads : List Char → List Datum → Prop
  | done {t : List Char} : Trivia t → Reads t []
  | atom {t w rest : List Char} {ds : List Datum} : Trivia t → IsToken w → EndsToken rest →
      Reads rest ds → Reads (t ++ (w ++ rest)) (.atom (String.ofList w) 0 :: ds)
  | list {t inner rest : List Char} {items ds : List Datum} : Trivia t → Reads inner items →
      Reads rest ds → Reads (t ++ ('(' :: (inner ++ ')' :: rest))) (.list items 0 :: ds)

/-- A comment at the end of the text needs no newline. -/
def LastComment (tail : List Char) : Prop := tail = [] ∨ ∃ body, tail = ';' :: body ∧ '\n' ∉ body

/-- The text is a sequence of balanced data. -/
def Balanced (text : List Char) (ds : List Datum) : Prop :=
  ∃ body tail, text = body ++ tail ∧ Reads body ds ∧ LastComment tail

mutual

/-- The datum without its lines. -/
def Datum.erase : Datum → Datum
  | .atom text _ => .atom text 0
  | .list items _ => .list (eraseItems items) 0

def eraseItems : List Datum → List Datum
  | [] => []
  | d :: ds => d.erase :: eraseItems ds

end

mutual

/-- Every atom is a token text. -/
def Datum.Tokens : Datum → Prop
  | .atom text _ => IsToken text.toList
  | .list items _ => TokensItems items

def TokensItems : List Datum → Prop
  | [] => True
  | d :: ds => d.Tokens ∧ TokensItems ds

end

theorem eraseItems_eq (ds : List Datum) : eraseItems ds = ds.map Datum.erase := by
  induction ds with
  | nil => rfl
  | cons d ds ih => rw [eraseItems, ih, List.map_cons]

/-! ## Trivia -/

/-- A character that trivia cannot start with. -/
def Stops (c : Char) : Prop := isSpace c = false ∧ c ≠ ';'

theorem isDelimiter_of_isSpace {c : Char} (h : isSpace c = true) : isDelimiter c = true := by
  simp [isDelimiter, h]

theorem stops_of_token {c : Char} (h : isDelimiter c = false) : Stops c := by
  simp only [isDelimiter, Bool.or_eq_false_iff, decide_eq_false_iff_not] at h
  exact ⟨h.1.1.1, h.2⟩

theorem skipTrivia_stop {c : Char} (h : Stops c) (cs : List Char) (line : Int) :
    skipTrivia (c :: cs) line = ⟨c :: cs, line⟩ := by
  have hn : c ≠ '\n' := by
    rintro rfl
    exact absurd h.1 (by decide)
  rw [skipTrivia, if_neg hn, if_neg (by simp [h.1]), if_neg h.2]

theorem skipComment_newline {body : List Char} (h : '\n' ∉ body) (cs : List Char) :
    skipComment (body ++ '\n' :: cs) = '\n' :: cs := by
  induction body with
  | nil => simp [skipComment]
  | cons c body ih =>
    obtain ⟨hc, hb⟩ := not_or.mp (mt List.mem_cons.mpr h)
    rw [List.cons_append, skipComment, List.dropWhile_cons_of_pos (by simpa using Ne.symm hc)]
    exact ih hb

theorem skipComment_end {body : List Char} (h : '\n' ∉ body) : skipComment body = [] := by
  rw [← List.append_nil body, skipComment, List.dropWhile_append_of_pos]
  · rfl
  · intro c hc
    exact decide_eq_true fun hn => h (hn ▸ hc)

theorem skipTrivia_space {c : Char} (h : isSpace c = true) (cs : List Char) (line : Int) :
    ∃ line', skipTrivia (c :: cs) line = skipTrivia cs line' := by
  by_cases hn : c = '\n'
  · exact ⟨line + 1, by rw [skipTrivia, if_pos hn]⟩
  · exact ⟨line, by rw [skipTrivia, if_neg hn, if_pos h]⟩

theorem skipTrivia_semicolon (cs : List Char) (line : Int) :
    skipTrivia (';' :: cs) line = skipTrivia (skipComment cs) line := by
  rw [skipTrivia, if_neg (by decide), if_neg (by decide), if_pos rfl]

/-- Trivia before a text is skipped. -/
theorem skipTrivia_append {t : List Char} (ht : Trivia t) (cs : List Char) :
    ∀ line, ∃ line', skipTrivia (t ++ cs) line = skipTrivia cs line' := by
  induction ht with
  | nil => exact fun line => ⟨line, rfl⟩
  | @space c t hc _ ih =>
    intro line
    obtain ⟨n, hn⟩ := skipTrivia_space hc (t ++ cs) line
    obtain ⟨n', hn'⟩ := ih n
    exact ⟨n', by rw [List.cons_append, hn, hn']⟩
  | @comment body t hb _ ih =>
    intro line
    obtain ⟨n', hn'⟩ := ih (line + 1)
    refine ⟨n', ?_⟩
    rw [List.cons_append, List.append_assoc, List.cons_append, skipTrivia_semicolon,
      skipComment_newline hb, skipTrivia, if_pos rfl, hn']

theorem skipTrivia_last {tail : List Char} (h : LastComment tail) (line : Int) :
    skipTrivia tail line = ⟨[], line⟩ := by
  rcases h with rfl | ⟨body, rfl, hb⟩
  · rw [skipTrivia]
  · rw [skipTrivia_semicolon, skipComment_end hb, skipTrivia]

theorem comment_cases (cs : List Char) :
    ('\n' ∉ cs ∧ skipComment cs = []) ∨
      ∃ body rest, cs = body ++ '\n' :: rest ∧ '\n' ∉ body ∧ skipComment cs = '\n' :: rest := by
  by_cases h : '\n' ∈ cs
  · obtain ⟨body, rest, rfl, hb⟩ := List.eq_append_cons_of_mem h
    exact .inr ⟨body, rest, rfl, hb, skipComment_newline hb rest⟩
  · exact .inl ⟨h, skipComment_end h⟩

/-- What is skipped is trivia, up to a character that stops it or, with a last
comment, to the end. -/
theorem skipTrivia_spec (cs : List Char) (line : Int) :
    (∃ t c rest line', cs = t ++ c :: rest ∧ Trivia t ∧ Stops c ∧
      skipTrivia cs line = ⟨c :: rest, line'⟩) ∨
    (∃ t tail line', cs = t ++ tail ∧ Trivia t ∧ LastComment tail ∧
      skipTrivia cs line = ⟨[], line'⟩) := by
  induction hlen : cs.length using Nat.strongRecOn generalizing cs line with
  | _ n ih =>
    cases cs with
    | nil => exact .inr ⟨[], [], line, rfl, .nil, .inl rfl, by rw [skipTrivia]⟩
    | cons c cs =>
      rw [List.length_cons] at hlen
      cases hs : isSpace c with
      | true =>
        obtain ⟨line1, h1⟩ := skipTrivia_space hs cs line
        rw [h1]
        rcases ih cs.length (by omega) cs line1 rfl with
          ⟨t, d, rest, line', rfl, ht, hd, he⟩ | ⟨t, tail, line', rfl, ht, hl, he⟩
        · exact .inl ⟨c :: t, d, rest, line', rfl, .space hs ht, hd, he⟩
        · exact .inr ⟨c :: t, tail, line', rfl, .space hs ht, hl, he⟩
      | false =>
        by_cases hc : c = ';'
        · subst hc
          rw [skipTrivia_semicolon]
          rcases comment_cases cs with ⟨hno, he⟩ | ⟨body, rest, rfl, hb, he⟩
          · rw [he, skipTrivia]
            exact .inr ⟨[], ';' :: cs, line, rfl, .nil, .inr ⟨cs, rfl, hno⟩, rfl⟩
          · rw [he, skipTrivia, if_pos rfl]
            rw [List.length_append, List.length_cons] at hlen
            rcases ih rest.length (by omega) rest (line + 1) rfl with
              ⟨t, d, rest', line', rfl, ht, hd, he'⟩ | ⟨t, tail, line', rfl, ht, hl, he'⟩
            · exact .inl ⟨';' :: (body ++ '\n' :: t), d, rest', line', by simp,
                .comment hb ht, hd, he'⟩
            · exact .inr ⟨';' :: (body ++ '\n' :: t), tail, line', by simp,
                .comment hb ht, hl, he'⟩
        · have hstop : Stops c := ⟨hs, hc⟩
          exact .inl ⟨[], c, cs, line, rfl, .nil, hstop, skipTrivia_stop hstop cs line⟩

/-! ## Soundness -/

theorem EndsToken.of_start {body rest : List Char} (h : EndsToken rest) (hp : body <+: rest) :
    EndsToken body := by
  obtain ⟨more, rfl⟩ := hp
  cases body with
  | nil => simp [EndsToken]
  | cons c body => exact h

theorem endsToken_dropWhile (cs : List Char) :
    EndsToken (cs.dropWhile fun d => !isDelimiter d) := by
  intro c hc
  have h := List.head?_dropWhile_not (fun d => !isDelimiter d) cs
  rw [Option.mem_def.mp hc] at h
  simpa using h

/-- What the reader took of the text for one datum. -/
structure Took (d : Datum) (text rest : List Char) : Prop where
  spelled : ∃ w, text = w ++ rest ∧ w ≠ [] ∧
    ∀ t body ds, Trivia t → body <+: rest → Reads body ds → Reads (t ++ (w ++ body)) (d.erase :: ds)

theorem Took.length {d : Datum} {c : Char} {cs rest : List Char} (h : Took d (c :: cs) rest) :
    rest.length ≤ cs.length := by
  obtain ⟨w, hw, hne, -⟩ := h.spelled
  have hlen := congrArg List.length hw
  have := List.length_pos_iff.mpr hne
  rw [List.length_cons, List.length_append] at hlen
  omega

theorem read_sound : ∀ fuel,
    (∀ c cs line d s, Stops c → readDatum fuel c cs line = .ok (d, s) → Took d (c :: cs) s.rest) ∧
    (∀ opened s ds s', readItems fuel opened s = .ok (ds, s') →
      ∃ body, s.rest = body ++ ')' :: s'.rest ∧ Reads body (eraseItems ds)) := by
  intro fuel
  induction fuel with
  | zero =>
    refine ⟨fun c cs line d s _ h => ?_, fun opened s ds s' h => ?_⟩
    · cases h
    · cases h
  | succ fuel ih =>
    refine ⟨fun c cs line d s hc h => ?_, fun opened s ds s' h => ?_⟩
    · rw [readDatum] at h
      split at h
      · next hopen =>
        subst hopen
        obtain ⟨⟨items, s1⟩, h1, h2⟩ := bind_eq_ok.mp h
        cases h2
        obtain ⟨inner, hinner, hreads⟩ := ih.2 _ _ _ _ h1
        refine ⟨'(' :: (inner ++ [')']), ?_, by simp, ?_⟩
        · simp only at hinner
          rw [hinner]
          simp
        · intro t body ds ht _ hbody
          have := Reads.list ht hreads hbody
          simpa [Datum.erase] using this
      · next hopen =>
        split at h
        · cases h
        · next hclose =>
          cases h
          have hdelim : isDelimiter c = false := by
            simp [isDelimiter, hc.1, hc.2, hopen, hclose]
          refine ⟨(c :: cs).takeWhile fun d => !isDelimiter d,
            (List.takeWhile_append_dropWhile).symm, ?_, ?_⟩
          · rw [List.takeWhile_cons_of_pos (by simp [hdelim])]
            exact List.cons_ne_nil _ _
          · intro t body ds ht hp hbody
            refine Reads.atom ht ⟨?_, ?_⟩ ((endsToken_dropWhile _).of_start hp) hbody
            · rw [List.takeWhile_cons_of_pos (by simp [hdelim])]
              exact List.cons_ne_nil _ _
            · intro x hx
              simpa using List.mem_takeWhile_imp hx
    · rw [readItems] at h
      unfold Scanner.skipTrivia at h
      rcases skipTrivia_spec s.rest s.line with
        ⟨t, c, rest, line', hs, ht, hstop, he⟩ | ⟨t, tail, line', hs, ht, hl, he⟩
      · rw [he] at h
        simp only at h
        split at h
        · next hclose =>
          cases h
          subst hclose
          exact ⟨t, hs, .done ht⟩
        · obtain ⟨⟨d, s1⟩, h1, h2⟩ := bind_eq_ok.mp h
          obtain ⟨⟨ds1, s2⟩, h3, h4⟩ := bind_eq_ok.mp h2
          cases h4
          obtain ⟨w, hw, -, hspell⟩ := (ih.1 _ _ _ _ _ hstop h1).spelled
          obtain ⟨body, hbody, hreads⟩ := ih.2 _ _ _ _ h3
          refine ⟨t ++ (w ++ body), ?_, hspell t body _ ht ⟨_, hbody.symm⟩ hreads⟩
          rw [hs, hw, hbody]
          simp
      · rw [he] at h
        cases h

theorem readForms_sound : ∀ fuel s ds, readForms fuel s = .ok ds →
    Balanced s.rest (eraseItems ds) := by
  intro fuel
  induction fuel with
  | zero =>
    intro s ds h
    cases h
  | succ fuel ih =>
    intro s ds h
    rw [readForms] at h
    unfold Scanner.skipTrivia at h
    rcases skipTrivia_spec s.rest s.line with
      ⟨t, c, rest, line', hs, ht, hstop, he⟩ | ⟨t, tail, line', hs, ht, hl, he⟩
    · rw [he] at h
      obtain ⟨⟨d, s1⟩, h1, h2⟩ := bind_eq_ok.mp h
      obtain ⟨ds1, h3, h4⟩ := bind_eq_ok.mp h2
      cases h4
      obtain ⟨w, hw, -, hspell⟩ := ((read_sound fuel).1 _ _ _ _ _ hstop h1).spelled
      obtain ⟨body, tail, hbody, hreads, hl⟩ := ih _ _ h3
      refine ⟨t ++ (w ++ body), tail, ?_, hspell t body _ ht ⟨_, hbody.symm⟩ hreads, hl⟩
      rw [hs, hw, hbody]
      simp
    · rw [he] at h
      cases h
      exact ⟨t, tail, hs, .done ht, hl⟩

/-! ## Completeness -/

theorem takeWhile_token {w rest : List Char} (hw : IsToken w) (hr : EndsToken rest) :
    (w ++ rest).takeWhile (fun d => !isDelimiter d) = w ∧
      (w ++ rest).dropWhile (fun d => !isDelimiter d) = rest := by
  have hpos : ∀ c ∈ w, (!isDelimiter c) = true := fun c hc => by simp [hw.2 c hc]
  rw [List.takeWhile_append_of_pos hpos, List.dropWhile_append_of_pos hpos]
  cases rest with
  | nil => simp
  | cons c rest =>
    have hc : isDelimiter c = true := hr c rfl
    rw [List.takeWhile_cons_of_neg (by simp [hc]), List.dropWhile_cons_of_neg (by simp [hc])]
    simp

/-- A token is read as its atom. -/
theorem readDatum_token {c : Char} {cs rest : List Char} (hw : IsToken (c :: cs))
    (hr : EndsToken rest) (fuel : Nat) (line : Int) :
    readDatum (fuel + 1) c (cs ++ rest) line =
      .ok (.atom (String.ofList (c :: cs)) line, ⟨rest, line⟩) := by
  have hc := hw.2 c List.mem_cons_self
  have hopen : c ≠ '(' := by
    rintro rfl
    exact absurd hc (by decide)
  have hclose : c ≠ ')' := by
    rintro rfl
    exact absurd hc (by decide)
  obtain ⟨h1, h2⟩ := takeWhile_token hw hr
  rw [List.cons_append] at h1 h2
  rw [readDatum, if_neg hopen, if_neg hclose]
  simp only [h1, h2]

theorem stops_open : Stops '(' := ⟨by decide, by decide⟩

theorem stops_close : Stops ')' := ⟨by decide, by decide⟩

/-- The items of a list are read up to its parenthesis. -/
theorem readItems_complete {body : List Char} {ds : List Datum} (h : Reads body ds) :
    ∀ fuel rest line opened, 2 * body.length + 1 ≤ fuel →
      ∃ ds' line', readItems fuel opened ⟨body ++ ')' :: rest, line⟩ = .ok (ds', ⟨rest, line'⟩) ∧
        eraseItems ds' = ds := by
  induction h with
  | @done t ht =>
    intro fuel rest line opened hfuel
    obtain ⟨fuel, rfl⟩ := Nat.exists_eq_add_of_le' (show 1 ≤ fuel by omega)
    obtain ⟨line', he⟩ := skipTrivia_append ht (')' :: rest) line
    refine ⟨[], line', ?_, rfl⟩
    rw [readItems, Scanner.skipTrivia, he, skipTrivia_stop stops_close]
    rfl
  | @atom t w tail ds ht hw hends _ ih =>
    intro fuel rest line opened hfuel
    obtain ⟨c, cs, rfl⟩ := List.exists_cons_of_ne_nil hw.1
    simp only [List.length_append, List.length_cons] at hfuel
    obtain ⟨fuel, rfl⟩ := Nat.exists_eq_add_of_le' (show 2 ≤ fuel by omega)
    have hstop := stops_of_token (hw.2 c List.mem_cons_self)
    obtain ⟨line1, he⟩ := skipTrivia_append ht ((c :: cs) ++ (tail ++ ')' :: rest)) line
    obtain ⟨ds', line', h1, h2⟩ := ih (fuel + 1) rest line1 opened (by omega)
    have hends' : EndsToken (tail ++ ')' :: rest) := by
      cases tail with
      | nil =>
        intro x hx
        cases hx
        decide
      | cons x xs => exact hends
    have hclose : c ≠ ')' := by
      rintro rfl
      exact absurd (hw.2 _ List.mem_cons_self) (by decide)
    refine ⟨.atom (String.ofList (c :: cs)) line1 :: ds', line', ?_, ?_⟩
    · rw [show t ++ (c :: cs ++ tail) ++ ')' :: rest = t ++ ((c :: cs) ++ (tail ++ ')' :: rest)) by
        simp]
      rw [readItems, Scanner.skipTrivia, he, List.cons_append, skipTrivia_stop hstop]
      simp only [if_neg hclose]
      rw [readDatum_token hw hends' fuel line1]
      exact bind_of_ok rfl (bind_of_ok h1 rfl)
    · rw [eraseItems, h2, Datum.erase]
  | @list t inner tail items ds ht _ _ ih1 ih2 =>
    intro fuel rest line opened hfuel
    simp only [List.length_append, List.length_cons] at hfuel
    obtain ⟨fuel, rfl⟩ := Nat.exists_eq_add_of_le' (show 2 ≤ fuel by omega)
    obtain ⟨line1, he⟩ :=
      skipTrivia_append ht ('(' :: (inner ++ ')' :: (tail ++ ')' :: rest))) line
    obtain ⟨items', line2, h1, h2⟩ :=
      ih1 fuel (tail ++ ')' :: rest) line1 line1 (by omega)
    obtain ⟨ds', line', h3, h4⟩ := ih2 (fuel + 1) rest line2 opened (by omega)
    refine ⟨.list items' line1 :: ds', line', ?_, ?_⟩
    · rw [show t ++ '(' :: (inner ++ ')' :: tail) ++ ')' :: rest =
        t ++ '(' :: (inner ++ ')' :: (tail ++ ')' :: rest)) by simp]
      rw [readItems, Scanner.skipTrivia, he, skipTrivia_stop stops_open]
      simp only [if_neg (show ¬ '(' = ')' by decide)]
      rw [readDatum, if_pos rfl]
      exact bind_of_ok (bind_of_ok h1 rfl) (bind_of_ok h3 rfl)
    · rw [eraseItems, h4, Datum.erase, h2]

theorem LastComment.endsToken {tail : List Char} (h : LastComment tail) : EndsToken tail := by
  rcases h with rfl | ⟨body, rfl, -⟩
  · simp [EndsToken]
  · intro c hc
    cases hc
    decide

theorem readForms_complete {body : List Char} {ds : List Datum} (h : Reads body ds)
    {tail : List Char} (hl : LastComment tail) :
    ∀ fuel line, 2 * body.length + 1 ≤ fuel →
      ∃ ds', readForms fuel ⟨body ++ tail, line⟩ = .ok ds' ∧ eraseItems ds' = ds := by
  induction h with
  | @done t ht =>
    intro fuel line hfuel
    obtain ⟨fuel, rfl⟩ := Nat.exists_eq_add_of_le' (show 1 ≤ fuel by omega)
    obtain ⟨line', he⟩ := skipTrivia_append ht tail line
    refine ⟨[], ?_, rfl⟩
    rw [readForms, Scanner.skipTrivia, he, skipTrivia_last hl]
  | @atom t w more ds ht hw hends _ ih =>
    intro fuel line hfuel
    obtain ⟨c, cs, rfl⟩ := List.exists_cons_of_ne_nil hw.1
    simp only [List.length_append, List.length_cons] at hfuel
    obtain ⟨fuel, rfl⟩ := Nat.exists_eq_add_of_le' (show 2 ≤ fuel by omega)
    have hstop := stops_of_token (hw.2 c List.mem_cons_self)
    obtain ⟨line1, he⟩ := skipTrivia_append ht ((c :: cs) ++ (more ++ tail)) line
    obtain ⟨ds', h1, h2⟩ := ih (fuel + 1) line1 (by omega)
    have hends' : EndsToken (more ++ tail) := by
      cases more with
      | nil => exact hl.endsToken
      | cons x xs => exact hends
    refine ⟨.atom (String.ofList (c :: cs)) line1 :: ds', ?_, ?_⟩
    · rw [show t ++ (c :: cs ++ more) ++ tail = t ++ ((c :: cs) ++ (more ++ tail)) by simp]
      rw [readForms, Scanner.skipTrivia, he, List.cons_append, skipTrivia_stop hstop]
      simp only
      rw [readDatum_token hw hends' fuel line1]
      exact bind_of_ok rfl (bind_of_ok h1 rfl)
    · rw [eraseItems, h2, Datum.erase]
  | @list t inner more items ds ht hin _ _ ih2 =>
    intro fuel line hfuel
    simp only [List.length_append, List.length_cons] at hfuel
    obtain ⟨fuel, rfl⟩ := Nat.exists_eq_add_of_le' (show 2 ≤ fuel by omega)
    obtain ⟨line1, he⟩ := skipTrivia_append ht ('(' :: (inner ++ ')' :: (more ++ tail))) line
    obtain ⟨items', line2, h1, h2⟩ :=
      readItems_complete hin fuel (more ++ tail) line1 line1 (by omega)
    obtain ⟨ds', h3, h4⟩ := ih2 (fuel + 1) line2 (by omega)
    refine ⟨.list items' line1 :: ds', ?_, ?_⟩
    · rw [show t ++ '(' :: (inner ++ ')' :: more) ++ tail =
        t ++ '(' :: (inner ++ ')' :: (more ++ tail)) by simp]
      rw [readForms, Scanner.skipTrivia, he, skipTrivia_stop stops_open]
      simp only
      rw [readDatum, if_pos rfl]
      exact bind_of_ok (bind_of_ok h1 rfl) (bind_of_ok h3 rfl)
    · rw [eraseItems, h4, Datum.erase, h2]

/-! ## Termination -/

/-- Every step of the reader takes a character, so twice the length is fuel enough. -/
theorem read_fuel : ∀ fuel, (∀ c cs line, Stops c → 2 * cs.length + 2 ≤ fuel →
      readDatum fuel c cs line ≠ .error .outOfFuel) ∧
    (∀ opened s, 2 * s.rest.length + 1 ≤ fuel → readItems fuel opened s ≠ .error .outOfFuel) := by
  intro fuel
  induction fuel with
  | zero =>
    refine ⟨fun c cs line _ h => ?_, fun opened s h => ?_⟩
    · omega
    · omega
  | succ fuel ih =>
    refine ⟨fun c cs line _ hfuel h => ?_, fun opened s hfuel h => ?_⟩
    · rw [readDatum] at h
      split at h
      · rcases bind_eq_error.mp h with h1 | ⟨a, -, h2⟩
        · exact ih.2 _ ⟨cs, line⟩ (by dsimp only; omega) h1
        · cases h2
      · split at h
        · cases h
        · cases h
    · rw [readItems] at h
      unfold Scanner.skipTrivia at h
      rcases skipTrivia_spec s.rest s.line with
        ⟨t, c, rest, line', hs, -, hstop, he⟩ | ⟨t, tail, line', -, -, -, he⟩
      · rw [he] at h
        have hlen := congrArg List.length hs
        rw [List.length_append, List.length_cons] at hlen
        simp only at h
        split at h
        · cases h
        · rcases bind_eq_error.mp h with h1 | ⟨⟨d, s1⟩, h1, h2⟩
          · exact ih.1 _ _ _ hstop (by omega) h1
          · have htook := ((read_sound fuel).1 _ _ _ _ _ hstop h1).length
            rcases bind_eq_error.mp h2 with h3 | ⟨a, -, h3⟩
            · exact ih.2 _ s1 (by omega) h3
            · cases h3
      · rw [he] at h
        cases h

theorem readForms_fuel : ∀ fuel s, 2 * s.rest.length + 1 ≤ fuel →
    readForms fuel s ≠ .error .outOfFuel := by
  intro fuel
  induction fuel with
  | zero =>
    intro s hfuel
    omega
  | succ fuel ih =>
    intro s hfuel h
    rw [readForms] at h
    unfold Scanner.skipTrivia at h
    rcases skipTrivia_spec s.rest s.line with
      ⟨t, c, rest, line', hs, -, hstop, he⟩ | ⟨t, tail, line', -, -, -, he⟩
    · rw [he] at h
      have hlen := congrArg List.length hs
      rw [List.length_append, List.length_cons] at hlen
      rcases bind_eq_error.mp h with h1 | ⟨⟨d, s1⟩, h1, h2⟩
      · exact (read_fuel fuel).1 _ _ _ hstop (by omega) h1
      · have htook := ((read_sound fuel).1 _ _ _ _ _ hstop h1).length
        rcases bind_eq_error.mp h2 with h3 | ⟨a, -, h3⟩
        · exact ih s1 (by omega) h3
        · cases h3
    · rw [he] at h
      cases h

theorem parse_terminates (text : List Char) : parse text ≠ .error .outOfFuel :=
  readForms_fuel _ _ le_rfl

/-- The reader accepts the balanced texts and reads their data. -/
theorem parse_eq_ok_iff (text : List Char) (ds : List Datum) :
    (∃ forms, parse text = .ok forms ∧ forms.map Datum.erase = ds) ↔ Balanced text ds := by
  constructor
  · rintro ⟨forms, h, rfl⟩
    rw [← eraseItems_eq]
    exact readForms_sound _ _ _ h
  · rintro ⟨body, tail, rfl, hreads, hl⟩
    obtain ⟨forms, h1, h2⟩ := readForms_complete hreads hl
      (2 * (body ++ tail).length + 1) 1 (by rw [List.length_append]; omega)
    exact ⟨forms, h1, by rw [← eraseItems_eq, h2]⟩

/-! ## Round trip -/

theorem trivia_singleton {c : Char} (h : isSpace c = true) : Trivia [c] := .space h .nil

mutual

/-- A printed datum is read back, with whatever is read behind it. -/
theorem write_reads : (d : Datum) → d.Tokens → ∀ t rest ds, Trivia t → EndsToken rest →
    Reads rest ds → Reads (t ++ (write d ++ rest)) (d.erase :: ds)
  | .atom text line, hd, t, rest, ds, ht, hr, h => by
    rw [write, Datum.erase]
    have := Reads.atom ht hd hr h
    rwa [String.ofList_toList] at this
  | .list items line, hd, t, rest, ds, ht, _, h => by
    rw [write, Datum.erase]
    have := Reads.list ht (writeItems_reads true items hd) h
    simpa using this

theorem writeItems_reads : (first : Bool) → (items : List Datum) → TokensItems items →
    Reads (writeItems first items) (eraseItems items)
  | _, [], _ => .done .nil
  | first, d :: ds, h => by
    have htail := writeItems_reads false ds h.2
    have hends : EndsToken (writeItems false ds) := by
      cases ds with
      | nil => simp [writeItems, EndsToken]
      | cons e es =>
        intro c hc
        cases hc
        decide
    have ht : Trivia (if first then [] else [' ']) := by
      cases first with
      | true => exact .nil
      | false => exact trivia_singleton (by decide)
    have := write_reads d h.1 _ _ _ ht hends htail
    rw [writeItems, eraseItems, List.append_assoc]
    exact this

end

theorem writeForms_reads {forms : List Datum} (h : ∀ d ∈ forms, d.Tokens) :
    ∀ t, Trivia t → Reads (t ++ writeForms forms) (forms.map Datum.erase) := by
  induction forms with
  | nil =>
    intro t ht
    simpa [writeForms] using Reads.done ht
  | cons d forms ih =>
    intro t ht
    obtain ⟨hd, hforms⟩ := List.forall_mem_cons.mp h
    have hrest := ih hforms ['\n'] (trivia_singleton (by decide))
    have hends : EndsToken (['\n'] ++ writeForms forms) := by
      intro c hc
      cases hc
      decide
    have := write_reads d hd t _ _ ht hends hrest
    simpa [writeForms] using this

/-- The printer and the reader: printed forms are read back up to their lines, at
any depth; the reader accepts the balanced texts, with the data they spell, and
answers every other text with an error; it always ends. -/
theorem parse_write_round_trip :
    (∀ forms : List Datum, (∀ d ∈ forms, d.Tokens) → ∃ read, parse (writeForms forms) = .ok read ∧
        read.map Datum.erase = forms.map Datum.erase) ∧
    (∀ text ds, (∃ forms, parse text = .ok forms ∧ forms.map Datum.erase = ds) ↔ Balanced text ds) ∧
    (∀ text, (¬∃ ds, Balanced text ds) → ∃ line, parse text = .error (.unterminatedList line) ∨
        parse text = .error (.unexpectedClose line)) ∧
    (∀ text, parse text ≠ .error .outOfFuel) := by
  refine ⟨fun forms hforms => ?_, parse_eq_ok_iff, fun text hno => ?_, parse_terminates⟩
  · refine (parse_eq_ok_iff _ _).mpr ⟨writeForms forms, [], by simp, ?_, .inl rfl⟩
    exact writeForms_reads hforms [] .nil
  · cases h : parse text with
    | ok forms => exact absurd ⟨_, (parse_eq_ok_iff text _).mp ⟨forms, h, rfl⟩⟩ hno
    | error e =>
      cases e with
      | unterminatedList line => exact ⟨line, .inl rfl⟩
      | unexpectedClose line => exact ⟨line, .inr rfl⟩
      | outOfFuel => exact absurd h (parse_terminates text)

end LibHSC.Surface
