import LibHSC.Surface.Tokens

/-!
Reading a text as a stream. The session's reader cuts the orders it is sent with a lexer of
its own: it drops comments together with their newlines, and it knows strings, which the
parser does not. Where the two agree, the pieces are read as the whole text is.
-/

namespace LibHSC.Surface

/-! ## The reader of the stream -/

/-- `read_form` in its loop: whether something was read, what, and the rest of the stream. -/
def readChars (depth : Int) (inString inComment seen : Bool) (text : List Char) :
    List Char → Bool × List Char × List Char
  | [] => (seen, text, [])
  | c :: cs =>
    if inComment then readChars depth inString (decide (c ≠ '\n')) seen text cs
    else if inString then readChars depth (decide (c ≠ '"')) false seen (text ++ [c]) cs
    else if c = ';' then readChars depth false true seen text cs
    else if !seen && isSpace c then readChars depth false false seen text cs
    else if c = '"' then readChars depth true false true (text ++ [c]) cs
    else if c = '(' then readChars (depth + 1) false false true (text ++ [c]) cs
    else if c = ')' then
      if depth - 1 ≤ 0 then (true, text ++ [c], cs)
      else readChars (depth - 1) false false true (text ++ [c]) cs
    -- A bare atom ends at the whitespace behind it.
    else if depth = 0 ∧ isSpace c then (true, text ++ [c], cs)
    else readChars depth false false true (text ++ [c]) cs

def readForm (input : List Char) : Bool × List Char × List Char :=
  readChars 0 false false false [] input

/-- The texts the loop of `run_stream` hands to the parser, one after the other. -/
def readPieces : Nat → List Char → Option (List (List Char))
  | 0, _ => none
  | fuel + 1, input =>
    match readForm input with
    | (false, _, _) => some []
    | (true, text, rest) => (readPieces fuel rest).map fun ps => text :: ps

/-- Every piece of the stream is read, and together they give the data, up to their lines. -/
def Streams (text : List Char) (forms : List Datum) : Prop :=
  ∃ (ps : List (List Char)) (dss : List (List Datum)), readPieces (text.length + 1) text = some ps ∧
    ps.map parse = dss.map .ok ∧ dss.flatten.map Datum.erase = forms.map Datum.erase

/-! ## Where the two lexers agree -/

/-- The text without its comments and their newlines. The flag says that the text starts
inside a comment. -/
def strip : Bool → List Char → List Char
  | _, [] => []
  | true, c :: cs => strip (decide (c ≠ '\n')) cs
  | false, c :: cs => if c = ';' then strip true cs else c :: strip false cs

/-- No semicolon stands between quotes. The flags say that the text starts between quotes,
or inside a comment. -/
def QuotesPlain (inString inComment : Bool) : List Char → Prop
  | [] => True
  | c :: cs =>
    if inComment then QuotesPlain inString (decide (c ≠ '\n')) cs
    else if inString then c ≠ ';' ∧ QuotesPlain (decide (c ≠ '"')) false cs
    else if c = ';' then QuotesPlain false true cs
    else QuotesPlain (decide (c = '"')) false cs

/-- No comment stands between two token characters with nothing else there. -/
def NoGlue : Bool → List Char → Prop
  | _, [] => True
  | true, c :: cs => NoGlue (decide (c ≠ '\n')) cs
  | false, c :: cs =>
    if c = ';' then NoGlue true cs
    else ¬ (isDelimiter c = false ∧ cs.head? = some ';' ∧ startsToken (strip false cs) = true) ∧
      NoGlue false cs

/-- Over a text without comments: a form that is over when the parentheses between quotes
are not counted is over when they are, and so is the text. The counts are `opened`, of all
parentheses since the last such end, and `depth`, of those outside quotes. -/
def CutsClosed (inString : Bool) (opened depth : Int) : List Char → Prop
  | [] => opened = 0
  | c :: cs =>
    if inString then CutsClosed (decide (c ≠ '"')) (opened + parenWeight c) depth cs
    else if c = '"' then CutsClosed true opened depth cs
    else if c = '(' then CutsClosed false (opened + 1) (depth + 1) cs
    else if c = ')' then
      if depth ≤ 1 then opened = 1 ∧ CutsClosed false 0 0 cs
      else CutsClosed false (opened - 1) (depth - 1) cs
    else if depth = 0 ∧ isSpace c then opened = 0 ∧ CutsClosed false 0 0 cs
    else CutsClosed false opened depth cs

/-- The text gives the reader of the stream no reason to differ from the parser. -/
structure InStep (text : List Char) : Prop where
  quotes : QuotesPlain false false text
  glue : NoGlue false text
  cuts : CutsClosed false 0 0 (strip false text)

/-! ## The loop ends -/

theorem readChars_length {cs : List Char} : ∀ {depth : Int} {s k seen : Bool} {t t' : List Char}
    {b : Bool} {rest : List Char}, readChars depth s k seen t cs = (b, t', rest) →
      rest.length ≤ cs.length ∧ (b = true → seen = true ∨ rest.length < cs.length) := by
  induction cs with
  | nil =>
    intro depth s k seen t t' b rest h
    cases h
    exact ⟨Nat.le_refl _, .inl⟩
  | cons c cs ih =>
    intro depth s k seen t t' b rest h
    have hlt : rest.length ≤ cs.length → rest.length ≤ (c :: cs).length ∧
        (b = true → seen = true ∨ rest.length < (c :: cs).length) :=
      fun hle => ⟨Nat.le_succ_of_le hle, fun _ => .inr (Nat.lt_succ_of_le hle)⟩
    rw [readChars] at h
    repeat' split at h
    all_goals first
      | exact hlt (ih h).1
      | (cases h; exact hlt le_rfl)

theorem readPieces_ends {fuel : Nat} : ∀ {input : List Char}, input.length < fuel →
    ∃ ps, readPieces fuel input = some ps := by
  induction fuel with
  | zero => exact fun h => absurd h (Nat.not_lt_zero _)
  | succ fuel ih =>
    intro input h
    rw [readPieces]
    rcases hr : readForm input with ⟨b, text, rest⟩
    cases b with
    | false => exact ⟨[], rfl⟩
    | true =>
      have hlt : rest.length < input.length :=
        ((readChars_length hr).2 rfl).resolve_left Bool.false_ne_true
      obtain ⟨ps, hps⟩ := ih (show rest.length < fuel by omega)
      exact ⟨text :: ps, by simp [hps]⟩

/-! ## Comments are dropped -/

theorem strip_clean {cs : List Char} : ∀ {k : Bool}, Clean (strip k cs) := by
  induction cs with
  | nil =>
    intro k
    cases k <;> exact List.not_mem_nil
  | cons c cs ih =>
    intro k
    cases k with
    | true => exact ih
    | false =>
      rw [strip]
      split
      · exact ih
      · next hc =>
        intro h
        rcases List.mem_cons.mp h with h | h
        · exact hc h.symm
        · exact ih h

/-- The reader finds the same form in the text without its comments. -/
theorem readChars_strip {cs : List Char} : ∀ {depth : Int} {s k seen : Bool}
    {t t' : List Char} {b : Bool} {rest : List Char}, QuotesPlain s k cs →
      readChars depth s k seen t cs = (b, t', rest) →
        readChars depth s false seen t (strip k cs) = (b, t', strip false rest) ∧
          QuotesPlain false false rest := by
  induction cs with
  | nil =>
    intro depth s k seen t t' b rest _ h
    cases h
    cases k <;> exact ⟨rfl, trivial⟩
  | cons c cs ih =>
    intro depth s k seen t t' b rest hq h
    rw [readChars] at h
    rw [QuotesPlain] at hq
    cases k with
    | true =>
      rw [if_pos rfl] at h hq
      exact ih hq h
    | false =>
      rw [if_neg Bool.false_ne_true] at h hq
      cases s with
      | true =>
        rw [if_pos rfl] at h hq
        rw [strip, if_neg hq.1, readChars, if_neg Bool.false_ne_true, if_pos rfl]
        exact ih hq.2 h
      | false =>
        rw [if_neg Bool.false_ne_true] at h hq
        by_cases hsemi : c = ';'
        · rw [if_pos hsemi] at h hq
          rw [strip, if_pos hsemi]
          exact ih hq h
        rw [if_neg hsemi] at h hq
        rw [strip, if_neg hsemi, readChars, if_neg Bool.false_ne_true,
          if_neg Bool.false_ne_true, if_neg hsemi]
        by_cases hspace : (!seen && isSpace c) = true
        · have hquote : c ≠ '"' := by
            rintro rfl
            simp [isSpace] at hspace
          rw [if_pos hspace] at h ⊢
          rw [decide_eq_false hquote] at hq
          exact ih hq h
        rw [if_neg hspace] at h ⊢
        by_cases hquote : c = '"'
        · rw [if_pos hquote] at h ⊢
          rw [decide_eq_true hquote] at hq
          exact ih hq h
        rw [if_neg hquote] at h ⊢
        rw [decide_eq_false hquote] at hq
        by_cases hopen : c = '('
        · rw [if_pos hopen] at h ⊢
          exact ih hq h
        rw [if_neg hopen] at h ⊢
        by_cases hclose : c = ')'
        · rw [if_pos hclose] at h ⊢
          by_cases hover : depth - 1 ≤ 0
          · rw [if_pos hover] at h ⊢
            cases h
            exact ⟨rfl, hq⟩
          · rw [if_neg hover] at h ⊢
            exact ih hq h
        rw [if_neg hclose] at h ⊢
        by_cases hatom : depth = 0 ∧ isSpace c
        · rw [if_pos hatom] at h ⊢
          cases h
          exact ⟨rfl, hq⟩
        · rw [if_neg hatom] at h ⊢
          exact ih hq h

theorem readPieces_strip {fuel : Nat} : ∀ {text : List Char}, QuotesPlain false false text →
    readPieces fuel text = readPieces fuel (strip false text) := by
  induction fuel with
  | zero => exact fun _ => rfl
  | succ fuel ih =>
    intro text hq
    rcases hr : readForm text with ⟨b, t, rest⟩
    obtain ⟨hs, hrest⟩ := readChars_strip hq hr
    rw [readPieces, readPieces, hr, show readForm (strip false text) = _ from hs]
    cases b with
    | false => rfl
    | true =>
      dsimp only
      rw [ih hrest]

/-! ## The pieces of a text without comments -/

/-- What the reader takes off a text without comments, behind spaces. -/
structure Takes (seen : Bool) (t cs : List Char) (b : Bool) (t' rest : List Char) : Prop where
  taken : ∃ ws x, Spaces ws ∧ cs = ws ++ (x ++ rest) ∧ t' = t ++ x ∧ (seen = true → ws = [])
  nothing : b = false → t' = [] ∧ rest = []
  ends : rest = [] ∨ ∀ c ∈ t'.getLast?, isDelimiter c = true

theorem Takes.keep {seen b : Bool} {t t' cs rest : List Char} {c : Char}
    (h : Takes true (t ++ [c]) cs b t' rest) : Takes seen t (c :: cs) b t' rest := by
  obtain ⟨ws, x, -, hcs, ht', hws⟩ := h.taken
  refine ⟨⟨[], c :: x, fun d hd => (nomatch hd), ?_, ?_, fun _ => rfl⟩, h.nothing, h.ends⟩
  · rw [hcs, hws rfl]
    rfl
  · rw [ht', List.append_assoc]
    rfl

theorem Takes.skip {b : Bool} {t' cs rest : List Char} {c : Char} (hc : isSpace c = true)
    (h : Takes false [] cs b t' rest) : Takes false [] (c :: cs) b t' rest := by
  obtain ⟨ws, x, hws, hcs, ht', -⟩ := h.taken
  exact ⟨⟨c :: ws, x, List.forall_mem_cons.mpr ⟨hc, hws⟩, by rw [hcs]; rfl, ht',
    fun h => absurd h Bool.false_ne_true⟩, h.nothing, h.ends⟩

theorem Takes.cut {seen : Bool} {t cs : List Char} {c : Char} (hc : isDelimiter c = true) :
    Takes seen t (c :: cs) true (t ++ [c]) cs := by
  refine ⟨⟨[], [c], fun d hd => (nomatch hd), rfl, rfl, fun _ => rfl⟩,
    fun h => absurd h.symm Bool.false_ne_true, .inr fun d hd => ?_⟩
  rw [List.getLast?_concat] at hd
  cases hd
  exact hc

theorem readChars_spec {cs : List Char} : ∀ {depth : Int} {s seen : Bool} {t t' : List Char}
    {b : Bool} {rest : List Char}, Clean cs → (seen = false → t = [] ∧ depth = 0 ∧ s = false) →
      readChars depth s false seen t cs = (b, t', rest) → Takes seen t cs b t' rest ∧
        (CutsClosed s (parens t) depth cs ↔ parens t' = 0 ∧ CutsClosed false 0 0 rest) := by
  induction cs with
  | nil =>
    intro depth s seen t t' b rest _ hseen h
    cases h
    refine ⟨⟨⟨[], [], fun d hd => (nomatch hd), rfl, (List.append_nil _).symm, fun _ => rfl⟩,
      fun hb => ⟨(hseen hb).1, rfl⟩, .inl rfl⟩, ?_⟩
    exact ⟨fun h => ⟨h, rfl⟩, fun h => h.1⟩
  | cons c cs ih =>
    intro depth s seen t t' b rest hclean hseen h
    have hsemi : c ≠ ';' := fun hc => hclean (hc ▸ List.mem_cons_self ..)
    have hkeep : ∀ {d' : Int} {s' : Bool}, readChars d' s' false true (t ++ [c]) cs =
        (b, t', rest) → (CutsClosed s (parens t) depth (c :: cs) ↔
          CutsClosed s' (parens (t ++ [c])) d' cs) → Takes seen t (c :: cs) b t' rest ∧
      (CutsClosed s (parens t) depth (c :: cs) ↔ parens t' = 0 ∧ CutsClosed false 0 0 rest) := by
      intro d' s' h hiff
      obtain ⟨htakes, hcuts⟩ := ih hclean.of_cons (fun h => absurd h.symm Bool.false_ne_true) h
      exact ⟨htakes.keep, hiff.trans hcuts⟩
    rw [readChars, if_neg Bool.false_ne_true] at h
    cases s with
    | true =>
      rw [if_pos rfl] at h
      have hs : seen = true := by
        cases seen with
        | false => cases (hseen rfl).2.2
        | true => rfl
      subst hs
      refine hkeep h ?_
      rw [CutsClosed, if_pos rfl, parens_append, parens_singleton]
    | false =>
      rw [if_neg Bool.false_ne_true, if_neg hsemi] at h
      by_cases hspace : (!seen && isSpace c) = true
      · rw [if_pos hspace] at h
        obtain ⟨hnot, hc⟩ := Bool.and_eq_true_iff.mp hspace
        obtain rfl : seen = false := by simpa using hnot
        obtain ⟨rfl, rfl, -⟩ := hseen rfl
        obtain ⟨htakes, hcuts⟩ := ih hclean.of_cons (fun _ => ⟨rfl, rfl, rfl⟩) h
        refine ⟨htakes.skip hc, ?_⟩
        have hother : c ≠ '"' ∧ c ≠ '(' ∧ c ≠ ')' := by
          refine ⟨?_, ?_, ?_⟩ <;> rintro rfl <;> simp [isSpace] at hc
        rw [← hcuts, CutsClosed, if_neg Bool.false_ne_true, if_neg hother.1, if_neg hother.2.1,
          if_neg hother.2.2, if_pos ⟨rfl, hc⟩]
        exact ⟨fun h => h.2, fun h => ⟨rfl, h⟩⟩
      rw [if_neg hspace] at h
      have hcuts := CutsClosed.eq_2 false (parens t) depth c cs
      have hparens : parens (t ++ [c]) = parens t + parenWeight c := by
        rw [parens_append, parens_singleton]
      rw [if_neg Bool.false_ne_true] at hcuts
      by_cases hquote : c = '"'
      · rw [if_pos hquote] at h hcuts
        refine hkeep h ?_
        rw [hcuts, hparens, hquote]
        simp [parenWeight]
      rw [if_neg hquote] at h hcuts
      by_cases hopen : c = '('
      · rw [if_pos hopen] at h hcuts
        refine hkeep h ?_
        rw [hcuts, hparens, hopen]
        simp [parenWeight]
      rw [if_neg hopen] at h hcuts
      by_cases hclose : c = ')'
      · rw [if_pos hclose] at h hcuts
        have hminus : parens (t ++ [c]) = parens t - 1 := by
          rw [hparens, hclose]
          rfl
        by_cases hover : depth ≤ 1
        · rw [if_pos (by omega)] at h
          rw [if_pos hover] at hcuts
          cases h
          refine ⟨.cut (hclose ▸ by decide), ?_⟩
          rw [hcuts, hminus]
          exact and_congr_left' (by omega)
        · rw [if_neg (by omega)] at h
          rw [if_neg hover] at hcuts
          refine hkeep h ?_
          rw [hcuts, hminus]
      rw [if_neg hclose] at h hcuts
      have hsame : parens (t ++ [c]) = parens t := by
        rw [hparens, parenWeight, if_neg hopen, if_neg hclose, Int.add_zero]
      by_cases hatom : depth = 0 ∧ isSpace c
      · rw [if_pos hatom] at h hcuts
        cases h
        refine ⟨.cut (isDelimiter_of_isSpace hatom.2), ?_⟩
        rw [hcuts, hsame]
      · rw [if_neg hatom] at h hcuts
        refine hkeep h ?_
        rw [hcuts, hsame]

/-- The pieces have the tokens of the text. They are balanced if no cut is inside a list. -/
theorem readPieces_spec {fuel : Nat} : ∀ {u : List Char} {ps : List (List Char)}, Clean u →
    readPieces fuel u = some ps → toks u = (ps.map toks).flatten ∧ (∀ p ∈ ps, Clean p) ∧
      (CutsClosed false 0 0 u ↔ ∀ p ∈ ps, parens p = 0) := by
  induction fuel with
  | zero => exact fun _ h => nomatch h
  | succ fuel ih =>
    intro u ps hclean h
    rw [readPieces] at h
    rcases hr : readForm u with ⟨b, t, rest⟩
    rw [hr] at h
    obtain ⟨⟨⟨ws, x, hws, hcs, ht, -⟩, hnothing, hends⟩, hcuts⟩ :=
      readChars_spec hclean (fun _ => ⟨rfl, rfl, rfl⟩) hr
    rw [List.nil_append] at ht
    subst ht hcs
    obtain ⟨hx, hrest⟩ := hclean.of_append.2.of_append
    cases b with
    | false =>
      cases h
      obtain ⟨rfl, rfl⟩ := hnothing rfl
      refine ⟨toks_spaces hws _, fun p hp => (nomatch hp), ?_⟩
      exact ⟨fun _ p hp => (nomatch hp), fun _ => hcuts.mpr ⟨rfl, rfl⟩⟩
    | true =>
      obtain ⟨qs, hqs, rfl⟩ := Option.map_eq_some_iff.mp h
      obtain ⟨htoks, hcleans, hclosed⟩ := ih hrest hqs
      have hcut : toks (t ++ rest) = toks t ++ toks rest := by
        refine toks_append ?_
        rcases hends with rfl | hlast
        · exact .inr fun c hc => (nomatch hc)
        · exact .inl hlast
      refine ⟨?_, List.forall_mem_cons.mpr ⟨hx, hcleans⟩, ?_⟩
      · rw [toks_spaces hws, hcut, htoks]
        rfl
      · rw [List.forall_mem_cons, ← hclosed]
        exact hcuts

/-! ## Glued tokens -/

/-- The first token goes on if it may. -/
theorem continueToken_length (c : Char) {joined : Bool} {ts : List Tok}
    (h : joined = true → ∃ w us, ts = .atom w :: us) :
    (continueToken c joined ts).length = ts.length + if joined then 0 else 1 := by
  cases joined with
  | false => rfl
  | true =>
    obtain ⟨w, us, rfl⟩ := h rfl
    rfl

theorem toks_start {cs : List Char} (h : startsToken cs = true) :
    ∃ w us, toks cs = .atom w :: us := by
  cases cs with
  | nil => cases h
  | cons c cs =>
    have hc : isDelimiter c = false := by simpa [startsToken] using h
    rw [toks_char hc]
    unfold continueToken
    split
    · exact ⟨_, _, rfl⟩
    · exact ⟨_, _, rfl⟩

theorem continueToken_inj {c : Char} {joined : Bool} {ts us : List Tok}
    (ht : joined = true → ∃ w vs, ts = .atom w :: vs)
    (hu : joined = true → ∃ w vs, us = .atom w :: vs) :
    continueToken c joined ts = continueToken c joined us ↔ ts = us := by
  cases joined with
  | false => exact ⟨fun h => (List.cons_eq_cons.mp h).2, fun h => h ▸ rfl⟩
  | true =>
    obtain ⟨w, vs, rfl⟩ := ht rfl
    obtain ⟨w', vs', rfl⟩ := hu rfl
    simp [continueToken]

/-- Only a comment makes a difference to how the text goes on. -/
theorem startsToken_strip {cs : List Char} (h : cs.head? ≠ some ';') :
    startsToken (strip false cs) = startsToken (blank false cs) := by
  cases cs with
  | nil => rfl
  | cons c cs =>
    have hc : c ≠ ';' := fun hc => h (congrArg some hc)
    rw [strip, if_neg hc, blank, if_neg hc]
    rfl

theorem startsToken_blank {cs : List Char} (h : cs.head? = some ';') :
    startsToken (blank false cs) = false := by
  refine startsToken_eq_false.mpr (endsToken_blank fun c hc => ?_)
  rw [h] at hc
  cases hc
  decide

/-- Dropping the newlines of the comments loses tokens where a comment is all that parts
two, and nowhere else. -/
theorem toks_strip {cs : List Char} : ∀ {k : Bool},
    (toks (strip k cs)).length ≤ (toks (blank k cs)).length ∧
      (toks (strip k cs) = toks (blank k cs) ↔ NoGlue k cs) := by
  induction cs with
  | nil =>
    intro k
    cases k <;> exact ⟨Nat.le_refl _, fun _ => trivial, fun _ => rfl⟩
  | cons c cs ih =>
    intro k
    cases k with
    | true =>
      rw [strip, blank, NoGlue]
      by_cases hc : c = '\n'
      · rw [if_pos hc, toks_space (by decide), decide_eq_false (fun h => h hc)]
        exact ih
      · rw [if_neg hc, decide_eq_true hc]
        exact ih
    | false =>
      rw [strip, blank, NoGlue]
      by_cases hsemi : c = ';'
      · rw [if_pos hsemi, if_pos hsemi, if_pos hsemi]
        exact ih
      rw [if_neg hsemi, if_neg hsemi, if_neg hsemi]
      obtain ⟨hle, hiff⟩ := @ih false
      cases hdelim : isDelimiter c with
      | true =>
        have hone : ∃ pre : List Tok, ∀ us, toks (c :: us) = pre ++ toks us := by
          by_cases hopen : c = '('
          · exact ⟨[.opening], fun us => hopen ▸ toks_opening us⟩
          by_cases hclose : c = ')'
          · exact ⟨[.closing], fun us => hclose ▸ toks_closing us⟩
          · refine ⟨[], fun us => ?_⟩
            rw [toks, if_neg hopen, if_neg hclose, if_pos hdelim]
            rfl
        obtain ⟨pre, hpre⟩ := hone
        rw [hpre, hpre, List.length_append, List.length_append, List.append_cancel_left_eq, hiff]
        refine ⟨Nat.add_le_add_left hle _, fun h => ⟨fun h => ?_, h⟩, fun h => h.2⟩
        cases h.1
      | false =>
        rw [toks_char hdelim, toks_char hdelim,
          continueToken_length c toks_start, continueToken_length c toks_start]
        by_cases hsame : startsToken (strip false cs) = startsToken (blank false cs)
        · have hinj := @continueToken_inj c (startsToken (blank false cs))
            (toks (strip false cs)) (toks (blank false cs))
            (fun h => toks_start (hsame.trans h)) toks_start
          rw [hsame, hinj, hiff]
          refine ⟨Nat.add_le_add_right hle _, fun h => ⟨fun hglue => ?_, h⟩, fun h => h.2⟩
          rw [startsToken_blank hglue.2.1] at hglue
          cases hglue.2.2
        · have hhead : cs.head? = some ';' := by
            by_contra hhead
            exact hsame (startsToken_strip hhead)
          have hblank := startsToken_blank hhead
          have hstrip : startsToken (strip false cs) = true := by
            rw [hblank] at hsame
            simpa using hsame
          rw [hblank, hstrip]
          refine ⟨Nat.le_succ_of_le hle, fun h => ?_, fun h => ?_⟩
          · have hlen := congrArg List.length h
            rw [continueToken_length c fun _ => toks_start hstrip] at hlen
            simp only [continueToken, List.length_cons, if_true] at hlen
            omega
          · exact absurd ⟨rfl, hhead, rfl⟩ h.1

/-! ## The stream and the parser -/

theorem itemToks_append (ds es : List Datum) :
    itemToks (ds ++ es) = itemToks ds ++ itemToks es := by
  induction ds with
  | nil => rfl
  | cons d ds ih => rw [List.cons_append, itemToks, itemToks, ih, List.append_assoc]

theorem parse_toks {text : List Char} {forms : List Datum} (h : parse text = .ok forms) :
    toks (blank false text) = itemToks (forms.map Datum.erase) :=
  balanced_toks ((parse_eq_ok_iff text _).mp ⟨forms, h, rfl⟩)

/-- Pieces that are read have, together, the tokens of what they are read as. -/
theorem pieces_toks {ps : List (List Char)} : ∀ {dss : List (List Datum)},
    (∀ p ∈ ps, Clean p) → ps.map parse = dss.map .ok →
      (ps.map toks).flatten = itemToks (dss.flatten.map Datum.erase) ∧ ∀ p ∈ ps, parens p = 0 := by
  induction ps with
  | nil =>
    intro dss _ h
    obtain rfl := List.map_eq_nil_iff.mp h.symm
    exact ⟨rfl, fun p hp => (nomatch hp)⟩
  | cons p ps ih =>
    intro dss hclean h
    obtain ⟨hp, hps⟩ := List.forall_mem_cons.mp hclean
    obtain ⟨ds, dss, rfl, hds, hdss⟩ := List.map_eq_cons_iff.mp h.symm
    have htoks := parse_toks hds.symm
    rw [clean_blank hp] at htoks
    obtain ⟨hrest, hparens⟩ := ih hps hdss.symm
    refine ⟨?_, List.forall_mem_cons.mpr ⟨?_, hparens⟩⟩
    · rw [List.flatten_cons, List.map_append, itemToks_append, ← hrest, ← htoks]
      rfl
    · rw [← depth_toks, htoks]
      exact (depth_items _).1

/-- Balanced pieces with the tokens of data are read as these data. -/
theorem pieces_read {ps : List (List Char)} : ∀ {ds : List Datum}, (∀ p ∈ ps, Clean p) →
    (∀ p ∈ ps, parens p = 0) → (ps.map toks).flatten = itemToks ds →
      ∃ dss : List (List Datum), ps.map parse = dss.map .ok ∧
        dss.flatten.map Datum.erase = ds.map Datum.erase := by
  induction ps with
  | nil =>
    intro ds _ _ h
    cases ds with
    | nil => exact ⟨[], rfl, rfl⟩
    | cons d ds =>
      rw [itemToks] at h
      cases d <;> cases h
  | cons p ps ih =>
    intro ds hclean hparens h
    obtain ⟨hp, hps⟩ := List.forall_mem_cons.mp hclean
    obtain ⟨hzero, hzeros⟩ := List.forall_mem_cons.mp hparens
    obtain ⟨es, fs, rfl, hes, hfs⟩ :=
      itemToks_split (u := toks p) h.symm ((depth_toks p).trans hzero)
    obtain ⟨forms, hread, hforms⟩ := parse_clean hp hes.symm
    obtain ⟨dss, hmap, hflat⟩ := ih hps hzeros hfs.symm
    refine ⟨forms :: dss, ?_, ?_⟩
    · rw [List.map_cons, List.map_cons, hread, hmap]
    · rw [List.flatten_cons, List.map_append, List.map_append, hforms, hflat]

mutual

theorem erase_erase : (d : Datum) → d.erase.erase = d.erase
  | .atom _ _ => rfl
  | .list items _ => by
    rw [Datum.erase, Datum.erase, eraseItems_eraseItems items]

theorem eraseItems_eraseItems : (ds : List Datum) → eraseItems (eraseItems ds) = eraseItems ds
  | [] => rfl
  | d :: ds => by
    rw [eraseItems, eraseItems, erase_erase d, eraseItems_eraseItems ds]

end

/-- The loop that reads a text as a stream ends. In step with the parser its pieces are
read as the whole text is, and where no semicolon stands between quotes they are in no
other case. -/
theorem stream_reads_text {text : List Char} {forms : List Datum} (h : parse text = .ok forms) :
    (∃ ps, readPieces (text.length + 1) text = some ps) ∧ (InStep text → Streams text forms) ∧
      (QuotesPlain false false text → Streams text forms → InStep text) := by
  obtain ⟨ps, hps⟩ := readPieces_ends (Nat.lt_succ_self text.length)
  have hwhole := parse_toks h
  refine ⟨⟨ps, hps⟩, fun hstep => ?_, fun hquotes hstream => ?_⟩
  · have hpieces := hps
    rw [readPieces_strip hstep.quotes] at hpieces
    obtain ⟨htoks, hclean, hcuts⟩ := readPieces_spec strip_clean hpieces
    rw [toks_strip.2.mpr hstep.glue, hwhole] at htoks
    obtain ⟨dss, hmap, hflat⟩ := pieces_read hclean (hcuts.mp hstep.cuts) htoks.symm
    refine ⟨ps, dss, hps, hmap, hflat.trans ?_⟩
    rw [← eraseItems_eq, ← eraseItems_eq, eraseItems_eraseItems]
  · obtain ⟨ps', dss, hps', hmap, hflat⟩ := hstream
    rw [readPieces_strip hquotes] at hps'
    obtain ⟨htoks, hclean, hcuts⟩ := readPieces_spec strip_clean hps'
    obtain ⟨hpieces, hparens⟩ := pieces_toks hclean hmap
    refine ⟨hquotes, toks_strip.2.mp ?_, hcuts.mpr hparens⟩
    rw [htoks, hpieces, hflat, hwhole]

/-- A list with quotes, a comment behind it, and an atom. -/
theorem stream_reads_text_list :
    (∃ ps, readPieces 13 "(a \"b\") ;x\nd".toList = some ps) ∧
      (InStep "(a \"b\") ;x\nd".toList → Streams "(a \"b\") ;x\nd".toList
        [.list [.atom "a" 1, .atom "\"b\"" 1] 1, .atom "d" 2]) ∧
      (QuotesPlain false false "(a \"b\") ;x\nd".toList → Streams "(a \"b\") ;x\nd".toList
        [.list [.atom "a" 1, .atom "\"b\"" 1] 1, .atom "d" 2] →
          InStep "(a \"b\") ;x\nd".toList) := by
  refine @stream_reads_text "(a \"b\") ;x\nd".toList _ ?_
  have hread : parse "(a \"b\") ;x\nd".toList = .ok [.list [.atom (String.ofList ['a']) 1,
      .atom (String.ofList ['"', 'b', '"']) 1] 1, .atom (String.ofList ['d']) 2] := by
    simp [parse, readForms, Scanner.skipTrivia, skipTrivia, isSpace, readDatum, readItems,
      isDelimiter, skipComment, bind, Except.bind, pure, Except.pure]
  exact hread

/-- In `a;c` and a line `b` the comment parts two atoms. The stream has only one. -/
theorem comment_glues_atoms : parse "a;c\nb".toList = .ok [.atom "a" 1, .atom "b" 2] ∧
    readPieces 6 "a;c\nb".toList = some [['a', 'b']] ∧
    ¬ Streams "a;c\nb".toList [.atom "a" 1, .atom "b" 2] := by
  have hread : parse "a;c\nb".toList =
      .ok [.atom (String.ofList ['a']) 1, .atom (String.ofList ['b']) 2] := by
    simp [parse, readForms, Scanner.skipTrivia, skipTrivia, isSpace, readDatum,
      isDelimiter, skipComment, bind, Except.bind, pure, Except.pure]
  have hpiece : parse ['a', 'b'] = .ok [.atom (String.ofList ['a', 'b']) 1] := by
    simp [parse, readForms, Scanner.skipTrivia, skipTrivia, isSpace, readDatum,
      isDelimiter, bind, Except.bind, pure, Except.pure]
  refine ⟨hread, rfl, ?_⟩
  rintro ⟨ps, dss, hps, hmap, hflat⟩
  obtain rfl : [['a', 'b']] = ps := Option.some.inj hps
  rw [List.map_singleton, hpiece] at hmap
  obtain ⟨ds, dss, rfl, hds, hdss⟩ := List.map_eq_cons_iff.mp hmap.symm
  obtain rfl := List.map_eq_nil_iff.mp hdss
  cases hds
  exact absurd (congrArg List.length hflat) (by decide)

end LibHSC.Surface
