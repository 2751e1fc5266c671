import LibHSC.Surface.Parser
import Mathlib.Algebra.Order.Ring.Int
import Mathlib.Algebra.BigOperators.Group.List.Basic

/-!
The tokens of a text, and of data: a text is read as the data with the same tokens. What
the tokens of a text are is a matter of its characters alone, so a text may be cut where
no token is, and the data fall apart where the parentheses balance.
-/

namespace LibHSC.Surface

inductive Tok where
  | opening
  | closing
  | atom (w : List Char)
  deriving DecidableEq

/-! ## The tokens of a text -/

/-- A text that starts in the middle of a token, if one stands before it. -/
def startsToken (cs : List Char) : Bool := cs.head?.any fun c => !isDelimiter c

/-- One more character in front of the first token, or a token of its own. -/
def continueToken (c : Char) (joined : Bool) (ts : List Tok) : List Tok :=
  match joined, ts with
  | true, .atom w :: ts => .atom (c :: w) :: ts
  | _, ts => .atom [c] :: ts

/-- The tokens of a text without comments. -/
def toks : List Char → List Tok
  | [] => []
  | c :: cs =>
    if c = '(' then .opening :: toks cs
    else if c = ')' then .closing :: toks cs
    else if isDelimiter c then toks cs
    else continueToken c (startsToken cs) (toks cs)

/-- The text with a newline for every comment, and none for a last one that has none. The
flag says that the text starts inside a comment. -/
def blank : Bool → List Char → List Char
  | _, [] => []
  | true, c :: cs => if c = '\n' then '\n' :: blank false cs else blank true cs
  | false, c :: cs => if c = ';' then blank true cs else c :: blank false cs

/-! ## The tokens of data -/

mutual

def Datum.toks : Datum → List Tok
  | .atom text _ => [.atom text.toList]
  | .list items _ => .opening :: (itemToks items ++ [.closing])

def itemToks : List Datum → List Tok
  | [] => []
  | d :: ds => d.toks ++ itemToks ds

end

/-! ## Characters -/

/-- A text without comments. -/
def Clean (cs : List Char) : Prop := ';' ∉ cs

def Spaces (cs : List Char) : Prop := ∀ c ∈ cs, isSpace c = true

theorem startsToken_eq_false {cs : List Char} : startsToken cs = false ↔ EndsToken cs := by
  cases cs with
  | nil => simp [startsToken, EndsToken]
  | cons c cs => simp [startsToken, EndsToken]

theorem Clean.of_append {u v : List Char} (h : Clean (u ++ v)) : Clean u ∧ Clean v :=
  ⟨fun hu => h (List.mem_append_left _ hu), fun hv => h (List.mem_append_right _ hv)⟩

theorem Clean.of_cons {c : Char} {cs : List Char} (h : Clean (c :: cs)) : Clean cs :=
  fun hc => h (List.mem_cons_of_mem _ hc)

theorem spaces_trivia {t : List Char} (h : Spaces t) : Trivia t := by
  induction t with
  | nil => exact .nil
  | cons c t ih =>
    obtain ⟨hc, ht⟩ := List.forall_mem_cons.mp h
    exact .space hc (ih ht)

/-! ## Reading tokens off a text -/

theorem toks_space {c : Char} (h : isSpace c = true) (cs : List Char) :
    toks (c :: cs) = toks cs := by
  have hopen : c ≠ '(' := by
    rintro rfl
    exact absurd h (by decide)
  have hclose : c ≠ ')' := by
    rintro rfl
    exact absurd h (by decide)
  rw [toks, if_neg hopen, if_neg hclose, if_pos (isDelimiter_of_isSpace h)]

theorem toks_spaces {t : List Char} (h : Spaces t) (cs : List Char) : toks (t ++ cs) = toks cs := by
  induction t with
  | nil => rfl
  | cons c t ih =>
    obtain ⟨hc, ht⟩ := List.forall_mem_cons.mp h
    rw [List.cons_append, toks_space hc, ih ht]

theorem toks_opening (cs : List Char) : toks ('(' :: cs) = .opening :: toks cs := by
  rw [toks, if_pos rfl]

theorem toks_closing (cs : List Char) : toks (')' :: cs) = .closing :: toks cs := by
  rw [toks, if_neg (by decide), if_pos rfl]

theorem toks_char {c : Char} (h : isDelimiter c = false) (cs : List Char) :
    toks (c :: cs) = continueToken c (startsToken cs) (toks cs) := by
  have hparen := h
  simp only [isDelimiter, Bool.or_eq_false_iff, decide_eq_false_iff_not] at hparen
  rw [toks, if_neg hparen.1.1.2, if_neg hparen.1.2, if_neg (by simp [h])]

/-- A token stands before a text that does not go on with it. -/
theorem toks_token {w rest : List Char} (hw : IsToken w) (hr : EndsToken rest) :
    toks (w ++ rest) = .atom w :: toks rest := by
  obtain ⟨hne, hall⟩ := hw
  induction w with
  | nil => exact absurd rfl hne
  | cons c w ih =>
    obtain ⟨hc, hw⟩ := List.forall_mem_cons.mp hall
    rw [List.cons_append, toks_char hc]
    cases w with
    | nil =>
      rw [List.nil_append, startsToken_eq_false.mpr hr]
      rfl
    | cons d w =>
      have hd : startsToken (d :: w ++ rest) = true := by
        simp [startsToken, hw d List.mem_cons_self]
      rw [hd, ih (List.cons_ne_nil _ _) hw]
      rfl

/-- What a text without comments starts with, after spaces. -/
theorem clean_cases {p : List Char} (h : Clean p) :
    Spaces p ∨ ∃ t q, Spaces t ∧ (p = t ++ '(' :: q ∨ p = t ++ ')' :: q ∨
      ∃ w, p = t ++ (w ++ q) ∧ IsToken w ∧ EndsToken q) := by
  induction p with
  | nil => exact .inl fun c hc => (nomatch hc)
  | cons c p ih =>
    cases hs : isSpace c with
    | true =>
      have hcons : ∀ {t : List Char}, Spaces t → Spaces (c :: t) :=
        fun ht => List.forall_mem_cons.mpr ⟨hs, ht⟩
      rcases ih h.of_cons with hp | ⟨t, q, ht, rfl | rfl | ⟨w, rfl, hw, hq⟩⟩
      · exact .inl (hcons hp)
      · exact .inr ⟨c :: t, q, hcons ht, .inl rfl⟩
      · exact .inr ⟨c :: t, q, hcons ht, .inr (.inl rfl)⟩
      · exact .inr ⟨c :: t, q, hcons ht, .inr (.inr ⟨w, rfl, hw, hq⟩)⟩
    | false =>
      have hnil : Spaces [] := fun c hc => (nomatch hc)
      refine .inr ?_
      by_cases hopen : c = '('
      · exact ⟨[], p, hnil, .inl (hopen ▸ rfl)⟩
      by_cases hclose : c = ')'
      · exact ⟨[], p, hnil, .inr (.inl (hclose ▸ rfl))⟩
      have hsemi : c ≠ ';' := fun hc => h (hc ▸ List.mem_cons_self ..)
      have hc : isDelimiter c = false := by simp [isDelimiter, hs, hopen, hclose, hsemi]
      refine ⟨[], p.dropWhile fun d => !isDelimiter d, hnil, .inr (.inr
        ⟨c :: p.takeWhile fun d => !isDelimiter d, ?_, ⟨List.cons_ne_nil _ _, ?_⟩,
          endsToken_dropWhile p⟩)⟩
      · simp
      · refine List.forall_mem_cons.mpr ⟨hc, fun d hd => ?_⟩
        simpa using List.mem_takeWhile_imp hd

/-! ## Cutting a text -/

theorem continueToken_append {c : Char} {joined : Bool} {ts us : List Tok}
    (h : ts ≠ [] ∨ joined = false) :
    continueToken c joined (ts ++ us) = continueToken c joined ts ++ us := by
  cases joined with
  | false => rfl
  | true =>
    cases ts with
    | nil => simp at h
    | cons t ts => cases t <;> rfl

theorem toks_ne_nil {cs : List Char} (h : startsToken cs = true) : toks cs ≠ [] := by
  cases cs with
  | nil => cases h
  | cons c cs =>
    have hc : isDelimiter c = false := by simpa [startsToken] using h
    rw [toks_char hc]
    unfold continueToken
    split <;> exact List.cons_ne_nil _ _

/-- A text may be cut behind a delimiter, and before one. -/
theorem toks_append {p q : List Char} (h : (∀ c ∈ p.getLast?, isDelimiter c = true) ∨ EndsToken q) :
    toks (p ++ q) = toks p ++ toks q := by
  induction p with
  | nil => rfl
  | cons c p ih =>
    have hp : (∀ d ∈ p.getLast?, isDelimiter d = true) ∨ EndsToken q := by
      refine h.imp_left fun hlast d hd => hlast d ?_
      cases p with
      | nil => cases hd
      | cons e p => simpa using hd
    rw [List.cons_append, toks, toks, ih hp]
    split
    · rfl
    split
    · rfl
    split
    · rfl
    · next hopen hclose hdelim =>
      have hstart : startsToken (p ++ q) = startsToken p := by
        cases p with
        | nil =>
          have hq : EndsToken q := h.resolve_left fun hlast => hdelim (hlast c rfl)
          exact startsToken_eq_false.mpr hq
        | cons d p => rfl
      rw [hstart]
      refine continueToken_append ?_
      cases hs : startsToken p with
      | true => exact .inl (toks_ne_nil hs)
      | false => exact .inr rfl

/-- A closing parenthesis among the tokens is one of the text. -/
theorem toks_split {p : List Char} (h : Clean p) {u v : List Tok}
    (hsplit : toks p = u ++ .closing :: v) :
    ∃ inner rest, p = inner ++ ')' :: rest ∧ toks inner = u ∧ toks rest = v := by
  induction hlen : p.length using Nat.strongRecOn generalizing p u with
  | _ n ih =>
    have hshort : ∀ {t q : List Char} {c : Char}, p = t ++ c :: q → q.length < n := by
      intro t q c hp
      rw [← hlen, hp, List.length_append, List.length_cons]
      omega
    rcases clean_cases h with hp | ⟨t, q, ht, hp | hp | ⟨w, hp, hw, hq⟩⟩
    · rw [← List.append_nil p, toks_spaces hp] at hsplit
      simp [toks] at hsplit
    · rw [hp, toks_spaces ht, toks_opening] at hsplit
      cases u with
      | nil => cases hsplit
      | cons x u =>
        obtain ⟨rfl, hrest⟩ := List.cons_eq_cons.mp hsplit
        obtain ⟨inner, rest, rfl, hu, hv⟩ :=
          ih q.length (hshort hp) ((hp ▸ h).of_append.2.of_cons) hrest rfl
        refine ⟨t ++ '(' :: inner, rest, by simp [hp], ?_, hv⟩
        rw [toks_spaces ht, toks_opening, hu]
    · rw [hp, toks_spaces ht, toks_closing] at hsplit
      cases u with
      | nil =>
        obtain ⟨-, hrest⟩ := List.cons_eq_cons.mp hsplit
        refine ⟨t, q, hp, ?_, hrest⟩
        rw [← List.append_nil t, toks_spaces ht]
        rfl
      | cons x u =>
        obtain ⟨rfl, hrest⟩ := List.cons_eq_cons.mp hsplit
        obtain ⟨inner, rest, rfl, hu, hv⟩ :=
          ih q.length (hshort hp) ((hp ▸ h).of_append.2.of_cons) hrest rfl
        refine ⟨t ++ ')' :: inner, rest, by simp [hp], ?_, hv⟩
        rw [toks_spaces ht, toks_closing, hu]
    · rw [hp, toks_spaces ht, toks_token hw hq] at hsplit
      cases u with
      | nil => cases hsplit
      | cons x u =>
        obtain ⟨rfl, hrest⟩ := List.cons_eq_cons.mp hsplit
        have hlt : q.length < n := by
          have hpos := List.length_pos_iff.mpr hw.1
          rw [← hlen, hp, List.length_append, List.length_append]
          omega
        obtain ⟨inner, rest, rfl, hu, hv⟩ :=
          ih q.length hlt ((hp ▸ h).of_append.2.of_append.2) hrest rfl
        refine ⟨t ++ (w ++ inner), rest, by simp [hp], ?_, hv⟩
        rw [toks_spaces ht, toks_token hw (hq.of_start (List.prefix_append ..)), hu]

/-! ## Tokens and what the reader reads -/

theorem trivia_blank {t : List Char} (h : Trivia t) : ∃ t', Spaces t' ∧
    ∀ cs, blank false (t ++ cs) = t' ++ blank false cs := by
  have hcomment : ∀ {body : List Char}, '\n' ∉ body → ∀ cs,
      blank true (body ++ '\n' :: cs) = '\n' :: blank false cs := by
    intro body hb cs
    induction body with
    | nil => rfl
    | cons c body ih =>
      obtain ⟨hc, hb⟩ := not_or.mp (mt List.mem_cons.mpr hb)
      rw [List.cons_append, blank, if_neg (Ne.symm hc), ih hb]
  induction h with
  | nil => exact ⟨[], fun c hc => (nomatch hc), fun cs => rfl⟩
  | @space c t hc _ ih =>
    obtain ⟨t', ht', heq⟩ := ih
    have hsemi : c ≠ ';' := by
      rintro rfl
      exact absurd hc (by decide)
    refine ⟨c :: t', List.forall_mem_cons.mpr ⟨hc, ht'⟩, fun cs => ?_⟩
    rw [List.cons_append, blank, if_neg hsemi, heq]
    rfl
  | @comment body t hb _ ih =>
    obtain ⟨t', ht', heq⟩ := ih
    refine ⟨'\n' :: t', List.forall_mem_cons.mpr ⟨by decide, ht'⟩, fun cs => ?_⟩
    rw [List.cons_append, blank, if_pos rfl, List.append_assoc, List.cons_append, hcomment hb, heq]
    rfl

theorem token_blank {w : List Char} (h : ∀ c ∈ w, isDelimiter c = false) (cs : List Char) :
    blank false (w ++ cs) = w ++ blank false cs := by
  induction w with
  | nil => rfl
  | cons c w ih =>
    obtain ⟨hc, hw⟩ := List.forall_mem_cons.mp h
    have hsemi : c ≠ ';' := by
      rintro rfl
      exact absurd hc (by decide)
    rw [List.cons_append, blank, if_neg hsemi, ih hw]
    rfl

theorem endsToken_blank {cs : List Char} (h : EndsToken cs) : EndsToken (blank false cs) := by
  have hcomment : ∀ cs, EndsToken (blank true cs) := by
    intro cs
    induction cs with
    | nil => exact fun c hc => (nomatch hc)
    | cons c cs ih =>
      rw [blank]
      split
      · intro d hd
        cases hd
        decide
      · exact ih
  cases cs with
  | nil => exact fun c hc => (nomatch hc)
  | cons c cs =>
    rw [blank]
    split
    · exact hcomment cs
    · exact h

/-- What is read off a text has its tokens, whatever text follows. -/
theorem reads_toks {text : List Char} {ds : List Datum} (h : Reads text ds) :
    ∀ rest, EndsToken rest →
      toks (blank false (text ++ rest)) = itemToks ds ++ toks (blank false rest) := by
  induction h with
  | done ht =>
    intro rest _
    obtain ⟨t', ht', heq⟩ := trivia_blank ht
    rw [heq, toks_spaces ht']
    rfl
  | @atom t w more ds ht hw hends _ ih =>
    intro rest hrest
    obtain ⟨t', ht', heq⟩ := trivia_blank ht
    have hmore : EndsToken (more ++ rest) := by
      cases more with
      | nil => exact hrest
      | cons c more => exact hends
    rw [List.append_assoc, List.append_assoc, heq, toks_spaces ht', token_blank hw.2,
      toks_token hw (endsToken_blank hmore), ih rest hrest, itemToks, Datum.toks,
      String.toList_ofList]
    rfl
  | @list t inner more items ds ht _ _ ih1 ih2 =>
    intro rest hrest
    obtain ⟨t', ht', heq⟩ := trivia_blank ht
    have hclose : EndsToken (')' :: (more ++ rest)) := by
      intro c hc
      cases hc
      decide
    have hin := ih1 (')' :: (more ++ rest)) hclose
    rw [show t ++ '(' :: (inner ++ ')' :: more) ++ rest =
      t ++ '(' :: (inner ++ ')' :: (more ++ rest)) by simp]
    rw [heq, toks_spaces ht', blank, if_neg (by decide), toks_opening, hin, blank,
      if_neg (by decide), toks_closing, ih2 rest hrest, itemToks, Datum.toks]
    simp

/-- A balanced text has the tokens of its data. -/
theorem balanced_toks {text : List Char} {ds : List Datum} (h : Balanced text ds) :
    toks (blank false text) = itemToks ds := by
  obtain ⟨body, tail, rfl, hreads, hl⟩ := h
  rw [reads_toks hreads tail hl.endsToken]
  rcases hl with rfl | ⟨c, rfl, hc⟩
  · exact List.append_nil _
  · have hnone : blank true c = [] := by
      induction c with
      | nil => rfl
      | cons d c ih =>
        obtain ⟨hd, hc⟩ := not_or.mp (mt List.mem_cons.mpr hc)
        rw [blank, if_neg (Ne.symm hd), ih hc]
    rw [blank, if_pos rfl, hnone]
    exact List.append_nil _

theorem clean_blank {p : List Char} (h : Clean p) : blank false p = p := by
  induction p with
  | nil => rfl
  | cons c p ih =>
    have hc : c ≠ ';' := fun hc => h (hc ▸ List.mem_cons_self ..)
    rw [blank, if_neg hc, ih h.of_cons]

mutual

/-- A text that starts with the tokens of a datum is read as that datum and its rest. -/
theorem toks_reads : (d : Datum) → ∀ p ts, Clean p → toks p = d.toks ++ ts →
    ∃ w rest, p = w ++ rest ∧ toks rest = ts ∧
      ∀ ds, Reads rest ds → Reads (w ++ rest) (d.erase :: ds)
  | .atom text line, p, ts, hp, h => by
    rw [Datum.toks, List.singleton_append] at h
    rcases clean_cases hp with hs | ⟨t, q, ht, rfl | rfl | ⟨w, rfl, hw, hq⟩⟩
    · rw [← List.append_nil p, toks_spaces hs] at h
      cases h
    · rw [toks_spaces ht, toks_opening] at h
      cases h
    · rw [toks_spaces ht, toks_closing] at h
      cases h
    · rw [toks_spaces ht, toks_token hw hq] at h
      obtain ⟨hatom, hrest⟩ := List.cons_eq_cons.mp h
      refine ⟨t ++ w, q, (List.append_assoc ..).symm, hrest, fun ds hds => ?_⟩
      have hread := Reads.atom (spaces_trivia ht) hw hq hds
      rwa [Tok.atom.inj hatom, String.ofList_toList, ← Tok.atom.inj hatom,
        ← List.append_assoc] at hread
  | .list items line, p, ts, hp, h => by
    rw [Datum.toks, List.cons_append, List.append_assoc, List.singleton_append] at h
    rcases clean_cases hp with hs | ⟨t, q, ht, rfl | rfl | ⟨w, rfl, hw, hq⟩⟩
    · rw [← List.append_nil p, toks_spaces hs] at h
      cases h
    · rw [toks_spaces ht, toks_opening] at h
      have hq : Clean q := hp.of_append.2.of_cons
      obtain ⟨inner, rest, rfl, hin, hrest⟩ := toks_split hq (List.cons_eq_cons.mp h).2
      have hitems := itemToks_reads items inner hq.of_append.1 hin
      refine ⟨t ++ '(' :: (inner ++ [')']), rest, by simp, hrest, fun ds hds => ?_⟩
      have hread := Reads.list (spaces_trivia ht) hitems hds
      rw [Datum.erase]
      simpa using hread
    · rw [toks_spaces ht, toks_closing] at h
      cases h
    · rw [toks_spaces ht, toks_token hw hq] at h
      cases h

/-- A text with the tokens of data is read as these data. -/
theorem itemToks_reads : (ds : List Datum) → ∀ p, Clean p → toks p = itemToks ds →
    Reads p (eraseItems ds)
  | [], p, hp, h => by
    rcases clean_cases hp with hs | ⟨t, q, ht, rfl | rfl | ⟨w, rfl, hw, hq⟩⟩
    · exact .done (spaces_trivia hs)
    · rw [toks_spaces ht, toks_opening] at h
      cases h
    · rw [toks_spaces ht, toks_closing] at h
      cases h
    · rw [toks_spaces ht, toks_token hw hq] at h
      cases h
  | d :: ds, p, hp, h => by
    rw [itemToks] at h
    obtain ⟨w, rest, rfl, hrest, hread⟩ := toks_reads d p _ hp h
    exact hread _ (itemToks_reads ds rest hp.of_append.2 hrest)

end

/-- The parser reads a text without comments as the data whose tokens it has. -/
theorem parse_clean {p : List Char} {ds : List Datum} (hp : Clean p)
    (h : toks p = itemToks ds) : ∃ forms, parse p = .ok forms ∧ forms.map Datum.erase =
      ds.map Datum.erase := by
  refine (parse_eq_ok_iff p _).mpr ⟨p, [], (List.append_nil p).symm, ?_, .inl rfl⟩
  rw [← eraseItems_eq]
  exact itemToks_reads ds p hp h

/-! ## Balance -/

def Tok.weight : Tok → Int
  | .opening => 1
  | .closing => -1
  | .atom _ => 0

/-- How many parentheses are opened and not closed. -/
def depth (ts : List Tok) : Int := (ts.map Tok.weight).sum

@[simp] theorem depth_nil : depth [] = 0 := rfl

@[simp] theorem depth_cons (t : Tok) (ts : List Tok) : depth (t :: ts) = t.weight + depth ts := by
  simp [depth]

@[simp] theorem depth_append (us ts : List Tok) : depth (us ++ ts) = depth us + depth ts := by
  simp [depth]

def parenWeight (c : Char) : Int := if c = '(' then 1 else if c = ')' then -1 else 0

/-- The same count over the characters of a text. -/
def parens (cs : List Char) : Int := (cs.map parenWeight).sum

@[simp] theorem parens_nil : parens [] = 0 := rfl

@[simp] theorem parens_append (cs ds : List Char) : parens (cs ++ ds) = parens cs + parens ds := by
  simp [parens]

@[simp] theorem parens_singleton (c : Char) : parens [c] = parenWeight c := by
  simp [parens]

theorem depth_continueToken (c : Char) (joined : Bool) (ts : List Tok) :
    depth (continueToken c joined ts) = depth ts := by
  unfold continueToken
  split <;> simp [Tok.weight]

theorem depth_toks (cs : List Char) : depth (toks cs) = parens cs := by
  induction cs with
  | nil => rfl
  | cons c cs ih =>
    rw [← List.singleton_append, parens_append, parens_singleton, ← ih, List.singleton_append,
      toks, parenWeight]
    split
    · rfl
    split
    · rfl
    split
    · exact (Int.zero_add _).symm
    · rw [depth_continueToken, Int.zero_add]

mutual

/-- A datum closes what it opens, and only at its end. -/
theorem depth_datum : (d : Datum) → depth d.toks = 0 ∧ ∀ u v, d.toks = u ++ v → u ≠ [] → v ≠ [] →
    0 < depth u
  | .atom text line => by
    refine ⟨rfl, fun u v h hu hv => ?_⟩
    have hlen := congrArg List.length h
    have h1 := List.length_pos_iff.mpr hu
    have h2 := List.length_pos_iff.mpr hv
    rw [Datum.toks, List.length_append, List.length_singleton] at hlen
    omega
  | .list items line => by
    obtain ⟨hzero, hprefix⟩ := depth_items items
    refine ⟨by simp [Datum.toks, Tok.weight, hzero], fun u v h hu hv => ?_⟩
    obtain ⟨x, u, rfl⟩ := List.exists_cons_of_ne_nil hu
    rw [Datum.toks, List.cons_append] at h
    obtain ⟨rfl, hrest⟩ := List.cons_eq_cons.mp h
    have hle : 0 ≤ depth u := by
      rcases List.append_eq_append_iff.mp hrest with ⟨w, hu, hw⟩ | ⟨w, hu, hw⟩
      · rw [List.singleton_eq_append_iff] at hw
        rcases hw with ⟨rfl, -⟩ | ⟨-, rfl⟩
        · rw [hu, List.append_nil, hzero]
        · exact absurd rfl hv
      · exact hprefix u w hu
    rw [depth_cons]
    exact Int.add_pos_of_pos_of_nonneg (by decide) hle

theorem depth_items : (ds : List Datum) → depth (itemToks ds) = 0 ∧
    ∀ u v, itemToks ds = u ++ v → 0 ≤ depth u
  | [] => by
    refine ⟨rfl, fun u v h => ?_⟩
    rw [(List.append_eq_nil_iff.mp h.symm).1]
    exact Int.le_refl _
  | d :: ds => by
    obtain ⟨hd, hpd⟩ := depth_datum d
    obtain ⟨hds, hpds⟩ := depth_items ds
    refine ⟨by rw [itemToks, depth_append, hd, hds, Int.add_zero], fun u v h => ?_⟩
    rw [itemToks] at h
    rcases List.append_eq_append_iff.mp h with ⟨w, rfl, hw⟩ | ⟨w, hw, -⟩
    · rw [depth_append, hd, Int.zero_add]
      exact hpds w v hw
    · cases u with
      | nil => exact Int.le_refl _
      | cons x u =>
        cases w with
        | nil =>
          rw [List.append_nil] at hw
          rw [← hw, hd]
        | cons y w => exact (hpd _ _ hw (List.cons_ne_nil _ _) (List.cons_ne_nil _ _)).le

end

/-- Where the parentheses balance the data fall apart. -/
theorem itemToks_split {ds : List Datum} : ∀ {u v : List Tok}, itemToks ds = u ++ v →
    depth u = 0 → ∃ es fs, ds = es ++ fs ∧ itemToks es = u ∧ itemToks fs = v := by
  induction ds with
  | nil =>
    intro u v h hu
    obtain ⟨rfl, rfl⟩ := List.append_eq_nil_iff.mp h.symm
    exact ⟨[], [], rfl, rfl, rfl⟩
  | cons d ds ih =>
    intro u v h hu
    cases u with
    | nil => exact ⟨[], d :: ds, rfl, rfl, h⟩
    | cons x u =>
      obtain ⟨hd, hpd⟩ := depth_datum d
      rw [itemToks] at h
      rcases List.append_eq_append_iff.mp h with ⟨w, hw, hrest⟩ | ⟨w, hw, hrest⟩
      · rw [hw, depth_append, hd, Int.zero_add] at hu
        obtain ⟨es, fs, rfl, hes, hfs⟩ := ih hrest hu
        refine ⟨d :: es, fs, rfl, ?_, hfs⟩
        rw [itemToks, hes, hw]
      · cases w with
        | nil =>
          rw [List.append_nil] at hw
          refine ⟨[d], ds, rfl, ?_, hrest.symm⟩
          rw [itemToks, itemToks, List.append_nil, hw]
        | cons y w =>
          exact absurd hu (hpd _ _ hw (List.cons_ne_nil _ _) (List.cons_ne_nil _ _)).ne'

end LibHSC.Surface
