import LibHSC.Surface.Numerals

/-!
What an emitted text spells: one datum, or a list of lines. The texts are put
together as an emitter prints them, with a blank before every item of a list; what
they read to is put together the same way.
-/

namespace LibHSC.Surface

/-! ## Concatenation -/

theorem Trivia.append {t u : List Char} (ht : Trivia t) (hu : Trivia u) : Trivia (t ++ u) := by
  induction ht with
  | nil => exact hu
  | space hc _ ih => exact .space hc ih
  | comment hb _ ih => simpa using Trivia.comment hb ih

theorem Reads.after {t text : List Char} {ds : List Datum} (ht : Trivia t) (h : Reads text ds) :
    Reads (t ++ text) ds := by
  cases h with
  | done h => exact .done (ht.append h)
  | atom h hw he hr => simpa using Reads.atom (ht.append h) hw he hr
  | list h hi hr => simpa using Reads.list (ht.append h) hi hr

theorem EndsToken.append {a b : List Char} (ha : EndsToken a) (hb : EndsToken b) :
    EndsToken (a ++ b) := by
  cases a with
  | nil => exact hb
  | cons c cs => exact ha

/-- Two texts one after the other, if the second cannot continue a token. -/
theorem Reads.append {a b : List Char} {ds es : List Datum} (ha : Reads a ds) (hb : Reads b es)
    (he : EndsToken b) : Reads (a ++ b) (ds ++ es) := by
  induction ha with
  | done ht => exact hb.after ht
  | atom ht hw hr _ ih => simpa using Reads.atom ht hw (hr.append he) ih
  | list ht hi _ _ ih => simpa using Reads.list ht hi ih

/-! ## One datum -/

/-- The text reads as one datum. -/
def Spells (text : String) (d : Datum) : Prop := Reads text.toList [d]

/-- A list as it is printed: its head, then a blank before every other item. -/
def form (head : String) (kids : List String) : String :=
  "(" ++ head ++ String.join (kids.map (" " ++ ·)) ++ ")"

/-- A text without a delimiter. -/
def tokenText (s : String) : Bool := !s.toList.isEmpty && s.toList.all fun c => !isDelimiter c

theorem isToken_of_text {s : String} (h : tokenText s = true) : IsToken s.toList := by
  simp only [tokenText, Bool.and_eq_true, Bool.not_eq_true', List.all_eq_true,
    List.isEmpty_eq_false_iff] at h
  exact h

theorem Spells.atom {s : String} (h : IsToken s.toList) : Spells s (.atom s 0) := by
  have hend : EndsToken [] := by simp [EndsToken]
  have := Reads.atom .nil h hend (.done .nil)
  simpa [Spells] using this

theorem Spells.num (v : Int) : Spells (toString v) (.atom (toString v) 0) :=
  .atom (isToken_toString v)

theorem join_blanks_endsToken (kids : List String) :
    EndsToken (String.join (kids.map (" " ++ ·))).toList := by
  cases kids with
  | nil => simp [EndsToken]
  | cons k ks =>
    intro c hc
    simp only [List.map_cons, String.join_cons, String.toList_append] at hc
    cases hc
    decide

theorem Reads.blanks {kids : List String} {ds : List Datum} (h : List.Forall₂ Spells kids ds) :
    Reads (String.join (kids.map (" " ++ ·))).toList ds := by
  induction h with
  | nil => simpa using Reads.done .nil
  | @cons k d ks ds hk _ ih =>
    have hblank : Trivia " ".toList := trivia_singleton (by decide)
    have := (hk.after hblank).append ih (join_blanks_endsToken ks)
    simpa using this

theorem Spells.form {head : String} {kids : List String} {ds : List Datum}
    (hh : IsToken head.toList) (h : List.Forall₂ Spells kids ds) :
    Spells (form head kids) (.list (.atom head 0 :: ds) 0) := by
  have hin := (Spells.atom hh).append (Reads.blanks h) (join_blanks_endsToken kids)
  have hend : Reads [] [] := .done .nil
  have := Reads.list .nil hin hend
  simpa [Spells, Surface.form] using this

/-! ## Lines -/

/-- The lines of a text, each ended by its newline. -/
def ofLines (lines : List String) : String := String.join (lines.map (· ++ "\n"))

/-- A comment line. -/
def comment (body : String) : String := ";" ++ body

/-- What the lines read to. -/
def Lines (lines : List String) (ds : List Datum) : Prop := Reads (ofLines lines).toList ds

theorem Lines.nil : Lines [] [] := by
  simpa [Lines, ofLines] using Reads.done .nil

theorem Lines.comment {body : String} {lines : List String} {ds : List Datum}
    (hb : '\n' ∉ body.toList) (h : Lines lines ds) : Lines (comment body :: lines) ds := by
  have := h.after (.comment hb .nil)
  simpa [Lines, ofLines, Surface.comment] using this

theorem Lines.cons {text : String} {d : Datum} {lines : List String} {ds : List Datum}
    (ht : Spells text d) (h : Lines lines ds) : Lines (text :: lines) (d :: ds) := by
  have hrest : Reads ('\n' :: (ofLines lines).toList) ds :=
    h.after (trivia_singleton (by decide))
  have hends : EndsToken ('\n' :: (ofLines lines).toList) := by
    intro c hc
    cases hc
    decide
  have := Reads.append ht hrest hends
  simpa [Lines, ofLines] using this

theorem Lines.forms {texts : List String} {es : List Datum} (h : List.Forall₂ Spells texts es)
    {lines : List String} {ds : List Datum} (hl : Lines lines ds) :
    Lines (texts ++ lines) (es ++ ds) := by
  induction h with
  | nil => exact hl
  | cons ht _ ih => exact .cons ht ih

/-- The lines are read, up to the numbers of the lines. -/
theorem Lines.parse {lines : List String} {ds : List Datum} (h : Lines lines ds) :
    ∃ forms, Surface.parse (ofLines lines).toList = .ok forms ∧ forms.map Datum.erase = ds :=
  (parse_eq_ok_iff _ _).mpr ⟨_, [], by simp, h, .inl rfl⟩

/-! ## Data up to their lines -/

theorem erase_eq_atom {d : Datum} {s : String} : d.erase = .atom s 0 ↔ ∃ n, d = .atom s n := by
  cases d with
  | atom t n => simp [Datum.erase]
  | list items n => simp [Datum.erase]

theorem erase_eq_list {d : Datum} {ds : List Datum} :
    d.erase = .list ds 0 ↔ ∃ items n, d = .list items n ∧ items.map Datum.erase = ds := by
  cases d with
  | atom t n => simp [Datum.erase]
  | list items n => simp [Datum.erase, eraseItems_eq]

theorem map_erase_eq_cons {items : List Datum} {d : Datum} {ds : List Datum} :
    items.map Datum.erase = d :: ds ↔
      ∃ x xs, items = x :: xs ∧ x.erase = d ∧ xs.map Datum.erase = ds :=
  List.map_eq_cons_iff

/-- A list with an atom at its head. -/
theorem erase_eq_form {d : Datum} {head : String} {ds : List Datum} :
    d.erase = .list (.atom head 0 :: ds) 0 ↔
      ∃ l xs n, d = .list (.atom head l :: xs) n ∧ xs.map Datum.erase = ds := by
  rw [erase_eq_list]
  constructor
  · rintro ⟨items, n, rfl, h⟩
    obtain ⟨x, xs, rfl, hx, hxs⟩ := map_erase_eq_cons.mp h
    obtain ⟨l, rfl⟩ := erase_eq_atom.mp hx
    exact ⟨l, xs, n, rfl, hxs⟩
  · rintro ⟨l, xs, n, rfl, h⟩
    exact ⟨_, n, rfl, by simp [Datum.erase, h]⟩

theorem map_erase_forall₂ {α : Type} {f : α → Datum} {xs : List α} {items : List Datum}
    (h : items.map Datum.erase = xs.map f) :
    List.Forall₂ (fun d x => d.erase = f x) items xs := by
  have := List.forall₂_eq_eq_eq (α := Datum) ▸ h
  rw [List.forall₂_map_left_iff, List.forall₂_map_right_iff] at this
  exact this

theorem mapM_forall₂_ok {α β γ : Type} {f : α → Except γ β} {xs : List α} {ys : List β}
    (h : List.Forall₂ (fun x y => f x = .ok y) xs ys) : xs.mapM f = .ok ys := by
  induction h with
  | nil => rfl
  | cons hx _ ih =>
    rw [List.mapM_cons, hx, ih]
    rfl

/-- A text of one datum is read, up to the numbers of the lines. -/
theorem Spells.parse {text : String} {d : Datum} (h : Spells text d) :
    ∃ d', Surface.parse text.toList = .ok [d'] ∧ d'.erase = d := by
  obtain ⟨forms, hforms, herase⟩ := (parse_eq_ok_iff text.toList [d]).mpr
    ⟨_, [], (List.append_nil _).symm, h, .inl rfl⟩
  obtain ⟨d', rest, rfl, hd', hrest⟩ := map_erase_eq_cons.mp herase
  obtain rfl := List.map_eq_nil_iff.mp hrest
  exact ⟨d', hforms, hd'⟩

end LibHSC.Surface
