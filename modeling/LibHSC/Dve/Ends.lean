import LibHSC.Dve.Parser

/-!
The parser ends on every text. No part of it leaves more to read than it found, and every
round of a loop takes a token.
-/

namespace LibHSC.Dve

/-- The part is not out of fuel, and leaves at most `n` to read. -/
def Safe {α : Type} (n : Nat) (r : Except ParseError (α × Lexer)) : Prop :=
  r ≠ .error .outOfFuel ∧ ∀ a lx, r = .ok (a, lx) → lx.left ≤ n

/-- And less than `n`. -/
def Eats {α : Type} (n : Nat) (r : Except ParseError (α × Lexer)) : Prop :=
  r ≠ .error .outOfFuel ∧ ∀ a lx, r = .ok (a, lx) → lx.left < n

section Rules

variable {α β : Type} {n m : Nat} {r : Except ParseError (α × Lexer)}
  {f : α × Lexer → Except ParseError (β × Lexer)}

theorem Eats.safe (h : Eats n r) : Safe n r := ⟨h.1, fun a lx he => Nat.le_of_lt (h.2 a lx he)⟩

theorem Safe.mono (h : Safe n r) (hle : n ≤ m) : Safe m r :=
  ⟨h.1, fun a lx he => (h.2 a lx he).trans hle⟩

theorem safe_ok {a : α} {lx : Lexer} (h : lx.left ≤ n) : Safe n (.ok (a, lx)) :=
  ⟨fun he => (nomatch he), fun a' lx' he => by
    cases he
    exact h⟩

theorem safe_error {line : Nat} {what : String} :
    Safe n (.error (.syntaxError line what) : Except ParseError (α × Lexer)) :=
  ⟨fun he => (nomatch he), fun _ _ he => (nomatch he)⟩

theorem eats_error {line : Nat} {what : String} :
    Eats n (.error (.syntaxError line what) : Except ParseError (α × Lexer)) :=
  ⟨fun he => (nomatch he), fun _ _ he => (nomatch he)⟩

theorem bind_ne_outOfFuel (hr : r ≠ .error .outOfFuel)
    (hf : ∀ a lx, r = .ok (a, lx) → f (a, lx) ≠ .error .outOfFuel) :
    (r >>= f) ≠ .error .outOfFuel := by
  intro h
  rcases bind_eq_error.mp h with h | ⟨⟨a, lx⟩, ha, h⟩
  · exact hr h
  · exact hf a lx ha h

theorem Safe.bind (hr : Safe n r) (hf : ∀ a lx, lx.left ≤ n → Safe n (f (a, lx))) :
    Safe n (r >>= f) := by
  refine ⟨bind_ne_outOfFuel hr.1 fun a lx he => (hf a lx (hr.2 a lx he)).1, fun b lx he => ?_⟩
  obtain ⟨⟨a, lx1⟩, ha, hb⟩ := bind_eq_ok.mp he
  exact (hf a lx1 (hr.2 a lx1 ha)).2 b lx hb

/-- A part that eats first eats. -/
theorem Eats.bind (hr : Eats n r) (hf : ∀ a lx, lx.left < n → Safe lx.left (f (a, lx))) :
    Eats n (r >>= f) := by
  refine ⟨bind_ne_outOfFuel hr.1 fun a lx he => (hf a lx (hr.2 a lx he)).1, fun b lx he => ?_⟩
  obtain ⟨⟨a, lx1⟩, ha, hb⟩ := bind_eq_ok.mp he
  have hlt := hr.2 a lx1 ha
  exact ((hf a lx1 hlt).2 b lx hb).trans_lt hlt

end Rules

/-! ## Tokens -/

section Tokens

variable {lx : Lexer}

theorem take_safe (lx : Lexer) : Safe lx.left lx.take :=
  ⟨take_ne_outOfFuel, fun _ _ h => (take_spec h).2.2.1⟩

theorem take_eats (h : lx.cur.kind ≠ .fin) : Eats lx.left lx.take :=
  ⟨take_ne_outOfFuel, fun _ _ he => (take_spec he).2.2.2 h⟩

/-- A part that starts with a token fails at the end of the text, or eats. -/
theorem take_bind_eats {α : Type} {f : Token × Lexer → Except ParseError (α × Lexer)}
    (hfin : lx.cur.kind = .fin → ∀ lx1, Eats lx.left (f (lx.cur, lx1)))
    (hf : ∀ t lx1, lx1.left < lx.left → Safe lx1.left (f (t, lx1))) :
    Eats lx.left (lx.take >>= f) := by
  by_cases hk : lx.cur.kind = .fin
  · refine ⟨bind_ne_outOfFuel (take_safe lx).1 fun t lx1 ht => ?_, fun a lx1 he => ?_⟩
    · rw [(take_spec ht).1]
      exact (hfin hk lx1).1
    · obtain ⟨⟨t, lx2⟩, ht, he⟩ := bind_eq_ok.mp he
      rw [(take_spec ht).1] at he
      exact (hfin hk lx2).2 a lx1 he
  · exact (take_eats hk).bind hf

theorem expect_eats (p : String) (lx : Lexer) : Eats lx.left (expect p lx) := by
  refine take_bind_eats (fun hk lx1 => ?_) fun t lx1 _ => ?_
  · dsimp only
    rw [if_pos (.inl (by rw [hk]; decide))]
    exact eats_error
  · dsimp only
    split
    · exact safe_error
    · exact safe_ok le_rfl

theorem expectId_eats (kw : String) (lx : Lexer) : Eats lx.left (expectId kw lx) := by
  refine take_bind_eats (fun hk lx1 => ?_) fun t lx1 _ => ?_
  · dsimp only
    rw [if_pos (.inl (by rw [hk]; decide))]
    exact eats_error
  · dsimp only
    split
    · exact safe_error
    · exact safe_ok le_rfl

theorem ident_eats (what : String) (lx : Lexer) : Eats lx.left (ident what lx) := by
  refine take_bind_eats (fun hk lx1 => ?_) fun t lx1 _ => ?_
  · dsimp only
    rw [if_pos (by rw [hk]; decide)]
    exact eats_error
  · dsimp only
    split
    · exact safe_error
    · exact safe_ok le_rfl

/-- What is eaten is gone. -/
theorem eat_spec (p : String) (lx : Lexer) : eat p lx ≠ .error .outOfFuel ∧
    ∀ b lx1, eat p lx = .ok (b, lx1) →
      lx1.left ≤ lx.left ∧ (b = true → lx1.left < lx.left) ∧ (b = false → lx1 = lx) := by
  unfold eat
  split
  · next h =>
    have hk : lx.cur.kind ≠ .fin := by
      have hp : lx.cur.kind = .punct := by
        simpa using ((Bool.and_eq_true _ _).mp h).1
      rw [hp]
      decide
    refine ⟨bind_ne_outOfFuel (take_safe lx).1 fun t lx1 _ he => (nomatch he), fun b lx1 he => ?_⟩
    obtain ⟨⟨t, lx2⟩, ht, he⟩ := bind_eq_ok.mp he
    cases he
    have hlt := (take_eats hk).2 t _ ht
    exact ⟨hlt.le, fun _ => hlt, fun hb => (nomatch hb)⟩
  · refine ⟨fun he => (nomatch he), fun b lx1 he => ?_⟩
    cases he
    exact ⟨Nat.le_refl _, fun hb => (nomatch hb), fun _ => rfl⟩

theorem eat_safe (p : String) (lx : Lexer) : Safe lx.left (eat p lx) :=
  ⟨(eat_spec p lx).1, fun b lx1 he => ((eat_spec p lx).2 b lx1 he).1⟩

theorem eatId_safe (kw : String) (lx : Lexer) : Safe lx.left (eatId kw lx) := by
  unfold eatId
  split
  · exact (take_safe lx).bind fun t lx1 h => safe_ok h
  · exact safe_ok le_rfl

theorem peekOp_not_fin {tier : Nat} {t : Token} {op : Eop} (h : peekOp tier t = some op) :
    t.kind ≠ .fin := by
  intro hk
  unfold peekOp at h
  split at h <;> simp [hk] at h

theorem prefixOp_not_fin {t : Token} {op : Eop} (h : prefixOp t = some op) : t.kind ≠ .fin := by
  intro hk
  simp [prefixOp, hk] at h

end Tokens

/-! ## Expressions -/

/-- The four parts of the expression parser, each with the fuel it needs. By induction on
the fuel: what they call has less to read, or stands later in the descent of the tiers. -/
theorem expr_ends (fuel : Nat) :
    (∀ tier lx, tier ≤ 6 → 10 * lx.left + 9 ≤ fuel + tier → Eats lx.left (parseTier fuel tier lx)) ∧
    (∀ tier l lx, tier ≤ 5 → 10 * lx.left + 1 ≤ fuel → Safe lx.left (parseRest fuel tier l lx)) ∧
    (∀ lx, 10 * lx.left + 2 ≤ fuel → Eats lx.left (parsePrefixed fuel lx)) ∧
    (∀ lx, 10 * lx.left + 1 ≤ fuel → Eats lx.left (parseAtom fuel lx)) := by
  induction fuel with
  | zero =>
    refine ⟨fun tier lx h h' => ?_, fun tier l lx h h' => ?_, fun lx h => ?_, fun lx h => ?_⟩
    · omega
    · omega
    · omega
    · omega
  | succ fuel ih =>
    obtain ⟨htier, hrest, hprefixed, hatom⟩ := ih
    refine ⟨fun tier lx h hf => ?_, fun tier l lx h hf => ?_, fun lx hf => ?_, fun lx hf => ?_⟩
    · rw [parseTier]
      split
      · exact hprefixed lx (by omega)
      · refine (htier (tier + 1) lx (by omega) (by omega)).bind fun l lx1 hlt => ?_
        exact hrest tier l lx1 (by omega) (by omega)
    · rw [parseRest]
      split
      · exact safe_ok le_rfl
      · next op hop =>
        refine Eats.safe ((take_eats (peekOp_not_fin hop)).bind fun t lx1 hlt => ?_)
        refine Eats.safe ((htier (tier + 1) lx1 (by omega) (by omega)).bind fun r lx2 hlt2 => ?_)
        exact hrest tier _ lx2 h (by omega)
    · rw [parsePrefixed]
      split
      · next op hop =>
        refine (take_eats (prefixOp_not_fin hop)).bind fun t lx1 hlt => ?_
        refine Eats.safe ((hprefixed lx1 (by omega)).bind fun a lx2 _ => ?_)
        exact safe_ok le_rfl
      · exact hatom lx (by omega)
    · rw [parseAtom]
      refine take_bind_eats (fun hk lx1 => ?_) fun t lx1 hlt => ?_
      · simp only [hk, reduceCtorEq, false_and, if_false]
        exact eats_error
      · dsimp only
        split
        · refine Eats.safe ((htier 0 lx1 (by omega) (by omega)).bind fun e lx2 _ => ?_)
          refine Eats.safe ((expect_eats ")" lx2).bind fun _ lx3 _ => ?_)
          exact safe_ok le_rfl
        split
        · exact safe_ok le_rfl
        split
        · split
          · exact safe_ok le_rfl
          · refine (eat_safe "[" lx1).bind fun b lx2 hle => ?_
            dsimp only
            split
            · refine Safe.mono (Eats.safe ((htier 0 lx2 (by omega) (by omega)).bind
                fun e lx3 _ => ?_)) hle
              refine Eats.safe ((expect_eats "]" lx3).bind fun _ lx4 _ => ?_)
              exact safe_ok le_rfl
            · refine Safe.mono ((eat_safe "." lx2).bind fun d lx3 hle3 => ?_) hle
              dsimp only
              split
              · refine Safe.mono (Eats.safe ((ident_eats "a state name" lx3).bind
                  fun f lx4 _ => ?_)) hle3
                exact safe_ok le_rfl
              · exact safe_ok hle3
        · exact safe_error

/-! ## The declarations -/

section Declarations

variable {fuel b : Nat} (hb : 10 * b + 20 ≤ fuel)

/-- A list of items ends within as many rounds as there is left to read. -/
theorem commaList_eats {α : Type} {item : Lexer → Except ParseError (α × Lexer)}
    (hitem : ∀ lx, lx.left ≤ b → Eats lx.left (item lx)) {n : Nat} : ∀ {lx : Lexer},
    lx.left ≤ b → lx.left < n → Eats lx.left (commaList item n lx) := by
  induction n with
  | zero => exact fun _ h => absurd h (Nat.not_lt_zero _)
  | succ n ih =>
    intro lx hle hlt
    rw [commaList]
    refine (hitem lx hle).bind fun x lx1 hlt1 => ?_
    refine (eat_safe "," lx1).bind fun more lx2 hle2 => ?_
    dsimp only
    split
    · refine Safe.mono (Eats.safe ((ih (by omega) (by omega)).bind fun xs lx3 _ => ?_)) hle2
      exact safe_ok le_rfl
    · exact safe_ok hle2

include hb

theorem parseExpr_eats {lx : Lexer} (h : lx.left ≤ b) : Eats lx.left (parseExpr fuel lx) :=
  (expr_ends fuel).1 0 lx (Nat.zero_le _) (by omega)

theorem list_eats {α : Type} {item : Lexer → Except ParseError (α × Lexer)}
    (hitem : ∀ lx, lx.left ≤ b → Eats lx.left (item lx)) {lx : Lexer} (h : lx.left ≤ b) :
    Eats lx.left (commaList item fuel lx) := commaList_eats hitem h (by omega)

theorem parseConst_eats {lx : Lexer} (h : lx.left ≤ b) : Eats lx.left (parseConst fuel lx) := by
  refine (ident_eats _ lx).bind fun name lx1 h1 => ?_
  refine Eats.safe ((expect_eats _ lx1).bind fun _ lx2 h2 => ?_)
  refine Eats.safe ((parseExpr_eats hb (by omega)).bind fun e lx3 _ => ?_)
  exact safe_ok le_rfl

theorem parseConsts_eats {lx : Lexer} (h : lx.left ≤ b) :
    Eats lx.left (parseConsts fuel lx) := by
  refine (expectId_eats _ lx).bind fun _ lx1 h1 => ?_
  refine (take_safe lx1).bind fun ty lx2 h2 => ?_
  dsimp only
  split
  · exact safe_error
  · refine Safe.mono (Eats.safe ((list_eats hb (fun lx h => parseConst_eats hb h)
      (by omega)).bind fun out lx3 _ => ?_)) h2
    refine Eats.safe ((expect_eats _ lx3).bind fun _ lx4 _ => ?_)
    exact safe_ok le_rfl

theorem parseCells_safe (v : VarDecl) {lx : Lexer} (h : lx.left ≤ b) :
    Safe lx.left (parseCells fuel v lx) := by
  refine (take_safe lx).bind fun n lx1 h1 => ?_
  dsimp only
  split
  · exact safe_error
  · refine Safe.mono (Eats.safe ((expect_eats _ lx1).bind fun _ lx2 h2 => ?_)) h1
    refine (eat_safe _ lx2).bind fun inits lx3 h3 => ?_
    dsimp only
    split
    · refine Safe.mono (Eats.safe ((expect_eats _ lx3).bind fun _ lx4 h4 => ?_)) h3
      refine Eats.safe ((list_eats hb (fun lx h => parseExpr_eats hb h)
        (by omega)).bind fun xs lx5 _ => ?_)
      refine Eats.safe ((expect_eats _ lx5).bind fun _ lx6 _ => ?_)
      exact safe_ok le_rfl
    · exact safe_ok h3

theorem parseVar_eats (isByte : Bool) {lx : Lexer} (h : lx.left ≤ b) :
    Eats lx.left (parseVar fuel isByte lx) := by
  refine (ident_eats _ lx).bind fun name lx1 h1 => ?_
  refine (eat_safe _ lx1).bind fun bracket lx2 h2 => ?_
  dsimp only
  split
  · exact (parseCells_safe hb _ (by omega)).mono h2
  · refine Safe.mono ((eat_safe _ lx2).bind fun inits lx3 h3 => ?_) h2
    dsimp only
    split
    · refine Safe.mono (Eats.safe ((parseExpr_eats hb (by omega)).bind fun e lx4 _ => ?_)) h3
      exact safe_ok le_rfl
    · exact safe_ok h3

/-- The type of a variable is a token that is there. -/
theorem parseVars_eats {lx : Lexer} (h : lx.left ≤ b) (hk : lx.cur.kind = .id) :
    Eats lx.left (parseVars fuel lx) := by
  refine (take_eats (by rw [hk]; decide)).bind fun ty lx1 h1 => ?_
  refine Eats.safe ((list_eats hb (fun lx h => parseVar_eats hb _ h)
    (by omega)).bind fun out lx2 _ => ?_)
  refine Eats.safe ((expect_eats _ lx2).bind fun _ lx3 _ => ?_)
  exact safe_ok le_rfl

theorem parseNames_eats (what : String) {lx : Lexer} (h : lx.left ≤ b) :
    Eats lx.left (parseNames fuel what lx) := by
  refine (list_eats hb (fun lx _ => ident_eats what lx) h).bind fun names lx1 _ => ?_
  refine Eats.safe ((expect_eats _ lx1).bind fun _ lx2 _ => ?_)
  exact safe_ok le_rfl

theorem parseChannels_eats {lx : Lexer} (h : lx.left ≤ b) :
    Eats lx.left (parseChannels fuel lx) := by
  refine (expectId_eats _ lx).bind fun _ lx1 h1 => ?_
  exact (parseNames_eats hb _ (by omega)).safe

/-! ## The processes -/

theorem parseIndex_safe {lx : Lexer} (h : lx.left ≤ b) : Safe lx.left (parseIndex fuel lx) := by
  refine (eat_safe _ lx).bind fun bracket lx1 h1 => ?_
  dsimp only
  split
  · refine Safe.mono (Eats.safe ((parseExpr_eats hb (by omega)).bind fun e lx2 _ => ?_)) h1
    refine Eats.safe ((expect_eats _ lx2).bind fun _ lx3 _ => ?_)
    exact safe_ok le_rfl
  · exact safe_ok h1

theorem parseAssign_eats {lx : Lexer} (h : lx.left ≤ b) :
    Eats lx.left (parseAssign fuel lx) := by
  refine (ident_eats _ lx).bind fun var lx1 h1 => ?_
  refine (parseIndex_safe hb (by omega)).bind fun index lx2 h2 => ?_
  refine Safe.mono (Eats.safe ((expect_eats _ lx2).bind fun _ lx3 h3 => ?_)) h2
  refine Eats.safe ((parseExpr_eats hb (by omega)).bind fun rhs lx4 _ => ?_)
  exact safe_ok le_rfl

theorem parseGuard_safe (t : Transition) {lx : Lexer} (h : lx.left ≤ b) :
    Safe lx.left (parseGuard fuel t lx) := by
  refine (eatId_safe _ lx).bind fun guard lx1 h1 => ?_
  dsimp only
  split
  · refine Safe.mono (Eats.safe ((parseExpr_eats hb (by omega)).bind fun e lx2 _ => ?_)) h1
    refine Eats.safe ((expect_eats _ lx2).bind fun _ lx3 _ => ?_)
    exact safe_ok le_rfl
  · exact safe_ok h1

theorem parseSend_safe (t : Transition) {lx : Lexer} (h : lx.left ≤ b) :
    Safe lx.left (parseSend fuel t lx) := by
  unfold parseSend
  split
  · exact safe_ok le_rfl
  · refine Eats.safe ((parseExpr_eats hb h).bind fun e lx1 _ => ?_)
    exact safe_ok le_rfl

theorem parseRecv_safe (t : Transition) {lx : Lexer} (h : lx.left ≤ b) :
    Safe lx.left (parseRecv fuel t lx) := by
  refine Eats.safe ((expect_eats _ lx).bind fun _ lx1 h1 => ?_)
  dsimp only
  split
  · refine Eats.safe ((ident_eats _ lx1).bind fun var lx2 h2 => ?_)
    refine (parseIndex_safe hb (by omega)).bind fun index lx3 h3 => ?_
    exact safe_ok h3
  · exact safe_ok le_rfl

theorem parseSync_safe (t : Transition) {lx : Lexer} (h : lx.left ≤ b) :
    Safe lx.left (parseSync fuel t lx) := by
  refine (eatId_safe _ lx).bind fun sync lx1 h1 => ?_
  dsimp only
  split
  · refine Safe.mono (Eats.safe ((ident_eats _ lx1).bind fun channel lx2 h2 => ?_)) h1
    refine (eat_safe _ lx2).bind fun send lx3 h3 => ?_
    dsimp only
    split
    · refine Safe.mono ((parseSend_safe hb _ (by omega)).bind fun t lx4 h4 => ?_) h3
      refine Safe.mono (Eats.safe ((expect_eats _ lx4).bind fun _ lx5 _ => ?_)) h4
      exact safe_ok le_rfl
    · refine Safe.mono ((parseRecv_safe hb _ (by omega)).bind fun t lx4 h4 => ?_) h3
      refine Safe.mono (Eats.safe ((expect_eats _ lx4).bind fun _ lx5 _ => ?_)) h4
      exact safe_ok le_rfl
  · exact safe_ok h1

theorem parseEffect_safe (t : Transition) {lx : Lexer} (h : lx.left ≤ b) :
    Safe lx.left (parseEffect fuel t lx) := by
  refine (eatId_safe _ lx).bind fun effect lx1 h1 => ?_
  dsimp only
  split
  · refine Safe.mono (Eats.safe ((list_eats hb (fun lx h => parseAssign_eats hb h)
      (by omega)).bind fun es lx2 _ => ?_)) h1
    refine Eats.safe ((expect_eats _ lx2).bind fun _ lx3 _ => ?_)
    exact safe_ok le_rfl
  · exact safe_ok h1

theorem parseTransition_eats {lx : Lexer} (h : lx.left ≤ b) :
    Eats lx.left (parseTransition fuel lx) := by
  refine (ident_eats _ lx).bind fun src lx1 h1 => ?_
  refine Eats.safe ((expect_eats _ lx1).bind fun _ lx2 h2 => ?_)
  refine Eats.safe ((ident_eats _ lx2).bind fun dest lx3 h3 => ?_)
  refine Eats.safe ((expect_eats _ lx3).bind fun _ lx4 h4 => ?_)
  refine (parseGuard_safe hb _ (by omega)).bind fun t lx5 h5 => ?_
  refine Safe.mono ((parseSync_safe hb _ (by omega)).bind fun t lx6 h6 => ?_) h5
  refine Safe.mono ((parseEffect_safe hb _ (by omega)).bind fun t lx7 h7 => ?_) h6
  refine Safe.mono (Eats.safe ((expect_eats _ lx7).bind fun _ lx8 _ => ?_)) h7
  exact safe_ok le_rfl

theorem parseLocals_safe {n : Nat} : ∀ {p : Process} {lx : Lexer}, lx.left ≤ b →
    lx.left < n → Safe lx.left (parseLocals fuel n p lx) := by
  induction n with
  | zero => exact fun _ h => absurd h (Nat.not_lt_zero _)
  | succ n ih =>
    intro p lx hle hlt
    rw [parseLocals]
    split
    · refine Eats.safe ((parseConsts_eats hb hle).bind fun cs lx1 h1 => ?_)
      exact ih (by omega) (by omega)
    split
    · next hw =>
      have hk : lx.cur.kind = .id := by
        simp only [atWord, Bool.and_eq_true, decide_eq_true_iff] at hw
        rcases hw with hw | hw
        · exact hw.1
        · exact hw.1
      refine Eats.safe ((parseVars_eats hb hle hk).bind fun vs lx1 h1 => ?_)
      exact ih (by omega) (by omega)
    · exact safe_ok le_rfl

theorem parseMarked_safe (kw : String) {lx : Lexer} (h : lx.left ≤ b) :
    Safe lx.left (parseMarked fuel kw lx) := by
  refine (eatId_safe _ lx).bind fun marked lx1 h1 => ?_
  dsimp only
  split
  · exact (parseNames_eats hb _ (by omega)).safe.mono h1
  · exact safe_ok h1

theorem parseStates_safe (p : Process) {lx : Lexer} (h : lx.left ≤ b) :
    Safe lx.left (parseStates fuel p lx) := by
  refine (eatId_safe _ lx).bind fun state lx1 h1 => ?_
  dsimp only
  split
  · refine Safe.mono (Eats.safe ((parseNames_eats hb _ (by omega)).bind fun ss lx2 h2 => ?_)) h1
    refine Eats.safe ((expectId_eats _ lx2).bind fun _ lx3 h3 => ?_)
    refine Eats.safe ((ident_eats _ lx3).bind fun init lx4 h4 => ?_)
    refine Eats.safe ((expect_eats _ lx4).bind fun _ lx5 h5 => ?_)
    refine (parseMarked_safe hb _ (by omega)).bind fun accept lx6 h6 => ?_
    have hle : lx6.left ≤ b := by omega
    refine Safe.mono ((parseMarked_safe hb _ hle).bind fun commit lx7 h7 => ?_) h6
    exact safe_ok h7
  · exact safe_ok h1

theorem parseAssertion_eats {lx : Lexer} (h : lx.left ≤ b) :
    Eats lx.left (parseAssertion fuel lx) := by
  refine (ident_eats _ lx).bind fun st lx1 h1 => ?_
  refine Eats.safe ((expect_eats _ lx1).bind fun _ lx2 h2 => ?_)
  refine Eats.safe ((parseExpr_eats hb (by omega)).bind fun e lx3 _ => ?_)
  exact safe_ok le_rfl

theorem parseAsserts_safe (p : Process) {lx : Lexer} (h : lx.left ≤ b) :
    Safe lx.left (parseAsserts fuel p lx) := by
  refine (eatId_safe _ lx).bind fun asserts lx1 h1 => ?_
  dsimp only
  split
  · refine Safe.mono (Eats.safe ((list_eats hb (fun lx h => parseAssertion_eats hb h)
      (by omega)).bind fun out lx2 _ => ?_)) h1
    refine Eats.safe ((expect_eats _ lx2).bind fun _ lx3 _ => ?_)
    exact safe_ok le_rfl
  · exact safe_ok h1

theorem parseProcess_eats {lx : Lexer} (h : lx.left ≤ b) :
    Eats lx.left (parseProcess fuel lx) := by
  refine (expectId_eats _ lx).bind fun _ lx1 h1 => ?_
  refine Eats.safe ((ident_eats _ lx1).bind fun name lx2 h2 => ?_)
  refine Eats.safe ((expect_eats _ lx2).bind fun _ lx3 h3 => ?_)
  refine (parseLocals_safe hb (by omega) (by omega)).bind fun p lx4 h4 => ?_
  refine Safe.mono ((parseStates_safe hb _ (by omega)).bind fun p lx5 h5 => ?_) h4
  refine Safe.mono ((parseAsserts_safe hb _ (by omega)).bind fun p lx6 h6 => ?_) h5
  refine Safe.mono (Eats.safe ((expectId_eats _ lx6).bind fun _ lx7 h7 => ?_)) h6
  refine Eats.safe ((list_eats hb (fun lx h => parseTransition_eats hb h)
    (by omega)).bind fun ts lx8 h8 => ?_)
  refine Eats.safe ((expect_eats _ lx8).bind fun _ lx9 h9 => ?_)
  refine Eats.safe ((expect_eats _ lx9).bind fun _ lx10 _ => ?_)
  exact safe_ok le_rfl

/-! ## The model -/

theorem parseDecls_safe {n : Nat} : ∀ {m : Model} {lx : Lexer}, lx.left ≤ b → lx.left < n →
    Safe lx.left (parseDecls fuel n m lx) := by
  induction n with
  | zero => exact fun _ h => absurd h (Nat.not_lt_zero _)
  | succ n ih =>
    intro m lx hle hlt
    rw [parseDecls]
    split
    · exact safe_error
    · next hk =>
      split
      · refine Eats.safe ((parseConsts_eats hb hle).bind fun cs lx1 h1 => ?_)
        exact ih (by omega) (by omega)
      split
      · refine Eats.safe ((parseVars_eats hb hle (not_not.mp hk)).bind fun vs lx1 h1 => ?_)
        exact ih (by omega) (by omega)
      split
      · refine Eats.safe ((parseChannels_eats hb hle).bind fun cs lx1 h1 => ?_)
        exact ih (by omega) (by omega)
      split
      · refine Eats.safe ((parseProcess_eats hb hle).bind fun p lx1 h1 => ?_)
        exact ih (by omega) (by omega)
      split
      · exact safe_ok le_rfl
      · exact safe_error

theorem run_safe {lx : Lexer} (h : lx.left ≤ b) : Safe lx.left (run fuel lx) := by
  refine (parseDecls_safe hb h (by omega)).bind fun m lx1 h1 => ?_
  refine Safe.mono (Eats.safe ((expectId_eats _ lx1).bind fun _ lx2 h2 => ?_)) h1
  refine (take_safe lx2).bind fun st lx3 h3 => ?_
  dsimp only
  split
  · exact safe_error
  · refine Safe.mono (Eats.safe ((expect_eats _ lx3).bind fun _ lx4 h4 => ?_)) h3
    dsimp only
    split
    · exact safe_error
    · exact safe_ok le_rfl

end Declarations

/-- The parser ends on every text. -/
theorem parse_ends (text : List Char) : parse text ≠ .error .outOfFuel := by
  intro h
  rcases bind_eq_error.mp h with h | ⟨lx, hlx, h⟩
  · exact advance_ne_outOfFuel h
  · have hle := (advance_spec hlx).1
    rcases bind_eq_error.mp h with h | ⟨⟨m, lx1⟩, -, h⟩
    · exact (run_safe (Nat.le_refl (10 * text.length + 20)) hle).1 h
    · cases h

end LibHSC.Dve
