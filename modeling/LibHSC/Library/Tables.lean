import Mathlib.Data.List.Basic

/-!
Computations that may fail, over a state that holds tables of answers. `Gives I Q R c` says
that from a state with the invariant the computation ends with a value of `Q` and the invariant
again, or with an error of `R`. A table maps a key to an answer of the key's own type; asking
through a table of right answers gives a right answer.
-/

namespace Tables

/-! ## Computations -/

section Gives

variable {S E A B : Type} {I : S → Prop} {Q : A → Prop} {Q' : B → Prop} {R : E → Prop}

def Gives (I : S → Prop) (Q : A → Prop) (R : E → Prop) (c : StateT S (Except E) A) : Prop :=
  ∀ s, I s → match c s with
    | .ok r => Q r.1 ∧ I r.2
    | .error e => R e

theorem gives_pure {a : A} (h : Q a) : Gives I Q R (pure a : StateT S (Except E) A) :=
  fun _ hs => ⟨h, hs⟩

theorem Gives.bind {c : StateT S (Except E) A} {d : A → StateT S (Except E) B}
    (hc : Gives I Q R c) (hd : ∀ a, Q a → Gives I Q' R (d a)) : Gives I Q' R (c >>= d) := by
  intro s hs
  have h := hc s hs
  show match (c s >>= fun r => d r.1 r.2 : Except E (B × S)) with
    | .ok r => Q' r.1 ∧ I r.2
    | .error e => R e
  cases hcs : c s with
  | error e =>
    rw [hcs] at h
    exact h
  | ok r =>
    rw [hcs] at h
    exact hd r.1 h.1 r.2 h.2

theorem Gives.mono {P : A → Prop} {c : StateT S (Except E) A} (hc : Gives I Q R c)
    (h : ∀ a, Q a → P a) : Gives I P R c := by
  intro s hs
  have hcs := hc s hs
  cases hr : c s with
  | error e =>
    rw [hr] at hcs
    exact hcs
  | ok r =>
    rw [hr] at hcs
    exact ⟨h _ hcs.1, hcs.2⟩

/-- A computation without state. -/
def lift (c : Except E A) : StateT S (Except E) A := fun s => c.map fun a => (a, s)

theorem gives_lift {c : Except E A} (hok : ∀ a, c = .ok a → Q a) (herr : ∀ e, c = .error e → R e) :
    Gives I Q R (lift c) := by
  intro s hs
  cases c with
  | error e => exact herr e rfl
  | ok a => exact ⟨hok a rfl, hs⟩

/-- A computation on a part of the state. -/
def within {T : Type} (get : S → T) (put : T → S → S) (c : StateT T (Except E) A) :
    StateT S (Except E) A := fun s => (c (get s)).map fun r => (r.1, put r.2 s)

theorem gives_within {T : Type} {J : T → Prop} {get : S → T} {put : T → S → S}
    {c : StateT T (Except E) A} (hget : ∀ s, I s → J (get s))
    (hput : ∀ s t, I s → J t → I (put t s)) (h : Gives J Q R c) :
    Gives I Q R (within get put c) := by
  intro s hs
  have hc := h (get s) (hget s hs)
  unfold within
  cases hr : c (get s) with
  | error e =>
    rw [hr] at hc
    exact hc
  | ok r =>
    rw [hr] at hc
    exact ⟨hc.1, hput s r.2 hs hc.2⟩

/-- A loop over a list, an invariant of what is left and what was made so far. -/
theorem gives_foldlM {step : B → A → StateT S (Except E) B} {J : List A → B → Prop}
    (hstep : ∀ a as b, J (a :: as) b → Gives I (J as) R (step b a)) :
    ∀ (as : List A) (b : B), J as b → Gives I (J []) R (as.foldlM step b) := by
  intro as
  induction as with
  | nil => exact fun b hb => gives_pure hb
  | cons a as ih =>
    intro b hb
    rw [List.foldlM_cons]
    exact (hstep a as b hb).bind fun b' hb' => ih b' hb'

end Gives

/-! ## Tables -/

section Table

variable {K : Type} {V : K → Type}

abbrev Table (V : K → Type) := List ((k : K) × V k)

/-- Every answer of the table is right for its key. -/
def Sound (P : (k : K) → V k → Prop) (t : Table V) : Prop := ∀ e ∈ t, P e.1 e.2

theorem sound_nil {P : (k : K) → V k → Prop} : Sound P [] := fun _ h => nomatch h

theorem Sound.cons {P : (k : K) → V k → Prop} {t : Table V} (h : Sound P t) {k : K} {v : V k}
    (hv : P k v) : Sound P (⟨k, v⟩ :: t) := List.forall_mem_cons.mpr ⟨hv, h⟩

variable [DecidableEq K]

def find : Table V → (k : K) → Option (V k)
  | [], _ => none
  | e :: t, k => if h : e.1 = k then some (h ▸ e.2) else find t k

theorem Sound.find {P : (k : K) → V k → Prop} {t : Table V} (h : Sound P t) {k : K} {v : V k}
    (hf : find t k = some v) : P k v := by
  induction t with
  | nil => cases hf
  | cons e t ih =>
    obtain ⟨he, ht⟩ := List.forall_mem_cons.mp h
    rw [Tables.find] at hf
    split at hf
    · next hk =>
      subst hk
      cases hf
      exact he
    · exact ih ht hf

variable {S E : Type} {I : S → Prop} {R : E → Prop}

/-- Answered from the table, or computed and stored. `get` and `put` are the table's place in
the state. -/
def remember (get : S → Table V) (put : Table V → S → S) (k : K)
    (compute : StateT S (Except E) (V k)) : StateT S (Except E) (V k) := fun s =>
  match find (get s) k with
  | some v => .ok (v, s)
  | none => (compute s).map fun r => (r.1, put (⟨k, r.1⟩ :: get r.2) r.2)

theorem gives_remember (get : S → Table V) (put : Table V → S → S) {k : K} {Q : V k → Prop}
    {compute : StateT S (Except E) (V k)} (hget : ∀ s v, I s → find (get s) k = some v → Q v)
    (hput : ∀ s v, I s → Q v → I (put (⟨k, v⟩ :: get s) s)) (h : Gives I Q R compute) :
    Gives I Q R (remember get put k compute) := by
  intro s hs
  cases hf : find (get s) k with
  | some v =>
    simp only [remember, hf]
    exact ⟨hget s v hs hf, hs⟩
  | none =>
    have hcs := h s hs
    simp only [remember, hf]
    cases hr : compute s with
    | error e =>
      rw [hr] at hcs
      exact hcs
    | ok r =>
      rw [hr] at hcs
      exact ⟨hcs.1, hput r.2 r.1 hcs.2 hcs.1⟩

/-- A table that is searched by packed keys. An answer of another key with the same packed key
is no answer to this question: that is the error `wrong`. -/
def rememberPacked (pack : K → Nat) (wrong : E) (k : K)
    (compute : StateT (Table V) (Except E) (V k)) : StateT (Table V) (Except E) (V k) := fun t =>
  match t.find? fun e => pack e.1 = pack k with
  | some e => if h : e.1 = k then .ok (h ▸ e.2, t) else .error wrong
  | none => (compute t).map fun r => (r.1, ⟨k, r.1⟩ :: r.2)

theorem gives_rememberPacked {pack : K → Nat} {wrong : E} {k : K} {P : (k : K) → V k → Prop}
    {compute : StateT (Table V) (Except E) (V k)}
    (hpack : ∀ k' v', P k' v' → pack k' = pack k → k' = k)
    (h : Gives (Sound P) (P k) R compute) :
    Gives (Sound P) (P k) R (rememberPacked pack wrong k compute) := by
  intro t ht
  unfold rememberPacked
  cases hf : t.find? fun e => pack e.1 = pack k with
  | some e =>
    have hmem := List.mem_of_find?_eq_some hf
    have hsame : e.1 = k := hpack e.1 e.2 (ht e hmem) (by simpa using List.find?_some hf)
    subst hsame
    dsimp only
    rw [dif_pos rfl]
    exact ⟨ht e hmem, ht⟩
  | none =>
    have hc := h t ht
    cases hr : compute t with
    | error e =>
      rw [hr] at hc
      exact hc
    | ok r =>
      rw [hr] at hc
      exact ⟨hc.1, hc.2.cons hc.1⟩

end Table

/-! ## Loops without failure -/

section Fold

variable {A B : Type} {J C : B → Prop} {step : B → A → B}

theorem foldl_keeps (as : List A) (hstep : ∀ a ∈ as, ∀ b, J b → J (step b a)) :
    ∀ b, J b → J (as.foldl step b) := by
  induction as with
  | nil => exact fun _ hb => hb
  | cons a as ih =>
    obtain ⟨ha, has⟩ := List.forall_mem_cons.mp hstep
    exact fun b hb => ih has _ (ha b hb)

/-- What one turn of the loop makes true and no turn undoes holds in the end. -/
theorem foldl_makes (as : List A) (hJ : ∀ a ∈ as, ∀ b, J b → J (step b a))
    (hkeep : ∀ a ∈ as, ∀ b, J b → C b → C (step b a)) {a : A} (ha : a ∈ as)
    (hmake : ∀ b, J b → C (step b a)) {b : B} (hb : J b) : C (as.foldl step b) := by
  obtain ⟨pre, post, rfl⟩ := List.append_of_mem ha
  rw [List.foldl_append, List.foldl_cons]
  have hpre := foldl_keeps (J := J) pre (fun x hx => hJ x (List.mem_append_left _ hx)) b hb
  have hpost := foldl_keeps (J := fun b => J b ∧ C b) post
    (fun x hx b hb => ⟨hJ x (by simp [hx]) b hb.1, hkeep x (by simp [hx]) b hb.1 hb.2⟩)
  exact (hpost _ ⟨hJ a ha _ hpre, hmake _ hpre⟩).2

end Fold

end Tables
