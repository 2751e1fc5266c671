import LibHSC.Mem.InternCollect

/-!
Runs of a unique table: lookups, references and collections in any order. A caller
interns a value only while what it cites is interned, and references an id only
while it stands for a value.
-/

namespace LibHSC.Mem

namespace Intern

inductive Event (T : Type) where
  | got (x : T) (id : Nat)
  | exhausted (x : T)
  | ref (id : Nat)
  | deref (id : Nat)
  | collect

section Steps

variable {T : Type} [DecidableEq T] (idBound : Nat) (hash : T → Nat) (children : T → List Nat)

inductive Step (st : Intern T) : Event T → Intern T → Prop
  | got {x : T} {id : Nat} {st' : Intern T} : (∀ c ∈ children x, c ≠ 0 → st.Live c) →
      st.get idBound hash x = some (.id id, st') → Step st (.got x id) st'
  | exhausted {x : T} {st' : Intern T} : (∀ c ∈ children x, c ≠ 0 → st.Live c) →
      st.get idBound hash x = some (.exhausted, st') → Step st (.exhausted x) st'
  | ref {id : Nat} : st.Live id → Step st (.ref id) (st.ref id)
  | deref {id : Nat} {st' : Intern T} : st.deref id = some st' → Step st (.deref id) st'
  | collect {fuel : Nat} {st' : Intern T} : st.collect idBound hash children fuel = some st' →
      Step st .collect st'

/-- No count goes past 32 bits, and no collection starts with every id in use. -/
def Fits (st : Intern T) : Event T → Prop
  | .ref id => st.refCount id + 1 < counterBound
  | .collect => st.index.length < idBound
  | _ => True

/-- A step of a run: the state before, what was done, and the state after. -/
structure Turn (T : Type) where
  before : Intern T
  event : Event T
  after : Intern T

/-- A run whose steps all fit. -/
inductive Run : Intern T → List (Turn T) → Intern T → Prop
  | nil (st : Intern T) : Run st [] st
  | cons {st st' st'' : Intern T} {event : Event T} {turns : List (Turn T)} :
      Step idBound hash children st event st' → Fits idBound st event → Run st' turns st'' →
      Run st (⟨st, event, st'⟩ :: turns) st''

end Steps

/-- The value of the id was collected in the run. -/
def Freed {T : Type} (turns : List (Turn T)) (id : Nat) : Prop :=
  ∃ t ∈ turns, t.before.Live id ∧ ¬ t.after.Live id

/-- How many collections the run has. -/
def collections {T : Type} : List (Turn T) → Nat
  | [] => 0
  | t :: turns =>
    match t.event with
    | .collect => collections turns + 1
    | _ => collections turns

/-! ## Steps -/

section StepSpec

variable {T : Type} [DecidableEq T] {idBound : Nat} {hash : T → Nat} {children : T → List Nat}
  {st st' : Intern T} {event : Event T}

/-- What a step that fits does to the values and the generations. -/
structure Effect (st : Intern T) (event : Event T) (st' : Intern T) : Prop where
  kept : ∀ id x, st.resolve id = some x → st'.resolve id = some x ∨
    (st'.resolve id = none ∧ event = .collect ∧ st.refCount id = 0)
  generations : ∀ id, st'.generations.getD id 0 =
    if st.Live id ∧ ¬ st'.Live id then (st.generations.getD id 0 + 1) % counterBound
    else st.generations.getD id 0

omit [DecidableEq T] in
/-- A step that frees nothing. -/
theorem effect_of_kept (h : ∀ id x, st.resolve id = some x → st'.resolve id = some x)
    (hg : ∀ id, st'.generations.getD id 0 = st.generations.getD id 0) : Effect st event st' := by
  refine ⟨fun id x hx => .inl (h id x hx), fun id => ?_⟩
  rw [hg, if_neg]
  rintro ⟨hl, hn⟩
  obtain ⟨x, hx⟩ := hl.exists
  exact hn (live_of_resolve (h id x hx))

omit [DecidableEq T] in
theorem GetSpec.effect {x : T} {got : Got} (h : GetSpec idBound st x got st') :
    Effect st event st' := by
  cases h with
  | hit _ hsame =>
    exact effect_of_kept (fun id y hy => (hsame.resolve id).trans hy)
      fun id => by rw [hsame.generations]
  | miss _ _ _ hv hr hg _ _ _ =>
    refine effect_of_kept (fun id y hy => ?_) hg
    rw [hr, if_neg, hy]
    rintro rfl
    rw [hv] at hy
    cases hy
  | exhausted _ _ _ hsame =>
    exact effect_of_kept (fun id y hy => (hsame.resolve id).trans hy)
      fun id => by rw [hsame.generations]

theorem step_spec (h : Ok idBound hash children st)
    (hstep : Step idBound hash children st event st') (hfit : Fits idBound st event) :
    Ok idBound hash children st' ∧ Effect st event st' := by
  cases hstep with
  | got hx heq =>
    obtain ⟨got, st₁, heq', hok, hspec⟩ := get_spec h _ hx
    cases heq.symm.trans heq'
    exact ⟨hok, hspec.effect⟩
  | exhausted hx heq =>
    obtain ⟨got, st₁, heq', hok, hspec⟩ := get_spec h _ hx
    cases heq.symm.trans heq'
    exact ⟨hok, hspec.effect⟩
  | ref hl => exact ⟨(ref_spec h hl hfit).1, effect_of_kept (fun _ _ hx => hx) fun _ => rfl⟩
  | @deref id st' heq =>
    have hpos : 0 < st.refCount id := by
      cases hr : st.refs.getD id none with
      | none =>
        unfold deref at heq
        rw [hr] at heq
        cases heq
      | some count =>
        rw [refCount_eq, hr]
        exact (h.refs id count hr).2.1
    obtain ⟨st₁, heq', hok, hsame, -⟩ := deref_spec h hpos
    obtain rfl := Option.some.inj (heq.symm.trans heq')
    refine ⟨hok, effect_of_kept (fun j x hx => ?_) fun j => ?_⟩
    · rw [hsame]
      exact hx
    · rw [hsame]
  | collect heq =>
    obtain ⟨hok, hc⟩ := (collect_spec h hfit).2 _ _ heq
    refine ⟨hok, fun id x hx => ?_, hc.generations⟩
    rcases hc.resolve id with hr | hr
    · exact .inl (hr.trans hx)
    · refine .inr ⟨hr, rfl, ?_⟩
      by_contra hne
      rw [hc.held id (by omega), hx] at hr
      cases hr

end StepSpec

/-! ## Runs -/

section Runs

variable {T : Type} [DecidableEq T] {idBound : Nat} {hash : T → Nat} {children : T → List Nat}
  {st st' : Intern T} {turns : List (Turn T)}

theorem run_ok (h : Ok idBound hash children st) (hrun : Run idBound hash children st turns st') :
    Ok idBound hash children st' := by
  induction hrun with
  | nil => exact h
  | cons hstep hfit _ ih => exact ih (step_spec h hstep hfit).1

theorem Run.append {st'' : Intern T} {turns' : List (Turn T)}
    (h : Run idBound hash children st turns st') (h' : Run idBound hash children st' turns' st'') :
    Run idBound hash children st (turns ++ turns') st'' := by
  induction h with
  | nil => exact h'
  | cons hstep hfit _ ih => exact .cons hstep hfit (ih h')

/-- A value that was not collected is where it was. -/
theorem run_kept (h : Ok idBound hash children st) (hrun : Run idBound hash children st turns st')
    {id : Nat} {x : T} (hx : st.resolve id = some x) (hfreed : ¬ Freed turns id) :
    st'.resolve id = some x := by
  induction hrun with
  | nil => exact hx
  | cons hstep hfit _ ih =>
    obtain ⟨hok, heffect⟩ := step_spec h hstep hfit
    refine ih hok ?_ fun ⟨t, ht, hf⟩ => hfreed ⟨t, List.mem_cons_of_mem _ ht, hf⟩
    rcases heffect.kept id x hx with hr | ⟨hr, -, -⟩
    · exact hr
    · refine absurd ⟨_, List.mem_cons_self .., live_of_resolve hx, ?_⟩ hfreed
      unfold Live
      rw [hr]
      exact Bool.false_ne_true

/-- A value is not collected while its id is referenced. -/
theorem run_referenced (h : Ok idBound hash children st)
    (hrun : Run idBound hash children st turns st') {id : Nat}
    (href : ∀ t ∈ turns, 0 < t.before.refCount id) : ¬ Freed turns id := by
  induction hrun with
  | nil =>
    rintro ⟨t, ht, -⟩
    cases ht
  | cons hstep hfit _ ih =>
    obtain ⟨hok, heffect⟩ := step_spec h hstep hfit
    rintro ⟨t, ht, hl, hn⟩
    rcases List.mem_cons.mp ht with rfl | ht
    · obtain ⟨x, hx⟩ := hl.exists
      have hpos := href _ List.mem_cons_self
      dsimp only at hx hn hpos
      rcases heffect.kept id x hx with hr | ⟨-, -, hz⟩
      · exact hn (live_of_resolve hr)
      · omega
    · exact ih hok (fun t ht => href t (List.mem_cons_of_mem _ ht)) ⟨t, ht, hl, hn⟩

/-- How often the value of an id was collected. -/
def frees (id : Nat) : List (Turn T) → Nat
  | [] => 0
  | t :: turns => (if t.before.Live id ∧ ¬ t.after.Live id then 1 else 0) + frees id turns

omit [DecidableEq T] in
theorem frees_eq_zero {id : Nat} : frees id turns = 0 ↔ ¬ Freed turns id := by
  induction turns with
  | nil =>
    refine iff_of_true rfl ?_
    rintro ⟨t, ht, -⟩
    cases ht
  | cons t turns ih =>
    rw [frees, Nat.add_eq_zero_iff, ih]
    constructor
    · rintro ⟨h0, hno⟩ ⟨u, hu, hf⟩
      rcases List.mem_cons.mp hu with rfl | hu
      · rw [if_pos hf] at h0
        cases h0
      · exact hno ⟨u, hu, hf⟩
    · intro hno
      refine ⟨if_neg fun hf => hno ⟨t, List.mem_cons_self .., hf⟩, ?_⟩
      rintro ⟨u, hu, hf⟩
      exact hno ⟨u, List.mem_cons_of_mem _ hu, hf⟩

/-- The generation of an id counts, modulo 2^32, how often its value was collected. -/
theorem run_generation (h : Ok idBound hash children st)
    (hrun : Run idBound hash children st turns st') (id : Nat) :
    st'.generations.getD id 0 % counterBound =
      (st.generations.getD id 0 + frees id turns) % counterBound := by
  induction hrun with
  | nil => rfl
  | cons hstep hfit _ ih =>
    obtain ⟨hok, heffect⟩ := step_spec h hstep hfit
    rw [ih hok, heffect.generations, frees]
    split
    · rw [Nat.mod_add_mod, Nat.add_assoc]
    · rw [Nat.zero_add]

theorem frees_le (h : Ok idBound hash children st)
    (hrun : Run idBound hash children st turns st') (id : Nat) :
    frees id turns ≤ collections turns := by
  induction hrun with
  | nil => exact Nat.le_refl _
  | @cons st st' st'' event turns hstep hfit _ ih =>
    obtain ⟨hok, heffect⟩ := step_spec h hstep hfit
    have hle := ih hok
    rw [frees, collections]
    split
    · next hf =>
      obtain ⟨x, hx⟩ := hf.1.exists
      rcases heffect.kept id x hx with hr | ⟨-, rfl, -⟩
      · exact absurd (live_of_resolve hr) hf.2
      · dsimp only
        omega
    · dsimp only
      split <;> omega

theorem run_generations_eq (h : Ok idBound hash children st)
    (hrun : Run idBound hash children st turns st') {id : Nat} (hfreed : ¬ Freed turns id) :
    st'.generations.getD id 0 = st.generations.getD id 0 := by
  induction hrun with
  | nil => rfl
  | cons hstep hfit _ ih =>
    obtain ⟨hok, heffect⟩ := step_spec h hstep hfit
    rw [ih hok fun ⟨t, ht, hf⟩ => hfreed ⟨t, List.mem_cons_of_mem _ ht, hf⟩,
      heffect.generations, if_neg fun hf => hfreed ⟨_, List.mem_cons_self .., hf⟩]

theorem getSpec_of_eq (h : Ok idBound hash children st) {x : T} {got : Got}
    (hx : ∀ c ∈ children x, c ≠ 0 → st.Live c)
    (heq : st.get idBound hash x = some (got, st')) :
    Ok idBound hash children st' ∧ GetSpec idBound st x got st' := by
  obtain ⟨got', st₁, heq', hok, hspec⟩ := get_spec h x hx
  cases heq.symm.trans heq'
  exact ⟨hok, hspec⟩

omit [DecidableEq T] in
/-- The id handed out stands for the value. -/
theorem GetSpec.resolve {x : T} {id : Nat} (h : GetSpec idBound st x (.id id) st') :
    st'.resolve id = some x := by
  cases h with
  | hit hr hsame => exact (hsame.resolve id).trans hr
  | miss _ _ _ _ hr _ _ _ _ =>
    rw [hr]
    exact if_pos rfl

/-- A certificate taken on a value is good as long as the value is not collected. -/
theorem valid_iff (h : Ok idBound hash children st)
    (hrun : Run idBound hash children st turns st') {id : Nat} (hl : st.Live id)
    (hfew : collections turns < counterBound) :
    st'.valid id (st.generation id) = true ↔ ¬ Freed turns id := by
  have hok := run_ok h hrun
  have hgen := run_generation h hrun id
  have hgen₀ : st.generation id = st.generations.getD id 0 := by
    unfold generation
    rw [if_pos (h.generations ▸ hl.lt)]
  unfold valid
  rw [decide_eq_true_iff, hgen₀, ← frees_eq_zero]
  constructor
  · rintro ⟨-, -, -, heq⟩
    have hle := frees_le h hrun id
    rw [heq] at hgen
    -- fewer than 2^32 collections do not lead back to the same generation
    unfold counterBound at hgen hfew
    omega
  · intro hz
    obtain ⟨x, hx⟩ := hl.exists
    have hx' := run_kept h hrun hx (frees_eq_zero.mp hz)
    refine ⟨h.live_ne_zero hl, (live_of_resolve hx').lt, live_of_resolve hx', ?_⟩
    exact run_generations_eq h hrun (frees_eq_zero.mp hz)

end Runs

/-! ## Unique tables -/

section Main

variable {T : Type} [DecidableEq T] {bits capacity : Nat} {hash : T → Nat}
  {children : T → List Nat} {past : List (Turn T)} {st : Intern T}

/-- In every run that fits, from every state of it: lookups and collections return;
an id handed out is not 0, stands for the value, is not taken from a holder of another
value, and is handed out again exactly for that value until it is collected; a
referenced value keeps its id; and a certificate is accepted exactly as long as the
value has not been collected, over fewer than 2^32 collections. -/
theorem intern_run (hrun : Run (2 ^ bits) hash children (new capacity) past st) :
    (∀ x, (∀ c ∈ children x, c ≠ 0 → st.Live c) →
      ∃ got st', st.get (2 ^ bits) hash x = some (got, st')) ∧
    (st.index.length < 2 ^ bits → ∃ fuel st', st.collect (2 ^ bits) hash children fuel = some st') ∧
    (∀ x id st₁, (∀ c ∈ children x, c ≠ 0 → st.Live c) →
      st.get (2 ^ bits) hash x = some (.id id, st₁) → id ≠ 0 ∧ st₁.resolve id = some x ∧
        (0 < st.refCount id → st.resolve id = some x) ∧
        ∀ y id' turns st₂ st₃, Run (2 ^ bits) hash children st₁ turns st₂ → ¬ Freed turns id →
          (∀ c ∈ children y, c ≠ 0 → st₂.Live c) →
          st₂.get (2 ^ bits) hash y = some (.id id', st₃) → (id = id' ↔ x = y)) ∧
    (∀ id x turns st', st.resolve id = some x → Run (2 ^ bits) hash children st turns st' →
      (∀ t ∈ turns, 0 < t.before.refCount id) → st'.resolve id = some x) ∧
    (∀ id turns st', st.Live id → Run (2 ^ bits) hash children st turns st' →
      collections turns < counterBound →
      (st'.valid id (st.generation id) = true ↔ ¬ Freed turns id)) := by
  have hok : Ok (2 ^ bits) hash children st := run_ok (new_ok capacity Nat.one_le_two_pow) hrun
  refine ⟨fun x hx => ?_, fun hroom => (collect_spec hok hroom).1, fun x id st₁ hx heq => ?_,
    fun id x turns st' hx hturns href => ?_, fun id turns st' hl hturns hfew => ?_⟩
  · obtain ⟨got, st', heq, -⟩ := get_spec hok x hx
    exact ⟨got, st', heq⟩
  · obtain ⟨hok₁, hspec⟩ := getSpec_of_eq hok hx heq
    have hres := hspec.resolve
    refine ⟨hok₁.live_ne_zero (live_of_resolve hres), hres, fun href => ?_,
      fun y id' turns st₂ st₃ hturns hfreed hy heq' => ?_⟩
    · cases hspec with
      | hit hr _ => exact hr
      | miss _ _ _ hv _ _ _ _ _ =>
        -- an id with a holder stands for a value already
        have hstored := hok.refs_eq id
        rw [if_neg (by omega)] at hstored
        have hl := (hok.refs id _ hstored).1
        unfold Live at hl
        rw [hv] at hl
        cases hl
    · have hres₂ := run_kept hok₁ hturns hres hfreed
      obtain ⟨hok₃, hspec'⟩ := getSpec_of_eq (run_ok hok₁ hturns) hy heq'
      have hres₃ := hspec'.resolve
      constructor
      · rintro rfl
        have heffect : Effect st₂ (.got y id) st₃ := hspec'.effect
        rcases heffect.kept id x hres₂ with hr | ⟨-, hno, -⟩
        · exact Option.some.inj (hr.symm.trans hres₃)
        · cases hno
      · rintro rfl
        cases hspec' with
        | hit hr _ => exact (run_ok hok₁ hturns).distinct _ _ x hres₂ hr
        | miss hno _ _ _ _ _ _ _ _ => exact absurd hres₂ (hno id)
  · exact run_kept hok hturns hx (run_referenced hok hturns href)
  · exact valid_iff hok hturns hl hfew

end Main

section Recycled

/-- A value of the table: a number, and the id it cites (0 for none). -/
abbrev Cell := Nat × Nat

def cites (x : Cell) : List Nat := [x.2]

abbrev CellRun := Run (2 ^ 8) Prod.fst cites

def threeCells : Intern Cell :=
  ⟨[none, some (5, 0), some (6, 1), some (7, 0)], ⟨[0, 0, 0, 0, 0, 1, 2, 3], 3⟩, [0, 0, 0, 0],
    [false, false, false, false], [], []⟩

/-- The second value is referenced, the table collected, and the id of the third taken. -/
def recycledCells : Intern Cell :=
  ⟨[none, some (5, 0), some (6, 1), some (8, 0)],
    ⟨[0, 0, 0, 0, 0, 1, 2, 0, 3, 0, 0, 0, 0, 0, 0, 0], 3⟩, [0, 0, 0, 1],
    [false, false, false, false], [],
    [none, none, some 1, none, none, none, none, none, none, none, none]⟩

theorem threeCells_run : ∃ past, CellRun (new 8) past threeCells :=
  ⟨_, .cons (@Step.got _ _ _ _ _ _ (5, 0) 1 _ (by decide) rfl) trivial
    (.cons (@Step.got _ _ _ _ _ _ (6, 1) 2 _ (by decide) rfl) trivial
      (.cons (@Step.got _ _ _ _ _ _ (7, 0) 3 _ (by decide) rfl) trivial (.nil _)))⟩

theorem recycledCells_run : ∃ later, CellRun threeCells later recycledCells ∧
    collections later = 1 :=
  ⟨_, .cons (@Step.ref _ _ _ _ _ _ 2 (by decide))
    (show threeCells.refCount 2 + 1 < counterBound by decide)
    (.cons (@Step.collect _ _ _ _ _ _ 8 _ rfl) (show 4 < 2 ^ 8 by decide)
      (.cons (@Step.got _ _ _ _ _ _ (8, 0) 3 _ (by decide) rfl) trivial (.nil _))), rfl⟩

/-- Of three values, the second citing the first, the second is referenced, the table is
collected, and a new value takes the id of the third: the certificate of the third is
refused from then on, that of the second accepted, and the second keeps its id. -/
theorem intern_run_recycles : ∃ later, CellRun threeCells later recycledCells ∧
    Freed later 3 ∧ recycledCells.resolve 3 = some (8, 0) ∧
    ¬ Freed later 2 ∧ recycledCells.resolve 2 = threeCells.resolve 2 ∧
    (∃ st, recycledCells.get (2 ^ 8) Prod.fst (6, 1) = some (.id 2, st) ∧
      st.resolve 2 = some (6, 1)) ∧
    ∃ fuel st, recycledCells.collect (2 ^ 8) Prod.fst cites fuel = some st := by
  obtain ⟨past, hpast⟩ := threeCells_run
  obtain ⟨later, hlater, hone⟩ := recycledCells_run
  have hfew : collections later < counterBound := by
    rw [hone]
    decide
  obtain ⟨-, -, -, -, hcert⟩ := intern_run hpast
  obtain ⟨-, hcollect, hget, -⟩ := intern_run (hpast.append hlater)
  have hthird := hcert 3 later _ (by decide) hlater hfew
  have hsecond := hcert 2 later _ (by decide) hlater hfew
  have heq : recycledCells.get (2 ^ 8) Prod.fst (6, 1) = some (.id 2, recycledCells) := rfl
  refine ⟨later, hlater, ?_, rfl, hsecond.mp rfl, rfl, ⟨_, heq, ?_⟩, hcollect (by decide)⟩
  · by_contra hno
    exact Bool.noConfusion (hthird.mpr hno)
  · exact (hget (6, 1) 2 _ (by decide) heq).2.1

end Recycled

/-! ## A table with every id in use -/

section Full

/-- Tables of numbers that cite nothing. -/
abbrev Numbers := Intern Nat

/-- The numbers below `n` are interned in turn. -/
theorem fill_run (bits : Nat) : ∀ {n : Nat}, n < 2 ^ bits → ∃ turns st,
    Run (2 ^ bits) id (fun _ => []) (new 8 : Numbers) turns st ∧ st.index.length = n + 1 ∧
      st.free = [] ∧ st.refs = [] ∧ (∀ i x, st.resolve i = some x → x < n) ∧
      ∀ x < n, ∃ i, st.resolve i = some x := by
  intro n
  induction n with
  | zero =>
    intro _
    refine ⟨[], _, .nil _, rfl, rfl, rfl, fun i x hx => ?_,
      fun x hx => absurd hx (Nat.not_lt_zero x)⟩
    cases i <;> cases hx
  | succ n ih =>
    intro hn
    obtain ⟨turns, st, hrun, hlen, hfree, hrefs, hval, hall⟩ := ih (by omega)
    have hok : Ok (2 ^ bits) id (fun _ => []) st :=
      run_ok (new_ok 8 Nat.one_le_two_pow) hrun
    have hcites : ∀ c ∈ (fun _ => [] : Nat → List Nat) n, c ≠ 0 → st.Live c :=
      fun c hc => by cases hc
    obtain ⟨got, st', heq, hok', hspec⟩ := get_spec hok n hcites
    cases hspec with
    | hit hr _ => exact absurd (hval _ n hr) (Nat.lt_irrefl n)
    | miss _ _ _ hv hr _ hrefs' _ hfresh =>
      obtain ⟨hfree', hlen'⟩ := hfresh hfree
      refine ⟨_, st', hrun.append (.cons (.got hcites heq) trivial (.nil _)), by omega, hfree',
        hrefs'.trans hrefs, fun i x hx => ?_, fun x hx => ?_⟩
      · rw [hr] at hx
        split at hx
        · have := Option.some.inj hx
          omega
        · have := hval i x hx
          omega
      · rcases Nat.lt_succ_iff_lt_or_eq.mp hx with hlt | rfl
        · obtain ⟨i, hi⟩ := hall x hlt
          refine ⟨i, ?_⟩
          rw [hr, if_neg, hi]
          rintro rfl
          rw [hv] at hi
          cases hi
        · exact ⟨_, (hr _).trans (if_pos rfl)⟩
    | exhausted _ _ hfull _ => omega

/-- 255 numbers use up 8-bit ids. A collection then never returns, whatever is
referenced: the counter of the sweep goes from 255 back to 0, and the second time
around no mark is left, so that the referenced value is freed too. -/
theorem collect_diverges : ∃ turns st i x,
    Run (2 ^ 8) id (fun _ => []) (new 8 : Numbers) turns st ∧ st.resolve i = some x ∧
      0 < st.refCount i ∧ (∀ fuel, st.collect (2 ^ 8) id (fun _ => []) fuel = none) ∧
      ∃ fuel marked n, mark (fun _ => []) fuel st.roots.reverse st = some marked ∧
        (sweepAfter (2 ^ 8) n 1 [] marked).2.2.resolve i = none := by
  obtain ⟨turns, st, hrun, hlen, -, hrefs, -, hall⟩ := fill_run 8 (n := 255) (by decide)
  obtain ⟨i, hi⟩ := hall 0 (by decide)
  have hok : Ok (2 ^ 8) id (fun _ => []) st := run_ok (new_ok 8 Nat.one_le_two_pow) hrun
  have hzero : st.refCount i = 0 := by
    rw [refCount_eq, hrefs]
    rfl
  have hfit : st.refCount i + 1 < counterBound := by
    rw [hzero]
    decide
  obtain ⟨hok', hcount⟩ := ref_spec hok (live_of_resolve hi) hfit
  have hstart := markInv_start hok'
  have hfull : ∀ {fuel : Nat} {st₁ : Numbers},
      mark (fun _ => []) fuel (st.ref i).roots.reverse (st.ref i) = some st₁ →
      st₁.index.length = 2 ^ 8 ∧ Sweepable (2 ^ 8) st₁ := by
    intro fuel st₁ hmark
    have hinv := mark_spec hok' hstart hmark
    refine ⟨?_, hinv.sweepable hok'⟩
    rw [hinv.same]
    exact hlen
  refine ⟨_, st.ref i, i, 0, hrun.append (.cons (.ref (live_of_resolve hi)) hfit (.nil _)), hi, ?_,
    fun fuel => ?_, ?_⟩
  · rw [hcount, if_pos rfl]
    exact Nat.succ_pos _
  · unfold collect
    cases hmark : mark (fun _ => []) fuel (st.ref i).roots.reverse (st.ref i) with
    | none => rfl
    | some st₁ =>
      rw [Option.bind_eq_bind, Option.bind_some,
        sweep_diverges (hfull hmark).1 (by decide) fuel [] (by decide)]
      rfl
  · obtain ⟨st₁, hmark⟩ := mark_total hok' hstart (Nat.lt_succ_self _)
    have hlt : i < 2 ^ 8 := Nat.lt_of_lt_of_eq (live_of_resolve hi).lt hlen
    obtain ⟨n, hn⟩ := sweepAfter_full (hfull hmark).2 (hfull hmark).1 (by decide) hlt
    exact ⟨_, st₁, n, hmark, hn⟩

end Full

end Intern

end LibHSC.Mem
