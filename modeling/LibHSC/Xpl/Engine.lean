import LibHSC.Xpl.Fire
import LibHSC.Xpl.Store
import LibHSC.Library.Levels

/-!
Enumerative reachability: breadth-first, visitor-driven, with the may-fire set
of a state carried beside it in the queue and derived from its parent's.
-/

namespace LibHSC.Xpl

open Levels

/-! ## May-fire sets -/

/-- The union of two ascending sets. -/
def unionOperation (as bs : List Nat) : List Nat :=
  match as, bs with
  | [], bs => bs
  | a :: as, [] => a :: as
  | a :: as, b :: bs =>
    if b < a then b :: unionOperation (a :: as) bs
    else if a < b then a :: unionOperation as (b :: bs)
    else b :: unionOperation as bs
termination_by as.length + bs.length

/-- What escapes a may-fire test. -/
abbrev Stop := EvalError ⊕ InterpError

def sweepFrom (m : Model) (s : Word) : List Nat → Except Stop (List Nat)
  | [] => .ok []
  | e :: es => do
      let enabled ← quickEnabled m e s
      let rest ← sweepFrom m s es
      return if enabled then e :: rest else rest

/-- The sweep a seed pays. -/
def fullSweep (m : Model) (s : Word) : Except Stop (List Nat) :=
  sweepFrom m s (List.range m.events.length)

def dirtyEvents (m : Model) (changed : List Nat) : List Nat :=
  changed.foldl (fun dirty p => unionOperation dirty (m.readers p)) []

/-- Dirty events are tested again on `s`, clean ones keep their status. -/
def deriveMerge (m : Model) (s : Word) (en dirty : List Nat) : Except Stop (List Nat) :=
  match en, dirty with
  | [], [] => .ok []
  | a :: en, [] => do return a :: (← deriveMerge m s en [])
  | [], b :: dirty => do
      let enabled ← quickEnabled m b s
      let rest ← deriveMerge m s [] dirty
      return if enabled then b :: rest else rest
  | a :: en, b :: dirty =>
    if b ≤ a then do
      let enabled ← quickEnabled m b s
      let rest ← deriveMerge m s (if a = b then en else a :: en) dirty
      return if enabled then b :: rest else rest
    else do return a :: (← deriveMerge m s en (b :: dirty))
termination_by en.length + dirty.length
decreasing_by
  · simp
  · simp
  · split
    · simp
      omega
    · simp
  · simp

def derive (m : Model) (en changed : List Nat) (s : Word) : Except Stop (List Nat) :=
  deriveMerge m s en (dirtyEvents m changed)

/-! ## The search -/

/-- The search under way. The source keeps neither `seeded`, how many seeds it
took, nor `expanded`, the states in the order of their expansion. -/
structure Search (V : Type) where
  store : Store
  frontier : List (Nat × List Nat)
  fired : Nat
  visitor : V
  seeded : Nat
  expanded : List Word

/-- How a search ends early. -/
inductive Ending where
  | stopped
  | capped
  | error (err : InterpError)
  /-- An evaluation error that no handler of the engine catches. -/
  | escaped (err : EvalError)
  | endless

section Engine

variable {V : Type}

abbrev Halt (V : Type) := Ending × Search V

def Search.lift {α : Type} (r : Search V) : Except Stop α → Except (Halt V) α
  | .ok a => .ok a
  | .error (.inl err) => .error (.escaped err, r)
  | .error (.inr err) => .error (.error err, r)

variable (m : Model) (cap : Nat) (visit : V → Nat → Word → Bool × V)

/-- Cap check, visitor, queue: seeds and successors alike. The visitor may keep a
state; its verdict `true` stops the search. -/
def Search.admitState (r : Search V) (id : Nat) (en : List Nat) : Except (Halt V) (Search V) :=
  if r.store.size > cap then .error (.capped, r)
  else
    match visit r.visitor id (r.store.rows.getD id []) with
    | (true, v) => .error (.stopped, { r with visitor := v })
    | (false, v) => .ok { r with visitor := v, frontier := r.frontier ++ [(id, en)] }

/-- Intern a state and, if it is fresh, admit it with the may-fire set `sweep`
computes. -/
def Search.enter (r : Search V) (s : Word) (sweep : Except Stop (List Nat)) :
    Except (Halt V) (Search V) :=
  match r.store.intern s with
  | none => .error (.endless, r)
  | some ((id, fresh), st) =>
    let r := { r with store := st }
    if fresh then do
      let en ← r.lift sweep
      r.admitState cap visit id en
    else .ok r

def seedAll : List Word → Search V → Except (Halt V) (Search V)
  | [], r => .ok r
  | s :: seeds, r => do
      let r ← Search.enter cap visit { r with seeded := r.seeded + 1 } s (fullSweep m s)
      seedAll seeds r

/-- The successors of one event. -/
def takeAll (en : List Nat) : List Successor → Search V → Except (Halt V) (Search V)
  | [], r => .ok r
  | sc :: succs, r => do
      let r ← r.enter cap visit sc.s (derive m en sc.changed sc.s)
      takeAll en succs r

/-- The events of the may-fire set `en` of `s`, in order. -/
def fireAll (s : Word) (en : List Nat) : List Nat → Search V → Except (Halt V) (Search V)
  | [], r => .ok r
  | e :: es, r =>
    match fire m e s with
    | .error err => .error (.error err, r)
    | .ok succs => do
        let r ← takeAll m cap visit en succs { r with fired := r.fired + succs.length }
        fireAll s en es r

def searchLoop : Nat → Search V → Except (Halt V) (Search V)
  | 0, r => .error (.endless, r)
  | fuel + 1, r =>
    match r.frontier with
    | [] => .ok r
    | (id, en) :: rest => do
        let s := r.store.rows.getD id []
        let r ← fireAll m cap visit s en en
          { r with frontier := rest, expanded := r.expanded ++ [s] }
        searchLoop fuel r

/-- The run over an empty store: the status, `none` for `ok`, and what was found.
No run expands more states than the cap lets in. -/
def run (seeds : List Word) (visitor : V) : Option Ending × Search V :=
  let start : Search V := ⟨Store.empty, [], 0, visitor, 0, []⟩
  match seedAll m cap visit seeds start >>= searchLoop m cap visit (cap + 1) with
  | .ok r => (none, r)
  | .error (e, r) => (some e, r)

end Engine

/-! ## The transition relation -/

/-- One firing of one event. -/
def Model.Next (m : Model) (s t : Word) : Prop :=
  ∃ e succs sc, fire m e s = .ok succs ∧ sc ∈ succs ∧ sc.s = t

/-- A failed test means that the event produces nothing. -/
def Model.QuickNecessary (m : Model) : Prop :=
  ∀ e s, quickEnabled m e s = .ok false → fire m e s = .ok []

/-- Reachable from the seeds. -/
def Model.Reach (m : Model) (seeds : List Word) (s : Word) : Prop :=
  Reachable (· ∈ seeds) m.Next s

/-! ## Sets -/

theorem mem_unionOperation (as bs : List Nat) (x : Nat) :
    x ∈ unionOperation as bs ↔ x ∈ as ∨ x ∈ bs := by
  induction as, bs using unionOperation.induct with
  | case1 bs => simp [unionOperation]
  | case2 a as => simp [unionOperation]
  | case3 a as b bs h ih =>
    rw [unionOperation, if_pos h, List.mem_cons, ih]
    simp only [List.mem_cons]
    tauto
  | case4 a as b bs h1 h2 ih =>
    rw [unionOperation, if_neg h1, if_pos h2, List.mem_cons, ih]
    simp only [List.mem_cons]
    tauto
  | case5 a as b bs h1 h2 ih =>
    obtain rfl : a = b := by omega
    rw [unionOperation, if_neg h1, if_neg h2, List.mem_cons, ih]
    simp only [List.mem_cons]
    tauto

theorem unionOperation_sorted (as bs : List Nat) (ha : as.Pairwise (· < ·))
    (hb : bs.Pairwise (· < ·)) : (unionOperation as bs).Pairwise (· < ·) := by
  induction as, bs using unionOperation.induct with
  | case1 bs => simpa [unionOperation] using hb
  | case2 a as => simpa [unionOperation] using ha
  | case3 a as b bs h ih =>
    rw [unionOperation, if_pos h, List.pairwise_cons]
    obtain ⟨hb1, hb2⟩ := List.pairwise_cons.mp hb
    refine ⟨fun x hx => ?_, ih ha hb2⟩
    rcases (mem_unionOperation _ _ x).mp hx with hx | hx
    · rcases List.mem_cons.mp hx with rfl | hx
      · exact h
      · exact h.trans (List.rel_of_pairwise_cons ha hx)
    · exact hb1 x hx
  | case4 a as b bs h1 h2 ih =>
    rw [unionOperation, if_neg h1, if_pos h2, List.pairwise_cons]
    obtain ⟨ha1, ha2⟩ := List.pairwise_cons.mp ha
    refine ⟨fun x hx => ?_, ih ha2 hb⟩
    rcases (mem_unionOperation _ _ x).mp hx with hx | hx
    · exact ha1 x hx
    · rcases List.mem_cons.mp hx with rfl | hx
      · exact h2
      · exact h2.trans (List.rel_of_pairwise_cons hb hx)
  | case5 a as b bs h1 h2 ih =>
    obtain rfl : a = b := by omega
    rw [unionOperation, if_neg h1, if_neg h2, List.pairwise_cons]
    obtain ⟨ha1, ha2⟩ := List.pairwise_cons.mp ha
    obtain ⟨hb1, hb2⟩ := List.pairwise_cons.mp hb
    refine ⟨fun x hx => ?_, ih ha2 hb2⟩
    rcases (mem_unionOperation _ _ x).mp hx with hx | hx
    · exact ha1 x hx
    · exact hb1 x hx

theorem mem_dirtyEvents {m : Model} {changed : List Nat} {e : Nat} :
    e ∈ dirtyEvents m changed ↔ ∃ p ∈ changed, e ∈ m.readers p := by
  have hfold : ∀ (ps acc : List Nat),
      e ∈ ps.foldl (fun dirty p => unionOperation dirty (m.readers p)) acc ↔
        e ∈ acc ∨ ∃ p ∈ ps, e ∈ m.readers p := by
    intro ps
    induction ps with
    | nil => simp
    | cons p ps ih =>
      intro acc
      rw [List.foldl_cons, ih, mem_unionOperation, or_assoc]
      simp
  rw [dirtyEvents, hfold]
  simp

theorem readers_sorted (m : Model) (p : Nat) : (m.readers p).Pairwise (· < ·) :=
  List.pairwise_lt_range.filter _

theorem dirtyEvents_sorted (m : Model) (changed : List Nat) :
    (dirtyEvents m changed).Pairwise (· < ·) := by
  have hfold : ∀ (ps acc : List Nat), acc.Pairwise (· < ·) →
      (ps.foldl (fun dirty p => unionOperation dirty (m.readers p)) acc).Pairwise (· < ·) := by
    intro ps
    induction ps with
    | nil => exact fun _ h => h
    | cons p ps ih => exact fun acc h => ih _ (unionOperation_sorted _ _ h (readers_sorted m p))
  exact hfold changed [] List.Pairwise.nil

/-! ## May-fire sets are exact -/

/-- The events whose test holds, ascending; and every test decides. -/
structure MayFire (m : Model) (s : Word) (en : List Nat) : Prop where
  sorted : en.Pairwise (· < ·)
  mem : ∀ e, e ∈ en ↔ quickEnabled m e s = .ok true
  decided : ∀ e < m.events.length, ∃ b, quickEnabled m e s = .ok b

theorem quickEnabled_lt {m : Model} {e : Nat} {s : Word} {b : Bool}
    (h : quickEnabled m e s = .ok b) : e < m.events.length := by
  unfold quickEnabled at h
  split at h
  · cases h
  · next evt hevt => exact (List.getElem?_eq_some_iff.mp hevt).1

section Sets

variable {m : Model} {s : Word}

/-- One tested event in front of the others. -/
theorem mem_tested {b e : Nat} {rest : List Nat} {enabled : Bool}
    (hb : quickEnabled m b s = .ok enabled) :
    e ∈ (if enabled then b :: rest else rest) ↔
      (e = b ∧ quickEnabled m e s = .ok true) ∨ e ∈ rest := by
  cases enabled with
  | true =>
    simp only [if_true, List.mem_cons]
    refine or_congr ⟨?_, And.left⟩ Iff.rfl
    rintro rfl
    exact ⟨rfl, hb⟩
  | false =>
    simp only [Bool.false_eq_true, if_false]
    refine ⟨.inr, fun h => h.resolve_left ?_⟩
    rintro ⟨rfl, hq⟩
    rw [hb] at hq
    cases hq

theorem sorted_tested {b : Nat} {rest : List Nat} {enabled : Bool} (hb : ∀ x ∈ rest, b < x)
    (hrest : rest.Pairwise (· < ·)) :
    (if enabled then b :: rest else rest).Pairwise (· < ·) := by
  cases enabled with
  | true => exact List.pairwise_cons.mpr ⟨hb, hrest⟩
  | false => exact hrest

theorem sweepFrom_spec : ∀ {es en : List Nat}, es.Pairwise (· < ·) → sweepFrom m s es = .ok en →
    en.Pairwise (· < ·) ∧ (∀ e, e ∈ en ↔ e ∈ es ∧ quickEnabled m e s = .ok true) ∧
      ∀ e ∈ es, ∃ b, quickEnabled m e s = .ok b := by
  intro es
  induction es with
  | nil =>
    intro en _ h
    cases h
    simp
  | cons e es ih =>
    intro en hsort h
    obtain ⟨hlt, hsort⟩ := List.pairwise_cons.mp hsort
    obtain ⟨b, hb, h⟩ := bind_eq_ok.mp h
    obtain ⟨rest, hrest, h⟩ := bind_eq_ok.mp h
    obtain ⟨h1, h2, h3⟩ := ih hsort hrest
    cases h
    refine ⟨sorted_tested (fun x hx => hlt x ((h2 x).mp hx).1) h1, fun x => ?_,
      List.forall_mem_cons.mpr ⟨⟨b, hb⟩, h3⟩⟩
    rw [mem_tested hb, h2, List.mem_cons]
    tauto

theorem fullSweep_mayFire {en : List Nat} (h : fullSweep m s = .ok en) : MayFire m s en := by
  obtain ⟨h1, h2, h3⟩ := sweepFrom_spec List.pairwise_lt_range h
  refine ⟨h1, fun e => ?_, fun e he => h3 e (List.mem_range.mpr he)⟩
  rw [h2, List.mem_range]
  exact ⟨And.right, fun hq => ⟨quickEnabled_lt hq, hq⟩⟩

/-- What the merge keeps: the dirty events whose test holds and the clean ones. -/
theorem deriveMerge_spec (en dirty : List Nat) (hen : en.Pairwise (· < ·))
    (hdirty : dirty.Pairwise (· < ·)) {out : List Nat} (h : deriveMerge m s en dirty = .ok out) :
    out.Pairwise (· < ·) ∧
      (∀ e, e ∈ out ↔ (e ∈ dirty ∧ quickEnabled m e s = .ok true) ∨ (e ∈ en ∧ e ∉ dirty)) ∧
      ∀ e ∈ dirty, ∃ b, quickEnabled m e s = .ok b := by
  induction en, dirty using deriveMerge.induct generalizing out with
  | case1 =>
    rw [deriveMerge] at h
    cases h
    simp
  | case2 a en ih =>
    rw [deriveMerge] at h
    obtain ⟨rest, hrest, h⟩ := bind_eq_ok.mp h
    obtain ⟨ha, hen⟩ := List.pairwise_cons.mp hen
    obtain ⟨h1, h2, h3⟩ := ih hen hdirty hrest
    cases h
    refine ⟨List.pairwise_cons.mpr ⟨fun x hx => ha x ?_, h1⟩, fun e => ?_, h3⟩
    · simpa using (h2 x).mp hx
    · simp [h2]
  | case3 b dirty ih =>
    rw [deriveMerge] at h
    obtain ⟨on, hon, h⟩ := bind_eq_ok.mp h
    obtain ⟨rest, hrest, h⟩ := bind_eq_ok.mp h
    obtain ⟨hb, hdirty⟩ := List.pairwise_cons.mp hdirty
    obtain ⟨h1, h2, h3⟩ := ih hen hdirty hrest
    cases h
    have hall : ∀ x ∈ rest, b < x := by
      intro x hx
      rcases (h2 x).mp hx with ⟨hx, -⟩ | ⟨hx, -⟩
      · exact hb x hx
      · cases hx
    refine ⟨sorted_tested hall h1, fun e => ?_, List.forall_mem_cons.mpr ⟨⟨on, hon⟩, h3⟩⟩
    rw [mem_tested hon, h2]
    simp only [List.mem_cons, List.not_mem_nil, false_and, or_false]
    tauto
  | case4 a en b dirty hle ih =>
    rw [deriveMerge, if_pos hle] at h
    obtain ⟨on, hon, h⟩ := bind_eq_ok.mp h
    obtain ⟨rest, hrest, h⟩ := bind_eq_ok.mp h
    obtain ⟨hb, hdirty⟩ := List.pairwise_cons.mp hdirty
    obtain ⟨ha, hen'⟩ := List.pairwise_cons.mp hen
    have hsort : (if a = b then en else a :: en).Pairwise (· < ·) := by
      split
      · exact hen'
      · exact hen
    have hgt : ∀ x ∈ (if a = b then en else a :: en), b < x := by
      intro x hx
      split at hx
      · next heq => exact heq ▸ ha x hx
      · rcases List.mem_cons.mp hx with rfl | hx
        · omega
        · have := ha x hx
          omega
    simp only [dite_eq_ite] at ih
    obtain ⟨h1, h2, h3⟩ := ih hsort hdirty hrest
    cases h
    have hall : ∀ x ∈ rest, b < x := by
      intro x hx
      rcases (h2 x).mp hx with ⟨hx, -⟩ | ⟨hx, -⟩
      · exact hb x hx
      · exact hgt x hx
    have hmem : ∀ e, e ∈ (if a = b then en else a :: en) ↔ e ∈ a :: en ∧ e ≠ b := by
      intro e
      constructor
      · intro he
        refine ⟨?_, Nat.ne_of_gt (hgt e he)⟩
        split at he
        · exact List.mem_cons_of_mem _ he
        · exact he
      · rintro ⟨he, hne⟩
        split
        · next heq =>
          rcases List.mem_cons.mp he with rfl | he
          · exact absurd heq hne
          · exact he
        · exact he
    refine ⟨sorted_tested hall h1, fun e => ?_, List.forall_mem_cons.mpr ⟨⟨on, hon⟩, h3⟩⟩
    rw [mem_tested hon, h2, hmem, List.mem_cons (a := e) (b := b)]
    tauto
  | case5 a en b dirty hlt ih =>
    rw [deriveMerge, if_neg hlt] at h
    obtain ⟨rest, hrest, h⟩ := bind_eq_ok.mp h
    obtain ⟨ha, hen⟩ := List.pairwise_cons.mp hen
    obtain ⟨h1, h2, h3⟩ := ih hen hdirty hrest
    cases h
    have hbelow : ∀ x ∈ b :: dirty, a < x := by
      intro x hx
      rcases List.mem_cons.mp hx with rfl | hx
      · omega
      · have := List.rel_of_pairwise_cons hdirty hx
        omega
    refine ⟨List.pairwise_cons.mpr ⟨fun x hx => ?_, h1⟩, fun e => ?_, h3⟩
    · rcases (h2 x).mp hx with ⟨hx, -⟩ | ⟨hx, -⟩
      · exact hbelow x hx
      · exact ha x hx
    · rw [List.mem_cons, h2, List.mem_cons (a := e) (b := a)]
      constructor
      · rintro (rfl | h | h)
        · exact .inr ⟨.inl rfl, fun hx => Nat.lt_irrefl _ (hbelow _ hx)⟩
        · exact .inl h
        · exact .inr ⟨.inr h.1, h.2⟩
      · rintro (h | ⟨rfl | h, hn⟩)
        · exact .inr (.inl h)
        · exact .inl rfl
        · exact .inr (.inr ⟨h, hn⟩)

/-- The set of a successor, derived from the set of the state. -/
theorem derive_mayFire {s' : Word} {en en' changed : List Nat} (hen : MayFire m s en)
    (hlen : s'.length = s.length) (hsame : ∀ p, p ∉ changed → s'[p]? = s[p]?)
    (h : derive m en changed s' = .ok en') : MayFire m s' en' := by
  obtain ⟨h1, h2, h3⟩ := deriveMerge_spec en _ hen.sorted (dirtyEvents_sorted m changed) h
  -- a clean event reads no changed position
  have hclean : ∀ e, e ∉ dirtyEvents m changed → ∀ b, quickEnabled m e s = .ok b →
      quickEnabled m e s' = .ok b := by
    intro e he b hb
    refine quickEnabled_congr hlen (fun p hp => hsame p fun hc => he ?_) hb
    exact mem_dirtyEvents.mpr ⟨p, hc, hp⟩
  refine ⟨h1, fun e => ?_, fun e he => ?_⟩
  · rw [h2]
    constructor
    · rintro (⟨-, hq⟩ | ⟨hin, hnot⟩)
      · exact hq
      · exact hclean e hnot true ((hen.mem e).mp hin)
    · intro hq
      by_cases hd : e ∈ dirtyEvents m changed
      · exact .inl ⟨hd, hq⟩
      · obtain ⟨b, hb⟩ := hen.decided e (quickEnabled_lt hq)
        have hb' := hclean e hd b hb
        rw [hq] at hb'
        cases hb'
        exact .inr ⟨(hen.mem e).mpr hb, hd⟩
  · by_cases hd : e ∈ dirtyEvents m changed
    · exact h3 e hd
    · obtain ⟨b, hb⟩ := hen.decided e he
      exact ⟨b, hclean e hd b hb⟩

end Sets

/-! ## What a search keeps -/

section Invariants

variable {V : Type} {m : Model} {seeds : List Word} {cap : Nat}
  {visit : V → Nat → Word → Bool × V}

/-- What holds of a search wherever it ends. -/
structure Sound (m : Model) (seeds : List Word) (r : Search V) : Prop where
  store : r.store.Ok
  reach : ∀ w ∈ r.store.rows, m.Reach seeds w

/-- What holds of a search under way: the queue holds the ids that are not
expanded, in the order of the store. -/
structure Searching (m : Model) (seeds : List Word) (cap : Nat) (r : Search V) : Prop where
  sound : Sound m seeds r
  size_le : r.store.size ≤ cap
  le : r.expanded.length ≤ r.store.size
  expanded : r.expanded = r.store.rows.take r.expanded.length
  ids : r.frontier.map Prod.fst = List.range' r.expanded.length (r.store.size - r.expanded.length)
  mayFire : ∀ p ∈ r.frontier, ∀ s, r.store.rows[p.1]? = some s → MayFire m s p.2

/-- An id of 32 bits is enough for what the run can store. -/
def Small (m : Model) (seeds : List Word) (cap : Nat) : Prop :=
  cap + 1 < idBound ∨ ∀ l : List Word, l.Nodup → (∀ w ∈ l, m.Reach seeds w) → l.length < idBound

theorem Small.fits {r : Search V} (hsmall : Small m seeds cap) (hr : Sound m seeds r)
    (hle : r.store.size ≤ cap) {s : Word} (hs : m.Reach seeds s) (hnew : s ∉ r.store.rows) :
    r.store.size + 1 < idBound := by
  rcases hsmall with hcap | hall
  · omega
  · have := hall (r.store.rows ++ [s]) (by
      rw [List.nodup_append]
      refine ⟨hr.store.nodup, List.nodup_singleton s, fun a ha b hb => ?_⟩
      rw [List.mem_singleton.mp hb]
      rintro rfl
      exact hnew ha) (by
      intro w hw
      rcases List.mem_append.mp hw with hw | hw
      · exact hr.reach w hw
      · rw [List.mem_singleton.mp hw]
        exact hs)
    rwa [List.length_append] at this

/-- The result of a part of the search: `good` when it goes on, `bad` when it ended,
which it never does by running forever. -/
def Outcome (good bad : Search V → Prop) : Except (Halt V) (Search V) → Prop
  | .ok r => good r
  | .error (e, r) => e ≠ .endless ∧ bad r

theorem Outcome.bind {good good' bad : Search V → Prop} {x : Except (Halt V) (Search V)}
    {f : Search V → Except (Halt V) (Search V)} (hx : Outcome good bad x)
    (hf : ∀ r, good r → Outcome good' bad (f r)) : Outcome good' bad (x >>= f) := by
  cases x with
  | error h => exact hx
  | ok r => exact hf r hx

theorem Outcome.mono {good good' bad bad' : Search V → Prop} {x : Except (Halt V) (Search V)}
    (hx : Outcome good bad x) (hg : ∀ r, good r → good' r) (hb : ∀ r, bad r → bad' r) :
    Outcome good' bad' x := by
  cases x with
  | error h => exact ⟨hx.1, hb _ hx.2⟩
  | ok r => exact hg r hx

/-- What entering a state does to a search. -/
structure Entered (m : Model) (seeds : List Word) (cap : Nat) (r : Search V) (s : Word)
    (r' : Search V) : Prop where
  searching : Searching m seeds cap r'
  mem : s ∈ r'.store.rows
  rows : r'.store.rows = r.store.rows ∨ (s ∉ r.store.rows ∧ r'.store.rows = r.store.rows ++ [s])
  expanded : r'.expanded = r.expanded
  seeded : r'.seeded = r.seeded

/-- What is left when entering a state ends the search. -/
structure Cut (m : Model) (seeds : List Word) (r : Search V) (s : Word) (r' : Search V) : Prop where
  sound : Sound m seeds r'
  mem : s ∈ r'.store.rows
  grows : r.store.rows <+: r'.store.rows
  seeded : r'.seeded = r.seeded

theorem enter_spec (visit : V → Nat → Word → Bool × V) {r : Search V}
    (hr : Searching m seeds cap r) (hsmall : Small m seeds cap)
    {s : Word} (hs : m.Reach seeds s) {sweep : Except Stop (List Nat)}
    (hsweep : ∀ en, sweep = .ok en → MayFire m s en) :
    Outcome (Entered m seeds cap r s) (Cut m seeds r s) (r.enter cap visit s sweep) := by
  obtain ⟨id, fresh, st, hin, hok, hrow, hcase⟩ := Store.intern_spec hr.sound.store
    (hsmall.fits hr.sound hr.size_le hs)
  unfold Search.enter
  rw [hin]
  rcases hcase with ⟨rfl, rfl⟩ | ⟨rfl, hnew, rfl, hrows⟩
  · exact ⟨hr, List.mem_of_getElem? hrow, .inl rfl, rfl, rfl⟩
  · have hsize : st.size = r.store.size + 1 := by
      rw [Store.size, hrows, List.length_append]
      rfl
    have hreach : ∀ w ∈ st.rows, m.Reach seeds w := by
      intro w hw
      rw [hrows] at hw
      rcases List.mem_append.mp hw with hw | hw
      · exact hr.sound.reach w hw
      · rw [List.mem_singleton.mp hw]
        exact hs
    have hcut : ∀ r' : Search V, r'.store = st → r'.seeded = r.seeded → Cut m seeds r s r' := by
      intro r' hst hseeded
      refine ⟨⟨hst ▸ hok, hst ▸ hreach⟩, ?_, ?_, hseeded⟩
      · rw [hst]
        exact List.mem_of_getElem? hrow
      · rw [hst, hrows]
        exact List.prefix_append _ _
    cases hsw : sweep with
    | error e =>
      cases e with
      | inl err => exact ⟨(fun h => by cases h), hcut _ rfl rfl⟩
      | inr err => exact ⟨(fun h => by cases h), hcut _ rfl rfl⟩
    | ok en =>
      show Outcome _ _ (Search.admitState cap visit _ _ en)
      unfold Search.admitState
      split
      · exact ⟨(fun h => by cases h), hcut _ rfl rfl⟩
      · next hcap =>
        split
        · exact ⟨(fun h => by cases h), hcut _ rfl rfl⟩
        · refine ⟨⟨⟨hok, hreach⟩, Nat.not_lt.mp hcap, ?_, ?_, ?_, ?_⟩,
            List.mem_of_getElem? hrow, .inr ⟨hnew, hrows⟩, rfl, rfl⟩
          · have := hr.le
            simp only
            omega
          · simp only
            rw [hrows, List.take_append_of_le_length hr.le]
            exact hr.expanded
          · simp only [List.map_append, hr.ids, List.map_cons, List.map_nil, hsize]
            have hle := hr.le
            rw [show r.store.size + 1 - r.expanded.length =
              r.store.size - r.expanded.length + 1 by omega, List.range'_concat]
            rw [show r.expanded.length + 1 * (r.store.size - r.expanded.length) =
              r.store.size by omega]
          · intro p hp w hw
            simp only at hw
            rcases List.mem_append.mp hp with hp | hp
            · refine hr.mayFire p hp w ?_
              have hid : p.1 < r.store.rows.length := by
                have hmem := List.mem_map_of_mem (f := Prod.fst) hp
                rw [hr.ids, List.mem_range'] at hmem
                obtain ⟨i, hi, heq⟩ := hmem
                have := hr.le
                have : r.store.size = r.store.rows.length := rfl
                omega
              rw [hrows, List.getElem?_append_left hid] at hw
              exact hw
            · rw [List.mem_singleton.mp hp] at hw ⊢
              rw [hrow] at hw
              cases hw
              exact hsweep en hsw

/-- What every end of the search leaves. -/
structure Ended (m : Model) (seeds : List Word) (r : Search V) : Prop where
  sound : Sound m seeds r
  seeds : ∀ s ∈ seeds.take r.seeded, s ∈ r.store.rows

theorem seedAll_spec (hsmall : Small m seeds cap) : ∀ {rest : List Word} {r : Search V},
    Searching m seeds cap r → r.expanded = [] → seeds.drop r.seeded = rest →
    (∀ w, w ∈ r.store.rows ↔ w ∈ seeds.take r.seeded) →
    Outcome (fun r' => Searching m seeds cap r' ∧ r'.expanded = [] ∧
        ∀ w, w ∈ r'.store.rows ↔ w ∈ seeds)
      (Ended m seeds) (seedAll m cap visit rest r) := by
  intro rest
  induction rest with
  | nil =>
    intro r hr hexp hdrop hmem
    refine ⟨hr, hexp, fun w => ?_⟩
    rw [hmem, List.take_of_length_le (List.drop_eq_nil_iff.mp hdrop)]
  | cons s rest ih =>
    intro r hr hexp hdrop hmem
    have hlt : r.seeded < seeds.length := by
      by_contra hge
      rw [List.drop_eq_nil_of_le (Nat.le_of_not_lt hge)] at hdrop
      cases hdrop
    have hs : seeds[r.seeded]? = some s := by
      have := congrArg List.head? hdrop
      rwa [List.head?_drop, List.head?_cons] at this
    have htake : seeds.take (r.seeded + 1) = seeds.take r.seeded ++ [s] := by
      rw [List.take_add_one, hs]
      rfl
    have hdrop' : seeds.drop (r.seeded + 1) = rest := by
      rw [← List.drop_drop, hdrop]
      rfl
    have hr' : Searching m seeds cap { r with seeded := r.seeded + 1 } :=
      ⟨⟨hr.sound.store, hr.sound.reach⟩, hr.size_le, hr.le, hr.expanded, hr.ids, hr.mayFire⟩
    have henter := enter_spec visit hr' hsmall
      ⟨0, .start (List.mem_of_getElem? hs)⟩ (fun en h => fullSweep_mayFire h)
    refine Outcome.bind (henter.mono (fun _ h => h) ?_) ?_
    · intro r' hcut
      refine ⟨hcut.sound, fun w hw => ?_⟩
      rw [hcut.seeded, htake] at hw
      rcases List.mem_append.mp hw with hw | hw
      · exact List.IsPrefix.subset hcut.grows ((hmem w).mpr hw)
      · rw [List.mem_singleton.mp hw]
        exact hcut.mem
    · intro r' hent
      refine ih hent.searching (hent.expanded.trans hexp) ?_ fun w => ?_
      · rw [hent.seeded]
        exact hdrop'
      · rw [hent.seeded, htake, List.mem_append, List.mem_singleton, ← hmem]
        rcases hent.rows with hrows | ⟨-, hrows⟩
        · rw [hrows]
          refine ⟨.inl, ?_⟩
          rintro (hw | rfl)
          · exact hw
          · rw [← hrows]
            exact hent.mem
        · rw [hrows, List.mem_append, List.mem_singleton]

/-- The search while the state `c`, the last one of the expanded, is under
expansion. -/
structure Expanding (m : Model) (seeds : List Word) (cap : Nat) (c : Word) (r : Search V) :
    Prop where
  searching : Searching m seeds cap r
  current : ∃ h, r.expanded.length = h + 1 ∧ r.store.rows[h]? = some c ∧
    ∃ level, Layered (· ∈ seeds) m.Next r.store.rows h level

theorem Expanding.ended {c : Word} {r r' : Search V} {s : Word} (hr : Expanding m seeds cap c r)
    (hcut : Cut m seeds r s r') : Ended m seeds r' := by
  obtain ⟨h, -, -, level, hl⟩ := hr.current
  refine ⟨hcut.sound, fun w hw => ?_⟩
  exact List.IsPrefix.subset hcut.grows (hl.started w (List.mem_of_mem_take hw)).1

theorem Expanding.entered {c s : Word} {r r' : Search V} (hr : Expanding m seeds cap c r)
    (hnext : m.Next c s) (hent : Entered m seeds cap r s r') : Expanding m seeds cap c r' := by
  obtain ⟨h, hlen, hc, level, hl⟩ := hr.current
  refine ⟨hent.searching, h, by rw [hent.expanded, hlen], ?_⟩
  rcases hent.rows with hrows | ⟨hnew, hrows⟩
  · rw [hrows]
    exact ⟨hc, level, hl⟩
  · rw [hrows, List.getElem?_append_left (List.getElem?_eq_some_iff.mp hc).1]
    exact ⟨hc, _, hl.found hc hnext hnew⟩

theorem Entered.grows {r r' : Search V} {s : Word} (h : Entered m seeds cap r s r') :
    r.store.rows <+: r'.store.rows := by
  rcases h.rows with hrows | ⟨-, hrows⟩
  · exact hrows ▸ List.prefix_refl _
  · exact hrows ▸ List.prefix_append _ _

theorem Expanding.reach {c s : Word} {r : Search V} (hr : Expanding m seeds cap c r)
    (hnext : m.Next c s) : m.Reach seeds s := by
  obtain ⟨h, -, hc, level, hl⟩ := hr.current
  exact ⟨_, .step (hl.reach c (List.mem_of_getElem? hc)) hnext⟩

theorem takeAll_spec (hsmall : Small m seeds cap) {c : Word} {en : List Nat} {e : Nat}
    {all : List Successor} (hen : MayFire m c en) (hfire : fire m e c = .ok all) :
    ∀ {succs : List Successor} {r : Search V}, (∀ sc ∈ succs, sc ∈ all) →
    Expanding m seeds cap c r →
    Outcome (fun r' => Expanding m seeds cap c r' ∧ r.store.rows <+: r'.store.rows ∧
        r'.expanded = r.expanded ∧ ∀ sc ∈ succs, sc.s ∈ r'.store.rows)
      (Ended m seeds) (takeAll m cap visit en succs r) := by
  intro succs
  induction succs with
  | nil =>
    intro r _ hr
    exact ⟨hr, List.prefix_refl _, rfl, by simp⟩
  | cons sc succs ih =>
    intro r hall hr
    obtain ⟨hsc, hall⟩ := List.forall_mem_cons.mp hall
    have hnext : m.Next c sc.s := ⟨e, all, sc, hfire, hsc, rfl⟩
    obtain ⟨hlen, hsame⟩ := fire_changed hfire hsc
    have henter := enter_spec visit hr.searching hsmall (hr.reach hnext)
      (fun en' h => derive_mayFire hen hlen hsame h)
    refine Outcome.bind (henter.mono (fun _ h => h) fun r' hcut => hr.ended hcut) ?_
    intro r1 hent
    refine (ih hall (hr.entered hnext hent)).mono ?_ (fun _ h => h)
    rintro r2 ⟨h1, h2, h3, h4⟩
    refine ⟨h1, hent.grows.trans h2, h3.trans hent.expanded, ?_⟩
    exact List.forall_mem_cons.mpr ⟨List.IsPrefix.subset h2 hent.mem, h4⟩

theorem fireAll_spec (hsmall : Small m seeds cap) {c : Word} {en : List Nat}
    (hen : MayFire m c en) : ∀ {es : List Nat} {r : Search V}, Expanding m seeds cap c r →
    Outcome (fun r' => Expanding m seeds cap c r' ∧ r.store.rows <+: r'.store.rows ∧
        r'.expanded = r.expanded ∧
        ∀ e ∈ es, ∃ succs, fire m e c = .ok succs ∧ ∀ sc ∈ succs, sc.s ∈ r'.store.rows)
      (Ended m seeds) (fireAll m cap visit c en es r) := by
  intro es
  induction es with
  | nil =>
    intro r hr
    exact ⟨hr, List.prefix_refl _, rfl, by simp⟩
  | cons e es ih =>
    intro r hr
    unfold fireAll
    cases hfire : fire m e c with
    | error err =>
      refine ⟨(fun h => nomatch h), hr.searching.sound, fun w hw => ?_⟩
      obtain ⟨h, -, -, level, hl⟩ := hr.current
      exact (hl.started w (List.mem_of_mem_take hw)).1
    | ok succs =>
      have hr' : Expanding m seeds cap c { r with fired := r.fired + succs.length } :=
        ⟨⟨⟨hr.searching.sound.store, hr.searching.sound.reach⟩, hr.searching.size_le,
          hr.searching.le, hr.searching.expanded, hr.searching.ids, hr.searching.mayFire⟩,
          hr.current⟩
      refine Outcome.bind (takeAll_spec hsmall hen hfire (fun _ h => h) hr') ?_
      rintro r1 ⟨h1, h2, h3, h4⟩
      refine (ih h1).mono ?_ (fun _ h => h)
      rintro r2 ⟨h5, h6, h7, h8⟩
      refine ⟨h5, List.IsPrefix.trans h2 h6, h7.trans h3, ?_⟩
      exact List.forall_mem_cons.mpr
        ⟨⟨succs, hfire, fun sc hsc => List.IsPrefix.subset h6 (h4 sc hsc)⟩, h8⟩

/-- With the events of the may-fire set fired no successor is missing. -/
theorem next_of_mayFire (hq : m.QuickNecessary) {c : Word} {en : List Nat} (hen : MayFire m c en)
    {t : Word} (hnext : m.Next c t) :
    ∃ e ∈ en, ∃ succs, fire m e c = .ok succs ∧ ∃ sc ∈ succs, sc.s = t := by
  obtain ⟨e, succs, sc, hfire, hsc, rfl⟩ := hnext
  have hlt : e < m.events.length := by
    unfold fire at hfire
    split at hfire
    · cases hfire
    · next evt hevt => exact (List.getElem?_eq_some_iff.mp hevt).1
  obtain ⟨b, hb⟩ := hen.decided e hlt
  cases b with
  | true => exact ⟨e, (hen.mem e).mpr hb, succs, hfire, sc, hsc, rfl⟩
  | false =>
    rw [hq e c hb] at hfire
    cases hfire
    cases hsc

theorem searchLoop_spec (hq : m.QuickNecessary) (hsmall : Small m seeds cap) :
    ∀ {fuel : Nat} {r : Search V}, Searching m seeds cap r →
    (∃ level, Layered (· ∈ seeds) m.Next r.store.rows r.expanded.length level) →
    cap + 1 ≤ fuel + r.expanded.length →
    Outcome (fun r' => Searching m seeds cap r' ∧ r'.expanded = r'.store.rows ∧
        ∃ level, Layered (· ∈ seeds) m.Next r'.store.rows r'.store.rows.length level)
      (Ended m seeds) (searchLoop m cap visit fuel r) := by
  intro fuel
  induction fuel with
  | zero =>
    intro r hr _ hfuel
    have := hr.le
    have := hr.size_le
    omega
  | succ fuel ih =>
    intro r hr hlay hfuel
    obtain ⟨level, hl⟩ := hlay
    have hids := hr.ids
    have hle := hr.le
    unfold searchLoop
    cases hfront : r.frontier with
    | nil =>
      rw [hfront, List.map_nil, eq_comm, List.range'_eq_nil_iff] at hids
      have heq : r.expanded.length = r.store.rows.length := by
        have : r.store.size = r.store.rows.length := rfl
        omega
      refine ⟨hr, ?_, level, by rw [← heq]; exact hl⟩
      rw [hr.expanded, heq, List.take_length]
    | cons p rest =>
      obtain ⟨id, en⟩ := p
      rw [hfront, List.map_cons] at hids
      have hlt : r.expanded.length < r.store.size := by
        by_contra hge
        rw [show r.store.size - r.expanded.length = 0 by omega] at hids
        cases hids
      rw [show r.store.size - r.expanded.length =
        r.store.size - (r.expanded.length + 1) + 1 by omega, List.range'_succ] at hids
      obtain ⟨hid, hrest⟩ := List.cons.inj hids
      dsimp only at hid
      subst hid
      obtain ⟨c, hc⟩ : ∃ c, r.store.rows[r.expanded.length]? = some c :=
        ⟨_, List.getElem?_eq_getElem hlt⟩
      have hget : r.store.rows.getD r.expanded.length [] = c := by
        rw [List.getD_eq_getElem?_getD, hc]
        rfl
      have hen := hr.mayFire _ (by rw [hfront]; exact List.mem_cons_self ..) c hc
      have hpop : Expanding m seeds cap c
          { r with frontier := rest, expanded := r.expanded ++ [c] } := by
        refine ⟨⟨⟨hr.sound.store, hr.sound.reach⟩, hr.size_le, ?_, ?_, ?_, ?_⟩,
          r.expanded.length, by simp, hc, level, hl⟩
        · simp only [List.length_append, List.length_singleton]
          omega
        · simp only [List.length_append, List.length_singleton]
          rw [List.take_add_one, hc, ← hr.expanded]
          rfl
        · simp only [List.length_append, List.length_singleton]
          exact hrest
        · intro p hp
          exact hr.mayFire p (by rw [hfront]; exact List.mem_cons_of_mem _ hp)
      dsimp only
      rw [hget]
      refine Outcome.bind (fireAll_spec hsmall hen hpop) ?_
      rintro r1 ⟨h1, -, h3, h4⟩
      obtain ⟨h, hlen, hc1, level1, hl1⟩ := h1.current
      refine ih h1.searching ⟨level1, ?_⟩ ?_
      · rw [hlen]
        refine hl1.expanded hc1 fun t hnext => ?_
        obtain ⟨e, he, succs, hfire, sc, hsc, rfl⟩ := next_of_mayFire hq hen hnext
        obtain ⟨succs', hfire', hall⟩ := h4 e he
        rw [hfire] at hfire'
        cases hfire'
        exact hall sc hsc
      · rw [h3]
        simp only [List.length_append, List.length_singleton]
        omega

theorem run_spec (visit : V → Nat → Word → Bool × V) (hq : m.QuickNecessary)
    (hsmall : Small m seeds cap) (v : V) :
    Outcome (fun r' => Searching m seeds cap r' ∧ r'.expanded = r'.store.rows ∧
        (∀ s ∈ seeds, s ∈ r'.store.rows) ∧
        ∃ level, Layered (· ∈ seeds) m.Next r'.store.rows r'.store.rows.length level)
      (Ended m seeds)
      (seedAll m cap visit seeds ⟨Store.empty, [], 0, v, 0, []⟩ >>=
        searchLoop m cap visit (cap + 1)) := by
  have hstart : Searching m seeds cap (⟨Store.empty, [], 0, v, 0, []⟩ : Search V) :=
    ⟨⟨empty_ok, fun w hw => nomatch hw⟩, Nat.zero_le _, Nat.zero_le _, rfl, rfl,
      fun p hp => nomatch hp⟩
  refine Outcome.bind (seedAll_spec hsmall hstart rfl rfl fun w => by simp [Store.empty]) ?_
  rintro r ⟨hr, hexp, hmem⟩
  refine (searchLoop_spec hq hsmall hr ⟨fun _ => 0, ?_⟩ (by omega)).mono ?_ (fun _ h => h)
  · rw [hexp]
    exact layered_start hmem
  · rintro r' ⟨h1, h2, level, hl⟩
    exact ⟨h1, h2, fun s hs => (hl.started s hs).1, level, hl⟩

/-! ## Tests hoisted by the builder -/

/-- The shape of the builder's events: the test is the whole pre-state guard. -/
def Event.Hoisted (evt : Event) : Prop :=
  evt.quick = .btrue ∨ evt.root = .filter evt.quick ∨
    ∃ kids, evt.root = .seq (.filter evt.quick :: kids)

theorem hoisted_necessary (h : ∀ evt ∈ m.events, evt.Hoisted) : m.QuickNecessary := by
  intro e s hquick
  unfold quickEnabled at hquick
  cases hevt : m.events[e]? with
  | none =>
    rw [hevt] at hquick
    cases hquick
  | some evt =>
    rw [hevt] at hquick
    have hno : evalBool s evt.quick = .ok .no := by
      dsimp only at hquick
      split at hquick
      · cases hquick
      · assumption
      · cases hquick
      · cases hquick
    have hfilter : keepDecided evt.quick [⟨s, []⟩] = .ok [] := by
      simp [keepDecided, decideGuard, hno, bind, Except.bind, pure, Except.pure]
    unfold fire
    rw [hevt]
    rcases h evt (List.mem_of_getElem? hevt) with hq | hroot | ⟨kids, hroot⟩
    · rw [hq, evalBool] at hno
      cases hno
    · simp [hroot, interp, hfilter]
    · simp [hroot, interp, interpSeq, hfilter, bind, Except.bind, pure, Except.pure]

end Invariants

/-- The explorer. With status `ok` the store holds the reachable states, each once,
and they were expanded by non-decreasing distance; however the run ends, the store
holds reachable states, each once, among them every seed taken; and no run is
endless. The ids of any run of insertions are dense, stay the place of their state,
and are equal for equal states only. Both as long as 32 bits are enough for the
states stored. -/
theorem run_store_exact {V : Type} (m : Model) (seeds : List Word) (cap : Nat)
    (visit : V → Nat → Word → Bool × V) (v : V) (words : List Word) :
    (m.QuickNecessary → Small m seeds cap → ∀ status r, run m cap visit seeds v = (status, r) →
        (status = none → (∀ w, w ∈ r.store.rows ↔ m.Reach seeds w) ∧ r.expanded = r.store.rows ∧
          r.expanded.Pairwise fun a b => ∀ n, ReachIn (· ∈ seeds) m.Next n b →
            ∃ k ≤ n, ReachIn (· ∈ seeds) m.Next k a) ∧
        r.store.rows.Nodup ∧ (∀ w ∈ r.store.rows, m.Reach seeds w) ∧
        (∀ s ∈ seeds.take r.seeded, s ∈ r.store.rows) ∧ status ≠ some .endless) ∧
    ((∀ l : List Word, l.Nodup → (∀ w ∈ l, w ∈ words) → l.length < idBound) →
      ∃ ids st, Store.empty.internAll words = some (ids, st) ∧
        List.Forall₂ (fun id w => st.rows[id]? = some w) ids words ∧
        (∀ id, id ∈ ids ↔ id < st.size) ∧
        ∀ (i j : Nat), i < words.length → j < words.length →
          (ids[i]? = ids[j]? ↔ words[i]? = words[j]?)) := by
  refine ⟨?_, ?_⟩
  · intro hq hsmall status r hrun
    have hspec := run_spec visit hq hsmall v
    unfold run at hrun
    dsimp only at hrun
    cases hres : (seedAll m cap visit seeds ⟨Store.empty, [], 0, v, 0, []⟩ >>=
      searchLoop m cap visit (cap + 1) : Except (Halt V) (Search V)) with
    | ok r' =>
      rw [hres] at hspec hrun
      cases hrun
      obtain ⟨h1, h2, h3, level, hl⟩ := hspec
      refine ⟨fun _ => ⟨hl.mem_iff, h2, ?_⟩, h1.sound.store.nodup, h1.sound.reach,
        fun s hs => h3 s (List.mem_of_mem_take hs), (fun h => nomatch h)⟩
      rw [h2]
      exact hl.ordered
    | error h =>
      obtain ⟨e, r'⟩ := h
      rw [hres] at hspec hrun
      cases hrun
      refine ⟨(fun h => nomatch h), hspec.2.sound.store.nodup, hspec.2.sound.reach,
        hspec.2.seeds, fun h => hspec.1 (Option.some.inj h)⟩
  · intro hsmall
    obtain ⟨ids, st, h1, hok, -, hfor, hdense⟩ := Store.internAll_spec words empty_ok
      (fun l hl hmem => hsmall l hl fun w hw => (hmem w hw).resolve_left List.not_mem_nil)
    have hrow : ∀ i : Nat, ∀ id w, ids[i]? = some id → words[i]? = some w →
        st.rows[id]? = some w := by
      intro i id w hid hw
      obtain ⟨hi, rfl⟩ := List.getElem?_eq_some_iff.mp hid
      obtain ⟨hi', rfl⟩ := List.getElem?_eq_some_iff.mp hw
      exact List.Forall₂.get hfor hi hi'
    refine ⟨ids, st, h1, hfor, fun id => ⟨fun hid => ?_, fun hid => ?_⟩, fun i j hi hj => ?_⟩
    · obtain ⟨w, -, hw⟩ := forall₂_mem_left hfor hid
      exact (List.getElem?_eq_some_iff.mp hw).1
    · exact (hdense id hid).resolve_left (Nat.not_lt_zero id)
    · have hlen := hfor.length_eq
      obtain ⟨w, hw⟩ : ∃ w, words[i]? = some w := ⟨_, List.getElem?_eq_getElem hi⟩
      obtain ⟨w', hw'⟩ : ∃ w, words[j]? = some w := ⟨_, List.getElem?_eq_getElem hj⟩
      obtain ⟨id, hid⟩ : ∃ id, ids[i]? = some id := ⟨_, List.getElem?_eq_getElem (hlen ▸ hi)⟩
      obtain ⟨id', hid'⟩ : ∃ id, ids[j]? = some id := ⟨_, List.getElem?_eq_getElem (hlen ▸ hj)⟩
      have hr := hrow i id w hid hw
      have hr' := hrow j id' w' hid' hw'
      rw [hid, hid', hw, hw']
      constructor
      · intro h
        cases h
        rw [← hr, ← hr']
      · intro h
        cases h
        have hlt := (List.getElem?_eq_some_iff.mp hr).1
        exact congrArg some ((List.getElem?_inj hlt hok.nodup).mp (hr.trans hr'.symm))

/-- A counter that stops at 2. -/
def smallCounter : Model where
  arity := 1
  events := [{
    name := "up"
    line := 1
    root := .seq [.filter (.cmp .lt (.var 0) (.const 2)),
      .update [.assign ⟨[0], none⟩ (.nary .plus [.var 0, .const 1])]]
    quick := .cmp .lt (.var 0) (.const 2) }]

theorem run_store_exact_smallCounter :
    smallCounter.QuickNecessary ∧ Small smallCounter [[0]] 10 ∧
      (run smallCounter 10 (fun _ _ _ => (false, ())) [[0]] ()).1.isNone ∧
      ∀ w, w ∈ (run smallCounter 10 (fun _ _ _ => (false, ())) [[0]] ()).2.store.rows ↔
        smallCounter.Reach [[0]] w := by
  have hq : smallCounter.QuickNecessary := by
    refine hoisted_necessary fun evt hevt => ?_
    rw [smallCounter, List.mem_singleton] at hevt
    exact .inr (.inr ⟨_, by rw [hevt]⟩)
  have hsmall : Small smallCounter [[0]] 10 := .inl (by decide)
  have hok : (run smallCounter 10 (fun _ _ _ => (false, ())) [[0]] ()).1.isNone := by
    decide +kernel
  refine ⟨hq, hsmall, hok, ?_⟩
  have hexact := (run_store_exact smallCounter [[0]] 10 (fun _ _ _ => (false, ())) () []).1 hq
    hsmall _ _ (Prod.mk.eta).symm
  exact (hexact.1 (Option.isNone_iff_eq_none.mp hok)).1

/-- One word for each machine value but the greatest. -/
def everyValue : List Word :=
  (List.range (idBound - 1)).map fun n : Nat => [(n : Int) - 2147483648]

/-- The state with the last id is not found again: it is stored a second time, under
the id of the first. -/
theorem intern_loses_last_id :
    ∃ ids st, Store.empty.internAll (everyValue ++ [[2147483647], [2147483647]]) =
        some (ids ++ [4294967295, 0], st) ∧ ids.length = 4294967295 := by
  have hlen : everyValue.length = idBound - 1 := by
    rw [everyValue, List.length_map, List.length_range]
  have hnd : everyValue.Nodup := by
    refine List.Nodup.map ?_ List.nodup_range
    intro a b hab
    have := List.cons.inj hab
    omega
  have hnot : [2147483647] ∉ everyValue := by
    intro hmem
    obtain ⟨n, hn, heq⟩ := List.mem_map.mp hmem
    have hn' := List.mem_range.mp hn
    have := (List.cons.inj heq).1
    unfold idBound at hn'
    omega
  have hbound : idBound - 1 = 4294967295 := by decide
  obtain ⟨ids, st, h1, h2⟩ := Store.internAll_limit hnd (by rw [hlen]; decide) hnot
  rw [hlen, hbound] at h1 h2
  exact ⟨ids, st, h1, h2⟩

end LibHSC.Xpl
