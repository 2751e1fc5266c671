import Mathlib.Data.List.Nodup
import Mathlib.Logic.Function.Basic

/-!
Intrusive lists: the cells of a store linked by a field of their own. The links
are a function from a cell to the next one, a write to the field of one cell is
`Function.update`. A list linked both ways is two chains, one of them reversed.
-/

namespace Links

variable {α : Type} {next : α → Option α}

/-- From `head` the links lead through the cells of the list and on to `tail`. -/
def Seg (next : α → Option α) : Option α → List α → Option α → Prop
  | head, [], tail => head = tail
  | head, s :: l, tail => head = some s ∧ Seg next (next s) l tail

/-- A segment that ends in the null link. -/
def Chain (next : α → Option α) (head : Option α) (l : List α) : Prop := Seg next head l none

theorem seg_append {head tail : Option α} {l₁ l₂ : List α} :
    Seg next head (l₁ ++ l₂) tail ↔ ∃ mid, Seg next head l₁ mid ∧ Seg next mid l₂ tail := by
  induction l₁ generalizing head with
  | nil => simp [Seg]
  | cons s l ih =>
    simp only [List.cons_append, Seg, ih]
    constructor
    · rintro ⟨rfl, mid, h₁, h₂⟩
      exact ⟨mid, ⟨rfl, h₁⟩, h₂⟩
    · rintro ⟨mid, ⟨rfl, h₁⟩, h₂⟩
      exact ⟨rfl, mid, h₁, h₂⟩

theorem Seg.congr {next' : α → Option α} {head tail : Option α} {l : List α}
    (h : Seg next head l tail) (heq : ∀ s ∈ l, next' s = next s) : Seg next' head l tail := by
  induction l generalizing head with
  | nil => exact h
  | cons s l ih =>
    obtain ⟨rfl, h⟩ := h
    refine ⟨rfl, ?_⟩
    rw [heq s List.mem_cons_self]
    exact ih h fun t ht => heq t (List.mem_cons_of_mem _ ht)

theorem Seg.head_eq {head tail : Option α} {l : List α} (h : Seg next head l tail) :
    head = l.head?.or tail := by
  cases l with
  | nil => exact h
  | cons s l => exact h.1

theorem Chain.head_eq {head : Option α} {l : List α} (h : Chain next head l) :
    head = l.head? := by
  have := Seg.head_eq h
  rwa [Option.or_none] at this

/-- What a member links to is what stands behind it. -/
theorem Chain.next_eq {head : Option α} {l₁ l₂ : List α} {s : α}
    (h : Chain next head (l₁ ++ s :: l₂)) : next s = l₂.head? := by
  obtain ⟨_, -, -, h⟩ := seg_append.mp h
  exact Chain.head_eq h

variable [DecidableEq α]

theorem Seg.update_of_notMem {head tail : Option α} {l : List α} {s : α} {x : Option α}
    (h : Seg next head l tail) (hs : s ∉ l) : Seg (Function.update next s x) head l tail := by
  refine h.congr fun t ht => ?_
  refine Function.update_of_ne ?_ _ _
  rintro rfl
  exact hs ht

/-- The last link of a segment can be bent elsewhere. -/
theorem Seg.bend {head tail : Option α} {l : List α} {p : α} (x : Option α)
    (h : Seg next head (l ++ [p]) tail) (hp : p ∉ l) :
    Seg (Function.update next p x) head (l ++ [p]) x := by
  obtain ⟨mid, h₁, rfl, -⟩ := seg_append.mp h
  refine seg_append.mpr ⟨some p, h₁.update_of_notMem hp, rfl, ?_⟩
  exact Function.update_self ..

/-- A cell put before the first. -/
theorem Chain.push {head : Option α} {l : List α} {s : α} (h : Chain next head l) (hs : s ∉ l) :
    Chain (Function.update next s head) (some s) (s :: l) := by
  refine ⟨rfl, ?_⟩
  rw [Function.update_self]
  exact Seg.update_of_notMem h hs

/-- The links after the cell whose predecessor is `p` was taken out: the
predecessor, when there is one, links past it. -/
def skip (next : α → Option α) (p : Option α) (x : Option α) : α → Option α :=
  match p with
  | none => next
  | some p => Function.update next p x

/-- Where a list starts after its cell with predecessor `p` was taken out. -/
def skipHead (head : Option α) (p : Option α) (x : Option α) : Option α :=
  match p with
  | none => x
  | some _ => head

/-- A member taken out. -/
theorem Chain.unlink {head : Option α} {l₁ l₂ : List α} {s : α}
    (h : Chain next head (l₁ ++ s :: l₂)) (hnd : (l₁ ++ s :: l₂).Nodup) :
    Chain (skip next l₁.getLast? (next s)) (skipHead head l₁.getLast? (next s)) (l₁ ++ l₂) := by
  obtain ⟨mid, h₁, rfl, h₂⟩ := seg_append.mp h
  rcases List.eq_nil_or_concat l₁ with rfl | ⟨l, p, rfl⟩
  · exact h₂
  · rw [List.concat_eq_append] at *
    rw [List.getLast?_concat]
    have hp : p ∉ l := by
      have := (List.nodup_append.mp hnd).1
      have := (List.nodup_append.mp this).2.2
      exact fun hm => this p hm p (List.mem_singleton.mpr rfl) rfl
    have hp₂ : p ∉ l₂ := by
      have := (List.nodup_append.mp hnd).2.2
      exact fun hm => this p (by simp) p (List.mem_cons_of_mem _ hm) rfl
    exact seg_append.mpr ⟨next s, h₁.bend _ hp, Seg.update_of_notMem h₂ hp₂⟩

/-- A cell put behind the last. -/
theorem Chain.snoc {head : Option α} {l : List α} {s : α} (h : Chain next head l) (hnd : l.Nodup)
    (hs : s ∉ l) : Chain (skip (Function.update next s none) l.getLast? (some s))
      (skipHead head l.getLast? (some s)) (l ++ [s]) := by
  have hnull : Function.update next s none s = none := Function.update_self ..
  rcases List.eq_nil_or_concat l with rfl | ⟨l, p, rfl⟩
  · exact ⟨rfl, hnull⟩
  · rw [List.concat_eq_append] at *
    rw [List.getLast?_concat]
    have hp : p ∉ l := by
      have := (List.nodup_append.mp hnd).2.2
      exact fun hm => this p hm p (List.mem_singleton.mpr rfl) rfl
    have hps : s ≠ p := by
      rintro rfl
      exact hs (by simp)
    have hseg := Seg.update_of_notMem (x := none) h hs
    refine seg_append.mpr ⟨some s, hseg.bend _ hp, rfl, ?_⟩
    exact (Function.update_of_ne hps _ _).trans hnull

end Links
