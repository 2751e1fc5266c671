import LibHSC.Surface.Parser
import Mathlib.Data.List.Infix

/-!
A ground FSP process and the end of its grounding: the alphabet is completed and what is
hidden becomes hidden moves.

A set and an ordered map of the source are lists in ascending order; an insertion keeps
the order.
-/

namespace LibHSC.Fsp

open Surface

/-- A ground label: names and numerals, in order. -/
abbrev GLabel := List String

scoped instance : LawfulBEq GLabel := inferInstanceAs (LawfulBEq (List String))

/-- One process, grounded. A destination -1 is ERROR. -/
structure GroundLts where
  name : String
  isProperty : Bool
  stateNames : List String
  rel : List (GLabel × List (Int × Int))
  alphabet : List GLabel
  /-- The hidden moves. -/
  tau : List (Int × Int)

/-! ## Ordered sets and maps -/

def setInsert {α : Type} [DecidableEq α] [LT α] [DecidableLT α] (x : α) : List α → List α
  | [] => [x]
  | y :: ys => if x = y then y :: ys else if x < y then x :: y :: ys else y :: setInsert x ys

theorem mem_setInsert {α : Type} [DecidableEq α] [LT α] [DecidableLT α] {x y : α}
    {l : List α} : y ∈ setInsert x l ↔ y = x ∨ y ∈ l := by
  induction l with
  | nil => simp [setInsert]
  | cons z l ih =>
    rw [setInsert]
    split
    · next hz =>
      rw [hz, List.mem_cons]
      constructor
      · exact Or.inr
      · exact fun h => h.elim .inl id
    · split
      · exact List.mem_cons
      · rw [List.mem_cons, ih, List.mem_cons]
        exact or_left_comm

theorem mem_foldl_setInsert {α β : Type} [DecidableEq α] [LT α] [DecidableLT α] (f : β → α)
    {y : α} (bs : List β) : ∀ set : List α,
    y ∈ bs.foldl (fun set b => setInsert (f b) set) set ↔ (∃ b ∈ bs, y = f b) ∨ y ∈ set := by
  induction bs with
  | nil => exact fun set => by simp
  | cons b bs ih =>
    intro set
    rw [List.foldl_cons, ih, mem_setInsert, List.exists_mem_cons_iff, or_assoc]
    exact or_left_comm

/-! ## The end of the grounding -/

/-- The alphabet is what the relation fires and the extension; what a hidden prefix matches
leaves both, its edges become hidden moves. -/
def finishAlphabetAndHiding (out : GroundLts) (extension prefixes : List GLabel) : GroundLts :=
  let alphabet := extension.foldl (fun set l => setInsert l set)
    (out.rel.foldl (fun set x => setInsert x.1 set) out.alphabet)
  let hidden := fun l : GLabel => prefixes.any fun p => p.isPrefixOf l
  if prefixes = [] then { out with alphabet := alphabet }
  else { out with
    rel := out.rel.filter fun x => !hidden x.1
    alphabet := alphabet.filter fun l => !hidden l
    tau := out.tau ++ (out.rel.filter fun x => hidden x.1).flatMap Prod.snd }

end LibHSC.Fsp
