import LibHSC.IntSet
import LibHSC.SetAlgebra
import Mathlib.Logic.Encodable.Basic
import Mathlib.Logic.Equiv.List

/-!
Sorts `V ::= 1 | ⟨A⟩ | (V_h, V_t)` and the diagrams of a sort. Which algebra a
code belongs to is settled by the sort, not carried by the code: `Code`,
`Word`, `algebra`, `den` and `Canon` are read off the shape.

The only theory the library imports is the one of finite integer sets, so a
leaf needs no theory index.
-/

namespace LibHSC

inductive Shape where
  | unit
  | leaf
  | pair (head tail : Shape)
  deriving DecidableEq, Repr

namespace Shape

/-- Number of leaves, left to right: the width of a word of this sort. -/
def width : Shape → Nat
  | .unit => 0
  | .leaf => 1
  | .pair h t => h.width + t.width

end Shape

/-- The words of a sort. -/
def Word : Shape → Type
  | .unit => Unit
  | .leaf => Int
  | .pair h t => Word h × Word t

/-- The values of a word, one per leaf, left to right. -/
def frontier : (s : Shape) → Word s → List Int
  | .unit, _ => []
  | .leaf, v => [v]
  | .pair h t, w => frontier h w.1 ++ frontier t w.2

/-- The codes of a sort: at `1` the terminal (`true`) and absence, at a leaf a
finite set, at a pair a node. -/
def Code : Shape → Type
  | .unit => Bool
  | .leaf => IntSet
  | .pair h t => List (Arc (Code h) (Code t))

instance decEqCode : (s : Shape) → DecidableEq (Code s)
  | .unit => inferInstanceAs (DecidableEq Bool)
  | .leaf => inferInstanceAs (DecidableEq IntSet)
  | .pair h t =>
    have := decEqCode h
    have := decEqCode t
    inferInstanceAs (DecidableEq (List (Arc (Code h) (Code t))))

/-- The diagrams of sort `1`: the early exits of the engine are all there is. -/
def unitAlgebra (num : Bool → Nat) : SupportAlgebra Bool where
  none := false
  num := num
  join a b := if a = false then b else if b = false then a else a
  meet a b := if a = false ∨ b = false then false else a
  minus a b := if a = false ∨ b = false then a else false

/-- The ids the intern tables hand out in one run. A value keeps the id it was
given first, so one numbering serves the whole run. -/
structure Numbering where
  num : (s : Shape) → Code s → Nat
  inj : (s : Shape) → Function.Injective (num s)

/-- The algebra of a sort: an imported theory, or diagrams. -/
def algebra (N : Numbering) : (s : Shape) → SupportAlgebra (Code s)
  | .unit => unitAlgebra (N.num .unit)
  | .leaf => IntSet.algebra (N.num .leaf)
  | .pair h t => pairAlgebra (algebra N h) (algebra N t) (N.num (.pair h t))

/-- The words of a code. -/
def den : (s : Shape) → Code s → Set (Word s)
  | .unit, c => {_w : Unit | c = true}
  | .leaf, c => IntSet.den c
  | .pair h t, c => nodeDen (den h) (den t) c

/-- The representation invariant, at every level of a code. -/
def Canon (N : Numbering) : (s : Shape) → Code s → Prop
  | .unit, _ => True
  | .leaf, c => IntSet.Canon c
  | .pair h t, c => NodeCanon (algebra N h) (algebra N t) (den h) (Canon N h) (Canon N t) c

theorem mem_den_unit {c : Bool} {w : Word .unit} : w ∈ den .unit c ↔ c = true := Iff.rfl

theorem unitLaws {num : Bool → Nat} (hn : Function.Injective num) :
    SupportLaws (unitAlgebra num) (den .unit) fun _ => True where
  num_inj := hn
  canon_none := trivial
  den_none := by ext w; simp [mem_den_unit, unitAlgebra]
  ext := fun _ _ h => Bool.eq_iff_iff.mpr (Set.ext_iff.mp h ())
  canon_join := fun _ _ => trivial
  den_join := by
    intro a b _ _
    ext w
    cases a <;> cases b <;> simp [mem_den_unit, unitAlgebra]
  canon_meet := fun _ _ => trivial
  den_meet := by
    intro a b _ _
    ext w
    cases a <;> cases b <;> simp [mem_den_unit, unitAlgebra]
  canon_minus := fun _ _ => trivial
  den_minus := by
    intro a b _ _
    ext w
    cases a <;> cases b <;> simp [mem_den_unit, unitAlgebra]

/-- Every sort exports a lawful support algebra. By induction on the sort: the
composite case is `pairLaws`. -/
theorem laws (N : Numbering) : (s : Shape) → SupportLaws (algebra N s) (den s) (Canon N s)
  | .unit => unitLaws (N.inj .unit)
  | .leaf => IntSet.laws (N.inj .leaf)
  | .pair h t => pairLaws (laws N h) (laws N t) (N.inj (.pair h t))

/-! ## A numbering -/

def Arc.toProd {C D : Type} : Arc C D ≃ C × D where
  toFun a := (a.prime, a.sub)
  invFun p := ⟨p.1, p.2⟩
  left_inv _ := rfl
  right_inv _ := rfl

instance encodableCode : (s : Shape) → Encodable (Code s)
  | .unit => inferInstanceAs (Encodable Bool)
  | .leaf => inferInstanceAs (Encodable (List Int))
  | .pair h t =>
    have := encodableCode h
    have := encodableCode t
    have : Encodable (Arc (Code h) (Code t)) := Encodable.ofEquiv _ Arc.toProd
    inferInstanceAs (Encodable (List (Arc (Code h) (Code t))))

/-- Codes are finite trees of integers: there is a numbering of them. -/
def Numbering.standard : Numbering where
  num _ c := Encodable.encode c
  inj _ := Encodable.encode_injective

end LibHSC
