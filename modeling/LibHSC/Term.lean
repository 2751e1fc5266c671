import LibHSC.Support
import LibHSC.Library.Images

/-!
The terms of a sort: what an algebra that reads a term language provides, and
the contract between a term's application and the relation it denotes.
-/

namespace LibHSC

/-- `apply_local` and the two questions asked of a term before applying it. -/
structure TermAlgebra (C τ : Type) where
  isId : τ → Bool
  injective : τ → Bool
  apply : τ → C → Except Err C

/-- Application keeps the representation invariant, and on additive terms it is
the image under the term's relation. -/
structure TermLaws {C W τ : Type} (M : TermAlgebra C τ) (den : C → Set W) (Canon : C → Prop)
    (WF Additive : τ → Prop) (rel : τ → W → W → Prop) : Prop where
  canon_apply : ∀ {t c r}, WF t → Canon c → M.apply t c = .ok r → Canon r
  den_apply : ∀ {t c r}, WF t → Additive t → Canon c → M.apply t c = .ok r →
    den r = post (rel t) (den c)
  isId_rel : ∀ {t}, M.isId t = true → Additive t ∧ rel t = fun v u => v = u
  injective_rel : ∀ {t}, M.injective t = true →
    Additive t ∧ ∀ v v' u, rel t v u → rel t v' u → v = v'

end LibHSC
