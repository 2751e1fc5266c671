import LibHSC.Surface.CegarExact
import LibHSC.Surface.Session
import LibHSC.Cegar.Soundness

/-!
What the certified loop and the checker of its certificates say of the words a specification
reaches. Both work on the product the bridge builds; while no leaf has more than 65536 distinct
graphs, that product is the explicit engine's model.
-/

namespace LibHSC.Surface

open Lia Xpl

/-- The word has the property: every atom holds. -/
def HasProperty (atoms : List BExpr) (w : Xpl.Word) : Prop :=
  ∀ b ∈ atoms, Xpl.evalBool w b = .ok .yes

section Certified

variable {R : ExprIds} {s : Spec} {atoms : List Datum} {out : CegarBridge} {x : Xpl.Model}
  {batoms : List BExpr} {tuples : List (List Nat)}

theorem CegarBridge.Exact.safe (hex : out.Exact x batoms tuples)
    (hgood : ∀ st, out.model.Reachable st → out.model.isBad st = false) {w : Xpl.Word}
    (hw : x.Reach [out.seed] w) : ¬ HasProperty batoms w := by
  obtain ⟨st, hst, rfl⟩ := (hex.reach w).mpr hw
  intro hall
  have hbad := (hex.bad st hst).mpr hall
  rw [hgood st hst] at hbad
  cases hbad

theorem CegarBridge.Exact.unsafeWord (hex : out.Exact x batoms tuples) {st : List Nat}
    (hst : out.model.Reachable st) (hbad : out.model.isBad st = true) :
    x.Reach [out.seed] (valuation out.model st) ∧ HasProperty batoms (valuation out.model st) :=
  ⟨(hex.reach _).mp ⟨st, hst, rfl⟩, (hex.bad st hst).mp hbad⟩

end Certified

/-- The counter and its flag at these values. -/
def flagAtoms (x y : String) : List Datum :=
  [.list [.atom "==" 5, .atom "x" 5, .atom x 5] 5, .list [.atom "==" 5, .atom "y" 5, .atom y 5] 5]

/-- What the loop answers on the counter with a flag. -/
def flagAnswer (atoms : List Datum) : Option (Cegar.Kind × List Int) :=
  match buildCegarModel ⟨fun _ => 0, fun _ => 0⟩ counterAndFlag atoms with
  | .error _ => none
  | .ok out =>
    match Cegar.run out.model ⟨.all, false, true, 100⟩ 40 with
    | .error _ => none
    | .ok r => some (r.v.k, r.finalValues)

theorem flagAnswer_eq {atoms : List Datum} {k : Cegar.Kind} {values : List Int}
    (h : flagAnswer atoms = some (k, values)) :
    ∃ out r, buildCegarModel ⟨fun _ => 0, fun _ => 0⟩ counterAndFlag atoms = .ok out ∧
      Cegar.run out.model ⟨.all, false, true, 100⟩ 40 = .ok r ∧ r.v.k = k ∧
        r.finalValues = values := by
  unfold flagAnswer at h
  split at h
  · cases h
  · next out hout =>
    split at h
    · cases h
    · next r hr =>
      obtain ⟨rfl, rfl⟩ := Prod.mk.inj (Option.some.inj h)
      exact ⟨out, r, hout, hr, rfl, rfl⟩

/-- A document the checker accepts: no word the specification reaches has the property it
names, if no leaf is given a table that rejects one of its traces by an alias. -/
theorem certcheck_verdict {T : Type} (E : Engines T) {s : Spec} (hfew : FewLetters E.ids s)
    {forms items : List Datum} {lines : List String}
    (hselect : (Cegar.gather forms).select = some items)
    (h : Cegar.certcheck (bridgeOf E s) forms = .ok (0, lines)) :
    ∃ out x batoms, buildCegarModel E.ids s (items.drop 1) = .ok out ∧ s.xpl E.ids = .ok x ∧
      s.seeds E.ids = .ok [out.seed] ∧
      (items.drop 1).mapM (readBool E.ids s.scope) = .ok batoms ∧
      ((Cegar.gather forms).AliasesIncluded out.model →
        ∀ w, x.Reach [out.seed] w → ¬ HasProperty batoms w) := by
  cases hout : buildCegarModel E.ids s (items.drop 1) with
  | error e =>
    simp only [Cegar.certcheck, hselect, bridgeOf, hout] at h
    cases h
  | ok out =>
    simp only [Cegar.certcheck, hselect, bridgeOf, hout, Except.ok.injEq] at h
    obtain ⟨doms, batoms, compiled, tuples, hbuilt⟩ := buildCegarModel_built hout
    obtain ⟨x, hx, hex⟩ := hbuilt.isomorphic hfew
    exact ⟨out, x, batoms, rfl, hx, hbuilt.seeds, hbuilt.read, fun halias _ hw =>
      hex.safe (Cegar.checkModel_sound hbuilt.wf halias (congrArg Prod.fst h)) hw⟩

end LibHSC.Surface
