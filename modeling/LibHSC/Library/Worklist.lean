import Mathlib.Logic.Relation
import Mathlib.Data.List.Nodup
import Mathlib.Data.List.Range
import Mathlib.Data.Set.Basic

/-!
Worklists over a graph given by its rows. A loop has one rule, of an invariant
and a variant; so has a sweep, that starts a body at every vertex no earlier
body has marked. A marked set that is closed under the rows is a union of
components, so a start in the component of an unmarked vertex is unmarked.
-/

namespace Worklist

/-! ## Loops -/

section Loop

variable {σ : Type} (step : σ → Option σ)

/-- Step until there is none; `none` is out of fuel. -/
def loop : Nat → σ → Option σ
  | 0, _ => none
  | fuel + 1, s =>
    match step s with
    | none => some s
    | some s' => loop fuel s'

variable {step} (Inv : σ → Prop) (variant : σ → Nat)

/-- A step keeps the invariant and makes the variant less: the loop ends where
there is no step, with the invariant. -/
theorem loop_spec (hstep : ∀ s s', Inv s → step s = some s' → Inv s' ∧ variant s' < variant s) :
    ∀ {fuel : Nat} {s : σ}, Inv s → variant s < fuel →
      ∃ s', loop step fuel s = some s' ∧ Inv s' ∧ step s' = none := by
  intro fuel
  induction fuel with
  | zero => intro s _ h; exact absurd h (Nat.not_lt_zero _)
  | succ fuel ih =>
    intro s hs hlt
    rw [loop]
    cases h : step s with
    | none => exact ⟨s, rfl, hs, h⟩
    | some s' =>
      obtain ⟨hs', hless⟩ := hstep s s' hs h
      exact ih hs' (by omega)

end Loop

section Sweep

variable {σ ν : Type} (marked : σ → ν → Bool) (body : σ → ν → Option σ)

/-- The body at every vertex that is not marked when its turn comes. -/
def sweep : List ν → σ → Option σ
  | [], s => some s
  | v :: vs, s =>
    if marked s v then sweep vs s
    else
      match body s v with
      | none => none
      | some s' => sweep vs s'

variable {body} {Inv : σ → Prop} {U : ν → Prop}

/-- A body that returns, keeps the invariant and every mark, and marks the vertex
it starts at: the sweep returns with every vertex marked. -/
theorem sweep_spec
    (hbody : ∀ s v, U v → Inv s → marked s v = false → ∃ s', body s v = some s' ∧ Inv s' ∧
      marked s' v = true ∧ ∀ w, marked s w = true → marked s' w = true) :
    ∀ {vs : List ν} {s : σ}, (∀ v ∈ vs, U v) → Inv s →
      ∃ s', sweep marked body vs s = some s' ∧ Inv s' ∧ (∀ v ∈ vs, marked s' v = true) ∧
        ∀ w, marked s w = true → marked s' w = true := by
  intro vs
  induction vs with
  | nil =>
    intro s _ hs
    exact ⟨s, rfl, hs, by simp, fun _ h => h⟩
  | cons v vs ih =>
    intro s hU hs
    obtain ⟨hv, hvs⟩ := List.forall_mem_cons.mp hU
    rw [sweep]
    cases hm : marked s v with
    | true =>
      obtain ⟨s', h1, h2, h3, h4⟩ := ih hvs hs
      exact ⟨s', h1, h2, List.forall_mem_cons.mpr ⟨h4 v hm, h3⟩, h4⟩
    | false =>
      obtain ⟨s₁, hb, hs₁, hmark, hkeep⟩ := hbody s v hv hs hm
      obtain ⟨s', h1, h2, h3, h4⟩ := ih hvs hs₁
      simp only [hb]
      exact ⟨s', h1, h2, List.forall_mem_cons.mpr ⟨h4 v hmark, h3⟩, fun w hw => h4 w (hkeep w hw)⟩

end Sweep

/-! ## Components -/

section Graph

variable {α : Type} (row : α → List α)

/-- From a vertex along the rows. -/
def Reach : α → α → Prop := Relation.ReflTransGen fun v w => w ∈ row v

/-- The rows of a set lead nowhere else. -/
def Closed (S : Set α) : Prop := ∀ v ∈ S, ∀ w ∈ row v, w ∈ S

variable {row} {S : Set α} {v w : α}

theorem Reach.refl (v : α) : Reach row v v := Relation.ReflTransGen.refl

theorem Reach.trans {u : α} (h : Reach row u v) (h' : Reach row v w) : Reach row u w :=
  Relation.ReflTransGen.trans h h'

theorem Reach.step (h : Reach row v w) {x : α} (hx : x ∈ row w) : Reach row v x :=
  Relation.ReflTransGen.tail h hx

theorem Reach.symm (hsymm : ∀ v w, w ∈ row v → v ∈ row w) (h : Reach row v w) : Reach row w v := by
  induction h with
  | refl => exact .refl _
  | tail _ hstep ih => exact (Reach.step (.refl _) (hsymm _ _ hstep)).trans ih

theorem Closed.reach (hc : Closed row S) (hv : v ∈ S) (h : Reach row v w) : w ∈ S := by
  induction h with
  | refl => exact hv
  | tail _ hstep ih => exact hc _ ih _ hstep

/-- The component of a vertex outside a closed set lies outside. -/
theorem Closed.fresh (hc : Closed row S) (hsymm : ∀ v w, w ∈ row v → v ∈ row w) (hv : v ∉ S)
    (h : Reach row v w) : w ∉ S :=
  fun hw => hv (hc.reach hw (h.symm hsymm))

end Graph

/-- A listing without repetition of all numbers below `n`. -/
theorem perm_range {n : Nat} {out : List Nat} (hnd : out.Nodup) (hlt : ∀ v ∈ out, v < n)
    (hall : ∀ v < n, v ∈ out) : out.Perm (List.range n) := by
  refine (List.perm_ext_iff_of_nodup hnd List.nodup_range).mpr fun v => ?_
  rw [List.mem_range]
  exact ⟨hlt v, hall v⟩

/-- The elements of `l` in the order of a listing of its positions. -/
def relist {α : Type} (l : List α) (listing : List Nat) : List α := listing.filterMap (l[·]?)

theorem relist_range {α : Type} (l : List α) : relist l (List.range l.length) = l := by
  induction l with
  | nil => rfl
  | cons a l ih =>
    rw [relist, List.length_cons, List.range_succ_eq_map, List.filterMap_cons]
    simp only [List.getElem?_cons_zero, List.filterMap_map, List.cons.injEq, true_and]
    exact ih

/-- A listing of all positions lists every element once. -/
theorem relist_perm {α : Type} {l : List α} {listing : List Nat}
    (h : listing.Perm (List.range l.length)) : (relist l listing).Perm l :=
  (h.filterMap _).trans (.of_eq (relist_range l))

end Worklist
