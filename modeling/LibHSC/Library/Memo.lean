import Mathlib.Data.List.Basic

/-!
Tables of answers. A question is answered from the table when its key is there, and the
answer is computed and stored otherwise. `P k v` says that `v` is right for every question of
key `k`; a table is sound when all it holds is right, and a computation that asks through the
table gives what it would give without one.
-/

namespace Memo

variable {K V : Type}

/-- Every answer of the table is right for its key. -/
def Sound (P : K → V → Prop) (t : List (K × V)) : Prop := ∀ p ∈ t, P p.1 p.2

theorem sound_nil {P : K → V → Prop} : Sound P [] := fun _ h => nomatch h

section Remember

variable [DecidableEq K]

def find (t : List (K × V)) (k : K) : Option V := (t.find? fun p => p.1 = k).map Prod.snd

/-- Answered from the table, or computed and stored. -/
def remember (k : K) (compute : List (K × V) → V × List (K × V)) (t : List (K × V)) :
    V × List (K × V) :=
  match find t k with
  | some v => (v, t)
  | none => ((compute t).1, (k, (compute t).1) :: (compute t).2)

theorem Sound.find {P : K → V → Prop} {t : List (K × V)} (h : Sound P t) {k : K} {v : V}
    (hf : find t k = some v) : P k v := by
  obtain ⟨p, hp, rfl⟩ := Option.map_eq_some_iff.mp hf
  have hk : p.1 = k := by simpa using List.find?_some hp
  exact hk ▸ h p (List.mem_of_find?_eq_some hp)

end Remember

/-- From a sound table the computation gives a value with the property, and a sound table. -/
def Gives (P : K → V → Prop) {A : Type} (Q : A → Prop) (c : List (K × V) → A × List (K × V)) :
    Prop :=
  ∀ t, Sound P t → Q (c t).1 ∧ Sound P (c t).2

variable {P : K → V → Prop} {A B : Type} {Q : A → Prop} {R : B → Prop}

theorem gives_pure {a : A} (h : Q a) : Gives P Q fun t => (a, t) := fun _ ht => ⟨h, ht⟩

theorem Gives.bind {c : List (K × V) → A × List (K × V)} {d : A → List (K × V) → B × List (K × V)}
    (hc : Gives P Q c) (hd : ∀ a, Q a → Gives P R (d a)) : Gives P R
      fun t => d (c t).1 (c t).2 := by
  intro t ht
  obtain ⟨hq, hs⟩ := hc t ht
  exact hd _ hq _ hs

/-- A right computation stays right behind the table. -/
theorem gives_remember [DecidableEq K] {k : K} {compute : List (K × V) → V × List (K × V)}
    (h : Gives P (P k) compute) : Gives P (P k) (remember k compute) := by
  intro t ht
  unfold remember
  split
  · next v hv => exact ⟨ht.find hv, ht⟩
  · obtain ⟨hv, hs⟩ := h t ht
    exact ⟨hv, List.forall_mem_cons.mpr ⟨hv, hs⟩⟩

end Memo
