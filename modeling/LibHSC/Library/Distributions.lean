import Mathlib.Algebra.Order.Antidiag.FinsuppEquiv
import Mathlib.Data.Set.Card.Arithmetic
import Mathlib.Order.CompletePartialOrder

/-!
Tokens over places: how many ways there are to put `v` tokens on `K` places, when the first
place asks for `d` of them at least, and how many ways there are for a family of such groups.
-/

namespace Distribution

/-- The ways to put `v` tokens on `K` places, at least `d` of them on the first. -/
def ways (K : ℕ) (v : ℤ) (d : ℕ) : Set (Fin K → ℕ) :=
  {f | (∑ p, f p : ℕ) = v ∧ ∀ h : 0 < K, d ≤ f ⟨0, h⟩}

theorem mem_ways {K : ℕ} {v : ℤ} {d : ℕ} {f : Fin K → ℕ} :
    f ∈ ways K v d ↔ (∑ p, f p : ℕ) = v ∧ ∀ h : 0 < K, d ≤ f ⟨0, h⟩ := Iff.rfl

/-- No demand: the functions of a finitely supported antidiagonal. -/
theorem ways_zero (k n : ℕ) :
    ways (k + 1) n 0 = (fun f : Fin (k + 1) →₀ ℕ => ⇑f) ''
      (Finset.finsuppAntidiag Finset.univ n : Finset (Fin (k + 1) →₀ ℕ)) := by
  ext f
  simp only [mem_ways, Nat.cast_inj, Nat.zero_le, implies_true, and_true, Set.mem_image,
    Finset.mem_coe, Finset.mem_finsuppAntidiag]
  constructor
  · intro h
    exact ⟨Finsupp.equivFunOnFinite.symm f, ⟨h, Finset.subset_univ _⟩, rfl⟩
  · rintro ⟨g, ⟨h, -⟩, rfl⟩
    exact h

/-- A demand that can be met is set aside. -/
theorem ways_demand (k n d : ℕ) :
    ways (k + 1) (n + d : ℕ) d =
      (fun f : Fin (k + 1) → ℕ => f + Pi.single 0 d) '' ways (k + 1) n 0 := by
  ext f
  have hsum : ∀ g : Fin (k + 1) → ℕ,
      (∑ p, (g + Pi.single 0 d : Fin (k + 1) → ℕ) p) = (∑ p, g p) + d := by
    intro g
    simp [Finset.sum_add_distrib]
  constructor
  · rintro ⟨h, hd⟩
    have hd : d ≤ f 0 := hd (Nat.succ_pos k)
    have hf : (f - Pi.single 0 d) + Pi.single (0 : Fin (k + 1)) d = f := by
      funext p
      by_cases hp : p = 0
      · subst hp
        simp [Nat.sub_add_cancel hd]
      · simp [hp]
    refine ⟨f - Pi.single 0 d, ⟨?_, fun _ => Nat.zero_le _⟩, hf⟩
    have hadd := hsum (f - Pi.single 0 d)
    rw [hf] at hadd
    have h : (∑ p, f p) = n + d := Nat.cast_injective h
    rw [Nat.cast_inj]
    omega
  · rintro ⟨g, ⟨h, -⟩, rfl⟩
    refine ⟨?_, fun _ => ?_⟩
    · have h : (∑ p, g p) = n := Nat.cast_injective h
      rw [hsum, h]
    · show d ≤ g 0 + (Pi.single (0 : Fin (k + 1)) d : Fin (k + 1) → ℕ) 0
      simp

theorem ways_none {k : ℕ} {v : ℤ} {d : ℕ} (h : v < d) : ways (k + 1) v d = ∅ := by
  refine Set.eq_empty_of_forall_notMem fun f hf => ?_
  have hle : f 0 ≤ ∑ p, f p := Finset.single_le_sum (fun _ _ => Nat.zero_le _) (Finset.mem_univ 0)
  have h1 := hf.1
  have h2 : d ≤ f 0 := hf.2 (Nat.succ_pos k)
  omega

theorem ncard_ways_zero (k n : ℕ) : (ways (k + 1) n 0).ncard = (n + k).choose k := by
  rw [ways_zero, Set.ncard_image_of_injective _ DFunLike.coe_injective, Set.ncard_coe_finset,
    Finset.card_finsuppAntidiag_nat_eq_choose, Finset.card_univ, Fintype.card_fin,
    show k + 1 + n - 1 = k + n by omega, Nat.add_comm n k, Nat.choose_symm_add]

/-- The number of ways, a binomial: compositions of what the demand leaves. -/
theorem ncard_ways {K : ℕ} (hK : 0 < K) (v d : ℕ) :
    (ways K v d).ncard = if d ≤ v then (v - d + (K - 1)).choose (K - 1) else 0 := by
  obtain ⟨k, rfl⟩ : ∃ k, K = k + 1 := ⟨K - 1, by omega⟩
  split
  · next h =>
    obtain ⟨n, rfl⟩ : ∃ n, v = n + d := ⟨v - d, by omega⟩
    rw [ways_demand, Set.ncard_image_of_injective _ (add_left_injective _), ncard_ways_zero,
      Nat.add_sub_cancel]
    rfl
  · next h =>
    rw [ways_none (by omega), Set.ncard_empty]

theorem finite_ways {K : ℕ} (hK : 0 < K) (v : ℤ) (d : ℕ) : (ways K v d).Finite := by
  obtain ⟨k, rfl⟩ : ∃ k, K = k + 1 := ⟨K - 1, by omega⟩
  by_cases h : v < d
  · rw [ways_none h]
    exact Set.finite_empty
  · obtain ⟨n, rfl⟩ : ∃ n : ℕ, v = (n + d : ℕ) := ⟨(v - d).toNat, by omega⟩
    rw [ways_demand, ways_zero]
    exact ((Finset.finite_toSet _).image _).image _

section Groups

variable {n : ℕ} (K : Fin n → ℕ) (d : Fin n → ℕ)

/-- A way for every group, the groups holding the given totals. -/
def groupWays (v : Fin n → ℤ) : Set ((i : Fin n) → Fin (K i) → ℕ) :=
  Set.univ.pi fun i => ways (K i) (v i) (d i)

variable {K d}

theorem finite_groupWays (hK : ∀ i, 0 < K i) (v : Fin n → ℤ) : (groupWays K d v).Finite :=
  Set.Finite.pi fun i => finite_ways (hK i) (v i) (d i)

theorem ncard_groupWays (v : Fin n → ℤ) :
    (groupWays K d v).ncard = ∏ i, (ways (K i) (v i) (d i)).ncard := by
  simp only [Set.ncard, groupWays, Set.encard_pi_eq_prod_encard]
  exact map_prod ENat.toNatHom _ _

/-- The ways tell the totals. -/
theorem groupWays_disjoint {v w : Fin n → ℤ} (h : v ≠ w) :
    Disjoint (groupWays K d v) (groupWays K d w) := by
  refine Set.disjoint_left.mpr fun m hv hw => h (funext fun i => ?_)
  exact (hv i trivial).1.symm.trans (hw i trivial).1

end Groups

end Distribution
