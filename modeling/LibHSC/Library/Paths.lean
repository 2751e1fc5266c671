import Mathlib.Data.Finite.Defs
import Mathlib.Data.Fintype.Card
import Mathlib.Data.Set.Finite.Basic
import Mathlib.Order.WellFounded
import Mathlib.Data.Fintype.EquivFin
import Mathlib.Order.RelClasses
import Mathlib.Data.Finset.Basic

/-!
Maximal paths of a transition relation: a path goes on as long as it can, and a
state without successor ends it. The path properties of branching time are stated
on them, and each is turned into what an iteration over sets computes: a chain for
the untils, a closed set for the properties that hold all along.
-/

namespace LibHSC.Paths

variable {σ : Type} (step : σ → σ → Prop)

/-- No step leaves the state. -/
def Stuck (x : σ) : Prop := ∀ y, ¬ step x y

/-- A path from `s` that ends only in a stuck state. -/
structure MaxPath (s : σ) (π : Nat → Option σ) : Prop where
  start : π 0 = some s
  step_or_end : ∀ n x, π n = some x →
    (∃ y, π (n + 1) = some y ∧ step x y) ∨ (Stuck step x ∧ π (n + 1) = none)
  stays_ended : ∀ n, π n = none → π (n + 1) = none

/-- The path has an `n`-th state, and `P` holds there. -/
def At (π : Nat → Option σ) (n : Nat) (P : σ → Prop) : Prop := ∃ x, π n = some x ∧ P x

def Globally (P : σ → Prop) (π : Nat → Option σ) : Prop := ∀ n x, π n = some x → P x

def Until (P Q : σ → Prop) (π : Nat → Option σ) : Prop :=
  ∃ n, At π n Q ∧ ∀ m, m < n → At π m P

/-- No until: wherever the path is, the goal fails or the way to it failed before. -/
def NotUntil (P Q : σ → Prop) (π : Nat → Option σ) : Prop :=
  ∀ n x, π n = some x → Q x ∨ ∃ m, m < n ∧ At π m P

variable {step} {s t : σ} {π : Nat → Option σ} {P Q P' Q' : σ → Prop}

theorem At.mono (hP : ∀ x, P x → P' x) {n : Nat} (h : At π n P) : At π n P' := by
  obtain ⟨x, hx, hp⟩ := h
  exact ⟨x, hx, hP x hp⟩

theorem Globally.mono (hP : ∀ x, P x → P' x) (h : Globally P π) : Globally P' π :=
  fun n x hx => hP x (h n x hx)

theorem Until.mono (hP : ∀ x, P x → P' x) (hQ : ∀ x, Q x → Q' x) (h : Until P Q π) :
    Until P' Q' π := by
  obtain ⟨n, hn, hm⟩ := h
  exact ⟨n, hn.mono hQ, fun m hlt => (hm m hlt).mono hP⟩

/-- A state of the path has a state at each place before it. -/
theorem MaxPath.defined_before (h : MaxPath step s π) {n : Nat} {x : σ} (hx : π n = some x)
    {m : Nat} (hm : m ≤ n) : ∃ y, π m = some y := by
  cases hy : π m with
  | some y => exact ⟨y, rfl⟩
  | none =>
    have hnone : ∀ k, π (m + k) = none := by
      intro k
      induction k with
      | zero => exact hy
      | succ k ih => exact h.stays_ended _ ih
    have := hnone (n - m)
    rw [Nat.add_sub_cancel' hm, hx] at this
    cases this

/-! ## The duals -/

/-- What fails the way and the goal at once, after goals that all fail, is what is
left when no until holds; otherwise the goals fail all along. -/
theorem notUntil_iff (h : MaxPath step s π) :
    NotUntil P Q π ↔ Until Q (fun x => P x ∧ Q x) π ∨ Globally Q π := by
  constructor
  · intro hno
    by_cases hall : Globally Q π
    · exact .inr hall
    · left
      unfold Globally at hall
      push Not at hall
      -- the first place where the goal does not fail
      have hex : ∃ n, ∃ x, π n = some x ∧ ¬ Q x := hall
      classical
      obtain ⟨x, hx, hnq⟩ := Nat.find_spec hex
      have hbefore : ∀ m, m < Nat.find hex → At π m Q := by
        intro m hm
        obtain ⟨y, hy⟩ := h.defined_before hx hm.le
        refine ⟨y, hy, ?_⟩
        by_contra hq
        exact Nat.find_min hex hm ⟨y, hy, hq⟩
      obtain ⟨m, hm, y, hy, hp⟩ := (hno _ x hx).resolve_left hnq
      obtain ⟨z, hz, hq⟩ := hbefore m hm
      obtain rfl := Option.some.inj (hy.symm.trans hz)
      exact ⟨m, ⟨y, hy, hp, hq⟩, fun k hk => hbefore k (hk.trans hm)⟩
  · rintro (⟨n, ⟨x, hx, hp, hq⟩, hm⟩ | hall) k y hy
    · rcases Nat.lt_trichotomy k n with hk | rfl | hk
      · obtain ⟨z, hz, hqz⟩ := hm k hk
        obtain rfl := Option.some.inj (hy.symm.trans hz)
        exact .inl hqz
      · obtain rfl := Option.some.inj (hy.symm.trans hx)
        exact .inl hq
      · exact .inr ⟨n, hk, x, hx, hp⟩
    · exact .inl (hall k y hy)

/-- No weak until: the way fails somewhere, and the goals fail up to there. -/
theorem notWeakUntil_iff (h : MaxPath step s π) :
    (NotUntil P Q π ∧ ∃ n, At π n P) ↔ Until Q (fun x => P x ∧ Q x) π := by
  constructor
  · rintro ⟨hno, hex⟩
    classical
    obtain ⟨x, hx, hp⟩ := Nat.find_spec hex
    have hgoal : ∀ m, m ≤ Nat.find hex → At π m Q := by
      intro m hm
      obtain ⟨y, hy⟩ := h.defined_before hx hm
      rcases hno m y hy with hq | ⟨k, hk, hp⟩
      · exact ⟨y, hy, hq⟩
      · exact absurd hp (Nat.find_min hex (hk.trans_le hm))
    obtain ⟨z, hz, hq⟩ := hgoal _ le_rfl
    obtain rfl := Option.some.inj (hx.symm.trans hz)
    exact ⟨_, ⟨x, hx, hp, hq⟩, fun m hm => hgoal m hm.le⟩
  · intro hu
    refine ⟨(notUntil_iff h).mpr (.inl hu), ?_⟩
    obtain ⟨n, hn, -⟩ := hu
    exact ⟨n, hn.mono fun _ hx => hx.1⟩

/-- An until may stop at its first goal, so a way that allows goals is no weaker. -/
theorem until_or_iff :
    Until (fun x => P x ∨ Q x) (fun x => Q x ∧ (P x ∨ Q x)) π ↔ Until P Q π := by
  constructor
  · rintro ⟨n, ⟨x, hx, hq, -⟩, hm⟩
    have hex : ∃ n, At π n Q := ⟨n, x, hx, hq⟩
    classical
    refine ⟨Nat.find hex, Nat.find_spec hex, fun m hlt => ?_⟩
    obtain ⟨y, hy, hp | hqy⟩ := hm m (hlt.trans_le (Nat.find_min' hex ⟨x, hx, hq⟩))
    · exact ⟨y, hy, hp⟩
    · exact absurd ⟨y, hy, hqy⟩ (Nat.find_min hex hlt)
  · exact .mono (fun _ => .inl) fun _ hq => ⟨hq, .inr hq⟩

theorem weakUntil_or_iff (h : MaxPath step s π) :
    (Until (fun x => P x ∨ Q x) (fun x => Q x ∧ (P x ∨ Q x)) π ∨
      Globally (fun x => P x ∨ Q x) π) ↔ Until P Q π ∨ Globally P π := by
  rw [until_or_iff]
  refine ⟨fun hor => ?_, fun hor => hor.imp_right (·.mono fun _ => .inl)⟩
  rcases hor with hu | hall
  · exact .inl hu
  · by_cases hex : ∃ n, At π n Q
    · left
      classical
      refine ⟨Nat.find hex, Nat.find_spec hex, fun m hlt => ?_⟩
      obtain ⟨x, hx, -⟩ := Nat.find_spec hex
      obtain ⟨y, hy⟩ := h.defined_before hx hlt.le
      exact ⟨y, hy, (hall m y hy).resolve_right fun hq => Nat.find_min hex hlt ⟨y, hy, hq⟩⟩
    · exact .inr fun n x hx => (hall n x hx).resolve_right fun hq => hex ⟨n, x, hx, hq⟩

/-! ## Paths exist -/

/-- A set that a state leaves only by being stuck holds a path from each of its
states. -/
theorem exists_maxPath_within {Z : σ → Prop}
    (hZ : ∀ z, Z z → Stuck step z ∨ ∃ w, step z w ∧ Z w) (hs : Z s) :
    ∃ π, MaxPath step s π ∧ Globally Z π := by
  classical
  -- the successor chosen in the set, if there is one
  let follow : σ → Option σ := fun x =>
    if h : ∃ w, step x w ∧ Z w then some h.choose else none
  have hfollow : ∀ x y, follow x = some y → step x y ∧ Z y := by
    intro x y h
    by_cases hw : ∃ w, step x w ∧ Z w
    · rw [show follow x = some hw.choose from dif_pos hw] at h
      obtain rfl := Option.some.inj h
      exact hw.choose_spec
    · rw [show follow x = none from dif_neg hw] at h
      cases h
  let π : Nat → Option σ := fun n => n.rec (some s) fun _ x => x.bind follow
  have hstay : Globally Z π := by
    intro n
    induction n with
    | zero =>
      intro x hx
      obtain rfl := Option.some.inj (show some s = some x from hx)
      exact hs
    | succ n ih =>
      intro x hx
      obtain ⟨y, -, hx⟩ := Option.bind_eq_some_iff.mp (show (π n).bind follow = some x from hx)
      exact (hfollow y x hx).2
  refine ⟨π, ⟨rfl, fun n x hx => ?_, fun n hn => ?_⟩, hstay⟩
  · have hsucc : π (n + 1) = follow x := by
      show (π n).bind follow = _
      rw [hx]
      rfl
    cases hf : follow x with
    | some y => exact .inl ⟨y, hsucc.trans hf, (hfollow x y hf).1⟩
    | none =>
      refine .inr ⟨(hZ x (hstay n x hx)).resolve_right fun hw => ?_, hsucc.trans hf⟩
      rw [show follow x = some hw.choose from dif_pos hw] at hf
      cases hf
  · show (π n).bind follow = none
    rw [hn]
    rfl

theorem exists_maxPath (step : σ → σ → Prop) (s : σ) : ∃ π, MaxPath step s π := by
  have hZ : ∀ z : σ, True → Stuck step z ∨ ∃ w, step z w ∧ True := by
    intro z _
    by_cases hz : ∃ w, step z w
    · obtain ⟨w, hw⟩ := hz
      exact .inr ⟨w, hw, trivial⟩
    · exact .inl fun w hw => hz ⟨w, hw⟩
  obtain ⟨π, h, -⟩ := exists_maxPath_within hZ (s := s) trivial
  exact ⟨π, h⟩

/-- A step before a path. -/
def before (s : σ) (π : Nat → Option σ) : Nat → Option σ
  | 0 => some s
  | n + 1 => π n

theorem MaxPath.before (h : MaxPath step t π) (hst : step s t) :
    MaxPath step s (before s π) := by
  refine ⟨rfl, fun n x hx => ?_, fun n hn => ?_⟩
  · cases n with
    | zero =>
      obtain rfl := Option.some.inj (show some s = some x from hx)
      exact .inl ⟨t, h.start, hst⟩
    | succ n => exact h.step_or_end n x hx
  · cases n with
    | zero => cases hn
    | succ n => exact h.stays_ended n hn

/-- The path after its first step. -/
theorem MaxPath.tail (h : MaxPath step s π) (ht : π 1 = some t) :
    step s t ∧ MaxPath step t (fun n => π (n + 1)) := by
  refine ⟨?_, ht, fun n x hx => h.step_or_end (n + 1) x hx, fun n hn => h.stays_ended (n + 1) hn⟩
  rcases h.step_or_end 0 s h.start with ⟨y, hy, hst⟩ | ⟨-, hy⟩
  · obtain rfl := Option.some.inj (ht.symm.trans hy)
    exact hst
  · exact absurd (ht.symm.trans hy) nofun

/-! ## What the iterations compute -/

/-- A chain of steps through `P` to a state of `Q`. -/
inductive Chain (step : σ → σ → Prop) (P Q : σ → Prop) : σ → Prop
  | goal {s : σ} : Q s → Chain step P Q s
  | cons {s t : σ} : P s → step s t → Chain step P Q t → Chain step P Q s

theorem Chain.mono (hP : ∀ x, P x → P' x) (hQ : ∀ x, Q x → Q' x) (h : Chain step P Q s) :
    Chain step P' Q' s := by
  induction h with
  | goal hq => exact .goal (hQ _ hq)
  | cons hp hst _ ih => exact .cons (hP _ hp) hst ih

/-- A chain to the states from which a chain starts is a chain. -/
theorem Chain.trans (h : Chain step P (Chain step P Q) s) : Chain step P Q s := by
  induction h with
  | goal hq => exact hq
  | cons hp hst _ ih => exact .cons hp hst ih

theorem exists_next_iff : (∃ π, MaxPath step s π ∧ At π 1 P) ↔ ∃ t, step s t ∧ P t := by
  constructor
  · rintro ⟨π, h, t, ht, hp⟩
    exact ⟨t, (h.tail ht).1, hp⟩
  · rintro ⟨t, hst, hp⟩
    obtain ⟨π, h⟩ := exists_maxPath step t
    exact ⟨before s π, h.before hst, t, h.start, hp⟩

theorem forall_next_iff :
    (∀ π, MaxPath step s π → ∀ x, π 1 = some x → P x) ↔ ∀ t, step s t → P t := by
  constructor
  · intro hall t hst
    obtain ⟨π, h⟩ := exists_maxPath step t
    exact hall _ (h.before hst) t h.start
  · intro hall π h x hx
    exact hall x (h.tail hx).1

theorem exists_until_iff : (∃ π, MaxPath step s π ∧ Until P Q π) ↔ Chain step P Q s := by
  constructor
  · rintro ⟨π, h, n, hn, hm⟩
    induction n generalizing s π with
    | zero =>
      obtain ⟨x, hx, hq⟩ := hn
      obtain rfl := Option.some.inj (h.start.symm.trans hx)
      exact .goal hq
    | succ n ih =>
      obtain ⟨x, hx, hp⟩ := hm 0 n.succ_pos
      obtain rfl := Option.some.inj (h.start.symm.trans hx)
      obtain ⟨y, hy⟩ := hn.imp fun _ hy => hy.1
      obtain ⟨t, ht⟩ := h.defined_before hy (Nat.le_add_left 1 n)
      obtain ⟨hst, htail⟩ := h.tail ht
      exact .cons hp hst (ih _ htail hn fun m hlt => hm (m + 1) (Nat.succ_lt_succ hlt))
  · intro hc
    induction hc with
    | @goal s hq =>
      obtain ⟨π, h⟩ := exists_maxPath step s
      exact ⟨π, h, 0, ⟨s, h.start, hq⟩, nofun⟩
    | @cons s t hp hst _ ih =>
      obtain ⟨π, h, n, hn, hm⟩ := ih
      refine ⟨before s π, h.before hst, n + 1, hn, fun m hlt => ?_⟩
      cases m with
      | zero => exact ⟨s, rfl, hp⟩
      | succ m => exact hm m (Nat.lt_of_succ_lt_succ hlt)

theorem exists_globally_iff : (∃ π, MaxPath step s π ∧ Globally P π) ↔
    ∃ Z : σ → Prop, Z s ∧ (∀ z, Z z → P z) ∧ ∀ z, Z z → Stuck step z ∨ ∃ w, step z w ∧ Z w := by
  constructor
  · rintro ⟨π, h, hall⟩
    refine ⟨fun z => ∃ n, π n = some z, ⟨0, h.start⟩, ?_, ?_⟩
    · rintro z ⟨n, hz⟩
      exact hall n z hz
    · rintro z ⟨n, hz⟩
      rcases h.step_or_end n z hz with ⟨y, hy, hst⟩ | ⟨hstuck, -⟩
      · exact .inr ⟨y, hst, n + 1, hy⟩
      · exact .inl hstuck
  · rintro ⟨Z, hs, hP, hZ⟩
    obtain ⟨π, h, hin⟩ := exists_maxPath_within hZ hs
    exact ⟨π, h, hin.mono hP⟩

/-- A chain to the states with a path through `P` starts such a path. -/
theorem exists_globally_of_chain
    (h : Chain step P (fun x => ∃ π, MaxPath step x π ∧ Globally P π) s) :
    ∃ π, MaxPath step s π ∧ Globally P π := by
  induction h with
  | goal hq => exact hq
  | @cons s t hp hst _ ih =>
    obtain ⟨π, hπ, hall⟩ := ih
    refine ⟨before s π, hπ.before hst, fun n x hx => ?_⟩
    cases n with
    | zero =>
      obtain rfl := Option.some.inj (show some s = some x from hx)
      exact hp
    | succ n => exact hall n x hx

theorem exists_globally_of_stuck (hp : P s) (hs : Stuck step s) :
    ∃ π, MaxPath step s π ∧ Globally P π := by
  refine exists_globally_iff.mpr ⟨fun z => z = s, rfl, ?_, ?_⟩
  · rintro z rfl
    exact hp
  · rintro z rfl
    exact .inl hs

/-- A path through `P` ends in a stuck state, or goes on for ever in a set. -/
theorem exists_globally_cases (h : ∃ π, MaxPath step s π ∧ Globally P π) :
    Chain step P (fun x => P x ∧ Stuck step x) s ∨
    ∃ Z : σ → Prop, Z s ∧ (∀ z, Z z → P z) ∧ ∀ z, Z z → ∃ w, step z w ∧ Z w := by
  obtain ⟨Z, hs, hP, hZ⟩ := exists_globally_iff.mp h
  by_cases hend : Chain step P (fun x => P x ∧ Stuck step x) s
  · exact .inl hend
  · refine .inr ⟨fun z => Z z ∧ ¬ Chain step P (fun x => P x ∧ Stuck step x) z, ⟨hs, hend⟩,
      fun z hz => hP z hz.1, fun z ⟨hz, hno⟩ => ?_⟩
    rcases hZ z hz with hstuck | ⟨w, hst, hw⟩
    · exact absurd (.goal ⟨hP z hz, hstuck⟩) hno
    · exact ⟨w, hst, hw, fun hc => hno (.cons (hP z hz) hst hc)⟩

/-! ## Complements on a closed set -/

section Complements

variable {R : σ → Prop}

/-- A path does not leave a closed set. -/
theorem MaxPath.within (hR : ∀ x, R x → ∀ y, step x y → R y) (hs : R s)
    (h : MaxPath step s π) : Globally R π := by
  intro n
  induction n with
  | zero =>
    intro x hx
    obtain rfl := Option.some.inj (h.start.symm.trans hx)
    exact hs
  | succ n ih =>
    intro x hx
    obtain ⟨y, hy⟩ := h.defined_before hx n.le_succ
    rcases h.step_or_end n y hy with ⟨z, hz, hst⟩ | ⟨-, hnone⟩
    · obtain rfl := Option.some.inj (hz.symm.trans hx)
      exact hR y (ih y hy) _ hst
    · cases hx.symm.trans hnone

theorem chain_within (hR : ∀ x, R x → ∀ y, step x y → R y) (h : Chain step P Q s) (hs : R s) :
    Chain step P (fun x => R x ∧ Q x) s := by
  induction h with
  | goal hq => exact .goal ⟨hs, hq⟩
  | cons hp hst _ ih => exact .cons hp hst (ih (hR _ hs _ hst))

theorem not_at_iff (hR : Globally R π) (hP : ∀ x, R x → (P' x ↔ ¬ P x)) {n : Nat} :
    (∀ x, π n = some x → P' x) ↔ ¬ At π n P := by
  constructor
  · rintro h ⟨x, hx, hp⟩
    exact (hP x (hR n x hx)).mp (h x hx) hp
  · exact fun h x hx => (hP x (hR n x hx)).mpr fun hp => h ⟨x, hx, hp⟩

theorem globally_compl (hR : Globally R π) (hP : ∀ x, R x → (P' x ↔ ¬ P x)) :
    Globally P' π ↔ ¬ ∃ n, At π n P := by
  rw [not_exists]
  exact forall_congr' fun n => not_at_iff hR hP

theorem exists_at_compl (hR : Globally R π) (hP : ∀ x, R x → (P' x ↔ ¬ P x)) :
    (∃ n, At π n P') ↔ ¬ Globally P π := by
  have hP' : ∀ x, R x → (P x ↔ ¬ P' x) := fun x hx => by rw [hP x hx, not_not]
  rw [globally_compl hR hP', not_not]

theorem notUntil_compl (h : MaxPath step s π) (hR : Globally R π)
    (hP : ∀ x, R x → (P' x ↔ ¬ P x)) (hQ : ∀ x, R x → (Q' x ↔ ¬ Q x)) :
    NotUntil P' Q' π ↔ ¬ Until P Q π := by
  constructor
  · rintro hno ⟨n, ⟨x, hx, hq⟩, hm⟩
    rcases hno n x hx with hq' | ⟨m, hlt, y, hy, hp'⟩
    · exact (hQ x (hR n x hx)).mp hq' hq
    · obtain ⟨z, hz, hp⟩ := hm m hlt
      obtain rfl := Option.some.inj (hy.symm.trans hz)
      exact (hP y (hR m y hy)).mp hp' hp
  · intro hno n x hx
    by_contra hneither
    obtain ⟨hq', hway⟩ := not_or.mp hneither
    refine hno ⟨n, ⟨x, hx, ?_⟩, fun m hlt => ?_⟩
    · exact by_contra fun hq => hq' ((hQ x (hR n x hx)).mpr hq)
    · obtain ⟨y, hy⟩ := h.defined_before hx hlt.le
      exact ⟨y, hy, by_contra fun hp => hway ⟨m, hlt, y, hy, (hP y (hR m y hy)).mpr hp⟩⟩

end Complements

/-! ## Cycles of a finite set -/

/-- A finite set each of whose states has a predecessor in it holds a nonempty set
each of whose states has a successor in it: its cycles. -/
theorem exists_forward_closed {r : σ → σ → Prop} {X : Finset σ} (hne : X.Nonempty)
    (hback : ∀ x ∈ X, ∃ y ∈ X, r y x) :
    ∃ Z : σ → Prop, (∃ z, Z z) ∧ (∀ z, Z z → z ∈ X) ∧ ∀ z, Z z → ∃ w, r z w ∧ Z w := by
  let q : X → X → Prop := fun x y => r x y
  have hcycle : ∃ x : X, Relation.TransGen q x x := by
    by_contra hno
    push Not at hno
    have : Std.Irrefl (Relation.TransGen q) := ⟨hno⟩
    have hwf : WellFounded (Relation.TransGen q) := Finite.wellFounded_of_trans_of_irrefl _
    obtain ⟨x, hx⟩ := hne
    obtain ⟨m, -, hmin⟩ := hwf.has_min Set.univ ⟨⟨x, hx⟩, trivial⟩
    obtain ⟨y, hy, hr⟩ := hback m m.2
    exact hmin ⟨y, hy⟩ trivial (.single hr)
  obtain ⟨x, hx⟩ := hcycle
  refine ⟨fun z => ∃ hz : z ∈ X, Relation.TransGen q ⟨z, hz⟩ ⟨z, hz⟩, ⟨x, x.2, hx⟩,
    fun z hz => hz.1, ?_⟩
  rintro z ⟨hz, hloop⟩
  obtain ⟨w, hzw, hback'⟩ := Relation.TransGen.head'_iff.mp hloop
  refine ⟨w, hzw, w.2, ?_⟩
  exact Relation.TransGen.tail' hback' hzw

/-- The same read backward. -/
theorem exists_backward_closed {r : σ → σ → Prop} {X : Finset σ} (hne : X.Nonempty)
    (hforth : ∀ x ∈ X, ∃ y ∈ X, r x y) :
    ∃ Z : σ → Prop, (∃ z, Z z) ∧ (∀ z, Z z → z ∈ X) ∧ ∀ z, Z z → ∃ w, r w z ∧ Z w :=
  exists_forward_closed (r := fun x y => r y x) hne hforth

end LibHSC.Paths
