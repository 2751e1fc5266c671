import LibHSC.Words

/-!
Nodes at frontier positions. Equal subtrees share a node wherever they sit, so a walk that
depends on the position of the leaves keys what it has done by node and position, packed in
one word.
-/

namespace LibHSC

/-- A number and a position below 2^k packed in one word. -/
theorem packed_inj {k a b p q : Nat} (hp : p < 2 ^ k) (hq : q < 2 ^ k)
    (h : (a <<< k) ^^^ p = (b <<< k) ^^^ q) : a = b ∧ p = q := by
  have hhigh : ∀ a p : Nat, p < 2 ^ k → ((a <<< k) ^^^ p) >>> k = a := by
    intro a p hp
    rw [Nat.shiftRight_xor_distrib, Nat.shiftLeft_shiftRight, Nat.shiftRight_eq_div_pow,
      Nat.div_eq_of_lt hp, Nat.xor_zero]
  have hlow : ∀ a p : Nat, p < 2 ^ k → ((a <<< k) ^^^ p) % 2 ^ k = p := by
    intro a p hp
    rw [Nat.xor_mod_two_pow, Nat.shiftLeft_eq, Nat.mul_mod_left, Nat.zero_xor, Nat.mod_eq_of_lt hp]
  exact ⟨by rw [← hhigh a p hp, ← hhigh b q hq, h], by rw [← hlow a p hp, ← hlow b q hq, h]⟩

/-- The ids the intern table gives to nodes of any sort. -/
structure NodeIds where
  id : NodeKey → Nat
  inj : Function.Injective id

namespace NodeIds

variable (ids : NodeIds)

/-- `(n << 20) ^ first`. -/
def placeKey (k : NodeKey × Nat) : Nat := (ids.id k.1 <<< 20) ^^^ k.2

/-- Below position 2^20 the packed key tells node and position. -/
theorem placeKey_inj {k k' : NodeKey × Nat} (h : k.2 < 2 ^ 20) (h' : k'.2 < 2 ^ 20)
    (he : ids.placeKey k = ids.placeKey k') : k = k' := by
  obtain ⟨hid, hfirst⟩ := packed_inj h h' he
  exact Prod.ext (ids.inj hid) hfirst

end NodeIds

/-! ## Linear forms -/

/-- The linear form on the values from position `first` on. -/
def linearSum (coeff : Nat → Int) : Nat → List Int → Int
  | _, [] => 0
  | first, v :: vs => coeff first * v + linearSum coeff (first + 1) vs

theorem linearSum_append (coeff : Nat → Int) (us vs : List Int) : ∀ first,
    linearSum coeff first (us ++ vs) =
      linearSum coeff first us + linearSum coeff (first + us.length) vs := by
  induction us with
  | nil => simp [linearSum]
  | cons u us ih =>
    intro first
    rw [List.cons_append, linearSum, linearSum, ih, List.length_cons, Int.add_assoc,
      Nat.add_assoc first 1, Nat.add_comm 1]

/-- The form on a word is the one on its two sides. -/
theorem linearSum_pair (coeff : Nat → Int) {h t : Shape} (first : Nat) (w : Word (.pair h t)) :
    linearSum coeff first (frontier (.pair h t) w) = linearSum coeff first (frontier h w.1) +
        linearSum coeff (first + h.width) (frontier t w.2) := by
  rw [frontier, linearSum_append, frontier_length]

/-! ## Ids -/

/-- A number for every shape. -/
def Shape.number : Shape → Nat
  | .unit => 0
  | .leaf => 1
  | .pair h t => 2 + Nat.pair h.number t.number

theorem Shape.number_inj : ∀ s s' : Shape, s.number = s'.number → s = s' := by
  intro s
  induction s with
  | unit =>
    intro s' h
    cases s' with
    | unit => rfl
    | leaf => cases h
    | pair _ _ => simp only [number] at h; omega
  | leaf =>
    intro s' h
    cases s' with
    | unit => cases h
    | leaf => rfl
    | pair _ _ => simp only [number] at h; omega
  | pair a b iha ihb =>
    intro s' h
    cases s' with
    | unit => simp only [number] at h; omega
    | leaf => simp only [number] at h; omega
    | pair c d =>
      simp only [number, Nat.add_left_cancel_iff, Nat.pair_eq_pair] at h
      rw [iha c h.1, ihb d h.2]

/-- The codes the shape table gives to sorts. -/
structure ShapeIds where
  id : Shape → Nat
  inj : Function.Injective id

/-- A subtree of the shape and the position of its first leaf. -/
abbrev Place := Shape × Nat

namespace ShapeIds

variable (ids : ShapeIds)

/-- `(s << 24) ^ first`. -/
def pack (k : Place) : Nat := (ids.id k.1 <<< 24) ^^^ k.2

theorem pack_inj {k k' : Place} (h : k.2 < 2 ^ 24) (h' : k'.2 < 2 ^ 24)
    (he : ids.pack k = ids.pack k') : k = k' := by
  obtain ⟨hid, hfirst⟩ := packed_inj h h' he
  exact Prod.ext (ids.inj hid) hfirst

def standard : ShapeIds := ⟨Shape.number, Shape.number_inj⟩

end ShapeIds

/-- There are ids: nodes are finite trees. -/
def NodeIds.standard : NodeIds where
  id k := Nat.pair k.1.number (Encodable.encode k.2)
  inj k k' h := by
    obtain ⟨s, c⟩ := k
    obtain ⟨s', c'⟩ := k'
    obtain ⟨h1, h2⟩ := Nat.pair_eq_pair.mp h
    obtain rfl := Shape.number_inj s s' h1
    exact congrArg (Sigma.mk s) (Encodable.encode_injective h2)

end LibHSC
