import LibHSC.Deflate

/-!
The existential image `has_image`: a part of a term's image that is empty only when the
image is, found without building the image wherever a part of it is enough.

`Finder` says what such a search is for. There is one rule for each short-cut: the first
summand that answers, a composition followed from the witness of its inner operand, a
closure that keeps its argument, the first arc that both sides of a `node` keep.
-/

namespace LibHSC

open Lia

/-! ## The definitions -/

namespace OpTerm

section Search

variable {H T D : Type} [DecidableEq D] (A : SupportAlgebra D)
  (full : OpTerm H T D → D → Except Err D) (nodeHas : H → T → D → Except Err D)
  (gfpHas : OpTerm H T D → D → Except Err D)

mutual

/-- `has_image`: `id` is free and absence is never dispatched on; the rest is
`do_has_image`. -/
def hasImage : OpTerm H T D → D → Except Err D
  | .id, d => .ok d
  | .node h t, d => if d = A.none then .ok A.none else nodeHas h t d
  | .sum terms, d => if d = A.none then .ok A.none else firstImage terms d
  | .compose after before, d =>
    if d = A.none then .ok A.none
    else do
      let wb ← hasImage before d
      if wb = A.none then return A.none
      else do
        let wa ← hasImage after wb
        -- the outer operand may miss the witness of the inner one
        if wa ≠ A.none then return wa else hasImage after (← full before d)
  | .lfp _, d => .ok d
  | .gfp h, d => if d = A.none then .ok A.none else gfpHas h d
  | .within w, d => if d = A.none then .ok A.none else .ok (A.meet d w)
  | .saturate _ _ _, d => .ok d
  | .expr guard assigns, d => full (.expr guard assigns) d

def firstImage : List (OpTerm H T D) → D → Except Err D
  | [], _ => .ok A.none
  | t :: ts, d => do
      let w ← hasImage t d
      if w ≠ A.none then return w else firstImage ts d

end

end Search

end OpTerm

section Arcs

variable {C D σ τ : Type} [DecidableEq C] [DecidableEq D] (H : SupportAlgebra C)
  (T : SupportAlgebra D)

/-- The first arc that both sides keep, as the rectangle of their witnesses. -/
def imageWitness (hasH : C → Except Err C) (hasT : D → Except Err D) :
    List (Arc C D) → Except Err (List (Arc C D))
  | [] => .ok []
  | a :: as => do
      let wh ← hasH a.prime
      if wh = H.none then imageWitness hasH hasT as
      else do
        let wt ← hasT a.sub
        if wt = T.none then imageWitness hasH hasT as else return rectangle H T wh wt

/-- The first arc with a cycle of the one-sided summands: behind its prime, else in its
prime. Past the last arc it is the hull in full. -/
def cycleWitness (cycleT : D → Except Err D) (cycleH : C → Except Err C)
    (hull : Except Err (List (Arc C D))) : List (Arc C D) → Except Err (List (Arc C D))
  | [] => hull
  | a :: as => do
      let wt ← cycleT a.sub
      if wt ≠ T.none then return rectangle H T a.prime wt
      else do
        let wh ← cycleH a.prime
        if wh ≠ H.none then return rectangle H T wh a.sub
        else cycleWitness cycleT cycleH hull as

end Arcs

/-- A side that does nothing is not asked. -/
def unlessId {C : Type} (isId : Bool) (has : C → Except Err C) (c : C) : Except Err C :=
  if isId then .ok c else has c

/-- The summands, in the order in which a stack gives them out. -/
def summands {h t : Shape} (x : Term (.pair h t)) : List (Term (.pair h t)) :=
  (flattenInto x).reverse

/-- One side's summands folded, `id` when there are none. -/
def sideSum (m : Manager) (s : Shape) (events : List (Term s)) : Term s :=
  if events = [] then Term.id s else sumAt m s events

/-- `gfp_witness_at`: a leaf is small, and done in full. -/
def gfpWitnessAt (m : Manager) : (s : Shape) → (Term s → Code s → Except Err (Code s)) →
    Term s → Code s → Except Err (Code s)
  | .unit => fun _ => gfpAt m .unit
  | .leaf => fun _ => gfpAt m .leaf
  | .pair _ _ => fun has t => has (OpTerm.mkGfp t)

/-- The cycle of one side's summands inside a part; none is looked for when there are no
summands. -/
def sideCycle (m : Manager) (s : Shape) (has : Term s → Code s → Except Err (Code s))
    (f : Term s) (c : Code s) : Except Err (Code s) :=
  if Term.isId s f then .ok (m.algebra s).none else gfpWitnessAt m s has f c

/-- The existential image of a deflationary closure. The descent into the arcs is made when
it is asked for. -/
def gfpImage (m : Manager) (fast : Bool) (h t : Shape)
    (hasH : Term h → Code h → Except Err (Code h)) (hasT : Term t → Code t → Except Err (Code t))
    (x : Term (.pair h t)) (d : Code (.pair h t)) : Except Err (Code (.pair h t)) :=
  let hull := m.apply (.pair h t) (OpTerm.gfp x) d
  if fast then
    let fTail := sideSum m t (belowAt (summands x))
    let lHead := sideSum m h (edgeAt (summands x))
    cycleWitness (m.algebra h) (m.algebra t) (sideCycle m t hasT fTail)
      (sideCycle m h hasH lHead) hull (arcs d)
  else hull

/-- `has_image` at every sort; where the sort is no pair it is the full application. -/
def hasImage (m : Manager) (fast : Bool) : (s : Shape) → Term s → Code s → Except Err (Code s)
  | .unit => m.apply .unit
  | .leaf => m.apply .leaf
  | .pair h t => OpTerm.hasImage (m.algebra (.pair h t)) (m.apply (.pair h t))
      (fun a b d => imageWitness (m.algebra h) (m.algebra t)
        (unlessId (Term.isId h a) (hasImage m fast h a))
        (unlessId (Term.isId t b) (hasImage m fast t b)) (arcs d))
      (gfpImage m fast h t (hasImage m fast h) (hasImage m fast t))

/-! ## What a search is for -/

/-- A search that answers wherever the function returns, with a part of its value that is
empty only when the value is. `At` says of which arguments that is claimed, and `Part` what
the search may come back with. -/
structure Finder {C W : Type} (A : SupportAlgebra C) (den : C → Set W) (Canon : C → Prop)
    (At : C → Prop) (Part : C → C → Prop) (full has : Nat → C → Except Err C) : Prop where
  mono : ∀ {n k c w}, n ≤ k → has n c = .ok w → has k c = .ok w
  found : ∀ {n c r}, Canon c → At c → full n c = .ok r →
    ∃ k w, has k c = .ok w ∧ Canon w ∧ den w ⊆ den r ∧ (w = A.none → r = A.none) ∧
      (w ≠ A.none → Part c w)

/-- The whole of a value. -/
def IsWhole {C : Type} (full : Nat → C → Except Err C) (c w : C) : Prop := ∃ n, full n c = .ok w

/-- A part of a value, whichever. -/
def IsPart {C W : Type} (den : C → Set W) (full : Nat → C → Except Err C) (c w : C) : Prop :=
  ∃ n r, full n c = .ok r ∧ den w ⊆ den r

/-- A part `w` of the value `x` at `c` that a search may come back with. -/
structure Followed {C W : Type} (A : SupportAlgebra C) (den : C → Set W) (Canon : C → Prop)
    (Part : C → C → Prop) (c x w : C) : Prop where
  ne : w ≠ A.none
  canon : Canon w
  le : den w ⊆ den x
  part : Part c w

/-- What the function gives on `w` is part of what it gives on `x`. -/
def KeepsBelow {C W : Type} (den : C → Set W) (full : Nat → C → Except Err C) (w x : C) : Prop :=
  ∀ n r, full n x = .ok r → ∃ k y, full k w = .ok y ∧ den y ⊆ den r

namespace Finder

variable {C W : Type} {A : SupportAlgebra C} {den : C → Set W} {Canon At : C → Prop}
  {Part : C → C → Prop} {f g hasF hasG : Nat → C → Except Err C}

theorem congr {hasF' : Nat → C → Except Err C} (hF : Finder A den Canon At Part f hasF)
    (h : ∀ n d, f n d = g n d) (h' : ∀ n d, hasF n d = hasF' n d) :
    Finder A den Canon At Part g hasF' :=
  funext (fun n => funext (h n)) ▸ funext (fun n => funext (h' n)) ▸ hF

theorem weaken {At' : C → Prop} {Part' : C → C → Prop} (hF : Finder A den Canon At Part f hasF)
    (hat : ∀ c, At' c → At c) (hpart : ∀ c w, Part c w → Part' c w) :
    Finder A den Canon At' Part' f hasF where
  mono := hF.mono
  found := by
    intro n c r hc hs h
    obtain ⟨k, w, hw, hwc, hle, hnone, hp⟩ := hF.found hc (hat c hs) h
    exact ⟨k, w, hw, hwc, hle, hnone, fun hne => hpart c w (hp hne)⟩

/-- The value itself. -/
theorem all (hmono : ∀ {n k c r}, n ≤ k → f n c = .ok r → f k c = .ok r)
    (hcanon : ∀ {n c r}, Canon c → f n c = .ok r → Canon r) :
    Finder A den Canon At (IsWhole f) f f where
  mono := hmono
  found := fun hc _ h => ⟨_, _, h, hcanon hc h, subset_rfl, fun hn => hn, fun _ => ⟨_, h⟩⟩

/-- The argument, of a function that keeps it. -/
theorem seed (hkeeps : ∀ {n c r}, Canon c → At c → f n c = .ok r → den c ⊆ den r)
    (hnone : ∀ n, f n A.none = .ok A.none) :
    Finder A den Canon At (fun c w => w = c) f (fun _ d => .ok d) where
  mono := fun _ h => h
  found := by
    intro n c r hc hs h
    refine ⟨0, c, rfl, hc, hkeeps hc hs h, ?_, fun _ => rfl⟩
    rintro rfl
    rw [hnone] at h
    cases h
    rfl

theorem guard [DecidableEq C] (hA : SupportLaws A den Canon)
    (hF : Finder A den Canon At Part f hasF) :
    Finder A den Canon At Part (fun n d => if d = A.none then .ok A.none else f n d)
      (fun n d => if d = A.none then .ok A.none else hasF n d) where
  mono := fun hk h => ite_le (fun h => h) (hF.mono hk) h
  found := by
    intro n c r hc hs h
    by_cases hn : c = A.none
    · rw [if_pos hn] at h
      cases h
      exact ⟨0, A.none, if_pos hn, hA.canon_none, subset_rfl, fun _ => rfl, fun h => absurd rfl h⟩
    · rw [if_neg hn] at h
      obtain ⟨k, w, hw, hrest⟩ := hF.found hc hs h
      exact ⟨k, w, (if_neg hn).trans hw, hrest⟩

/-- Whatever it comes back with is a part. -/
theorem part (hF : Finder A den Canon At Part f hasF) :
    Finder A den Canon At (IsPart den f) f hasF where
  mono := hF.mono
  found := by
    intro n c r hc hs h
    obtain ⟨k, w, hw, hwc, hle, hnone, -⟩ := hF.found hc hs h
    exact ⟨k, w, hw, hwc, hle, hnone, fun _ => ⟨n, r, h, hle⟩⟩

/-- A side that does nothing need not be asked. -/
theorem unlessId {isId : Bool} (hid : isId = true → ∀ n c, f n c = .ok c)
    (hF : Finder A den Canon At (IsPart den f) f hasF) :
    Finder A den Canon At (IsPart den f) f (fun n => LibHSC.unlessId isId (hasF n)) where
  mono := fun hk h => ite_le (fun h => h) (hF.mono hk) h
  found := by
    intro n c r hc hs h
    by_cases hb : isId = true
    · rw [hid hb] at h
      cases h
      exact ⟨0, c, if_pos hb, hc, subset_rfl, fun hn => hn, fun _ => ⟨0, c, hid hb 0 c, subset_rfl⟩⟩
    · obtain ⟨k, w, hw, hrest⟩ := hF.found hc hs h
      exact ⟨k, w, (if_neg hb).trans hw, hrest⟩

/-- A composition, followed from the witness of the inner operand. What the outer one finds
behind the witness must be found behind the whole. -/
theorem compose [DecidableEq C] {AtF AtG : C → Prop} {PartF PartG : C → C → Prop}
    (hA : SupportLaws A den Canon)
    (hmono : ∀ {n k c r}, n ≤ k → f n c = .ok r → f k c = .ok r)
    (hcanon : ∀ {n c r}, Canon c → f n c = .ok r → Canon r)
    (hnone : ∀ n, g n A.none = .ok A.none) (hF : Finder A den Canon AtF PartF f hasF)
    (hG : Finder A den Canon AtG PartG g hasG) :
    Finder A den Canon
      (fun c => AtF c ∧ ∀ n x, f n c = .ok x → ∀ w, Followed A den Canon PartF c x w →
        AtG w ∧ KeepsBelow den g w x ∧ (IsWhole g w A.none → AtG x))
      (fun c w => (∃ wb, PartF c wb ∧ PartG wb w) ∨ ∃ n x, f n c = .ok x ∧ PartG x w)
      (fun n d => do g n (← f n d)) (fun n d => do
      let wb ← hasF n d
      if wb = A.none then return A.none
      else do
        let wa ← hasG n wb
        if wa ≠ A.none then return wa else hasG n (← f n d)) where
  mono := fun hk h => bind_le (fun _ => hF.mono hk) (fun _ => ite_le (fun h => h) fun h =>
    bind_le (fun _ => hG.mono hk) (fun _ => ite_le (fun h => h) fun h =>
      bind_le (fun _ => hmono hk) (fun _ => hG.mono hk) h) h) h
  found := by
    intro n c r hc hs h
    obtain ⟨x, hx, h⟩ := bind_eq_ok.mp h
    obtain ⟨k, wb, hwb, hbc, hbx, hbn, hbp⟩ := hF.found hc hs.1 hx
    by_cases hn : wb = A.none
    · rw [hbn hn, hnone] at h
      cases h
      exact ⟨k, A.none, bind_of_ok hwb (if_pos hn), hn ▸ hbc, subset_rfl, fun _ => rfl,
        fun h => absurd rfl h⟩
    · obtain ⟨hsb, hbelow, hmiss⟩ := hs.2 n x hx wb ⟨hn, hbc, hbx, hbp hn⟩
      obtain ⟨j, y, hy, hyr⟩ := hbelow n r h
      obtain ⟨i, wa, hwa, hac, hay, han, hap⟩ := hG.found hbc hsb hy
      by_cases hm : wa = A.none
      · -- the outer operand misses the witness: it is asked of the whole
        obtain ⟨l, w, hw, hwc, hwr, hwn, hwp⟩ :=
          hG.found (hcanon hc hx) (hmiss ⟨j, han hm ▸ hy⟩) h
        refine ⟨max (max k i) (max l n), w, ?_, hwc, hwr, hwn, fun hne => .inr ⟨n, x, hx, hwp hne⟩⟩
        refine bind_of_ok (hF.mono (by omega) hwb) ((if_neg hn).trans ?_)
        refine bind_of_ok (hG.mono (by omega) hwa) ((if_neg (not_not.mpr hm)).trans ?_)
        exact bind_of_ok (hmono (by omega) hx) (hG.mono (by omega) hw)
      · refine ⟨max k i, wa, ?_, hac, hay.trans hyr, fun h => absurd h hm,
          fun _ => .inl ⟨wb, hbp hn, hap hm⟩⟩
        refine bind_of_ok (hF.mono (by omega) hwb) ((if_neg hn).trans ?_)
        exact bind_of_ok (hG.mono (by omega) hwa) (if_pos hm)

end Finder

/-! ## The terms of one sort -/

namespace OpTerm

section Inflating

variable {H T D W : Type} [DecidableEq D] {A : SupportAlgebra D}
  {node : Nat → H → T → D → Except Err D} {cases : Nat → BExpr → List Assign → D → Except Err D}
  {den : D → Set W} {Canon : D → Prop} {nodeWF nodeAdd : H → T → Prop}
  {nodeRel : H → T → W → W → Prop} {exprWF : BExpr → List Assign → Prop}
  {exprRel : BExpr → List Assign → W → W → Prop}
  (L : ∀ n, SortLaws A (node n) (cases n) den Canon nodeWF nodeAdd nodeRel exprWF exprRel)

include L

theorem chain_inflates : (ts : List (OpTerm H T D)) → WFAll nodeWF exprWF Canon ts →
    Inflates den Canon (fun n => applyChain A (node n) (cases n) n ts)
  | [], _ => Inflates.same
  | t :: ts, hw => by
    refine ⟨fun {n c r} hc h => ?_⟩
    obtain ⟨x, hx, h⟩ := bind_eq_ok.mp h
    have hxc := apply_canon (L n) t c x hw.1 hc hx
    have hle := (chain_inflates ts hw.2).le ((L n).support.canon_join hc hxc) h
    rw [(L n).support.den_join hc hxc] at hle
    exact Set.subset_union_left.trans hle

theorem lfp_inflates {t : OpTerm H T D} (hw : WF nodeWF exprWF Canon t) :
    Inflates den Canon (fun n => apply A (node n) (cases n) n (.lfp t)) := by
  have hA := (L 0).support
  have hcanon : ∀ {n c r}, Canon c → apply A (node n) (cases n) n t c = .ok r → Canon r :=
    fun {n c r} => apply_canon (L n) t c r hw
  have hinf := Inflates.join (f := fun n => apply A (node n) (cases n) n t) hA hcanon
  refine (hinf.loop fun {n c r} hc h => ?_).guard hA
  obtain ⟨x, hx, h⟩ := bind_eq_ok.mp h
  cases h
  exact hA.canon_join hc (hcanon hc hx)

/-- A schedule keeps its argument when what it settles first does. -/
theorem saturate_inflates {f l : OpTerm H T D} {g : List (OpTerm H T D)}
    (hwf : WF nodeWF exprWF Canon f) (hwl : WF nodeWF exprWF Canon l)
    (hwg : WFAll nodeWF exprWF Canon g)
    (hf : Inflates den Canon (fun n => apply A (node n) (cases n) n f))
    (hl : Inflates den Canon (fun n => apply A (node n) (cases n) n l)) :
    Inflates den Canon (fun n => apply A (node n) (cases n) n (.saturate f l g)) := by
  have hcf : ∀ {n c r}, Canon c → apply A (node n) (cases n) n f c = .ok r → Canon r :=
    fun {n c r} => apply_canon (L n) f c r hwf
  have hcl : ∀ {n c r}, Canon c → apply A (node n) (cases n) n l c = .ok r → Canon r :=
    fun {n c r} => apply_canon (L n) l c r hwl
  have hround := ((chain_inflates L g hwg).compose hl hcl).compose hf hcf
  refine (hround.loop fun {n c r} hc h => ?_).guard (L 0).support
  obtain ⟨x, hx, h⟩ := bind_eq_ok.mp h
  obtain ⟨y, hy, h⟩ := bind_eq_ok.mp h
  exact applyChain_canon (L n) g y r hwg (hcl (hcf hc hx) hy) h

end Inflating

section Searchable

variable {H T D W : Type} (A : SupportAlgebra D) (den : D → Set W) (Canon : D → Prop)
  (full : Nat → OpTerm H T D → D → Except Err D)

mutual

/-- What a search may come back with, in whatever order it tries the summands: the whole
image, or the argument of a closure that keeps it, or what one summand gives, or what is found
behind a part; where it goes by arcs, any part of the image. -/
def Part : OpTerm H T D → D → D → Prop
  | .id, d, w => w = d
  | .node h t, d, w => IsPart den (full · (.node h t)) d w
  | .sum ts, d, w => PartOfAny ts d w
  | .compose after before, d, w => (∃ wb, Part before d wb ∧ Part after wb w) ∨
      ∃ n x, full n before d = .ok x ∧ Part after x w
  | .lfp _, d, w => w = d
  | .gfp x, d, w => IsPart den (full · (.gfp x)) d w
  | .within v, d, w => IsWhole (full · (.within v)) d w
  | .saturate _ _ _, d, w => w = d
  | .expr g as, d, w => IsWhole (full · (.expr g as)) d w

def PartOfAny : List (OpTerm H T D) → D → D → Prop
  | [], _, _ => False
  | t :: ts, d, w => Part t d w ∨ PartOfAny ts d w

end

mutual

/-- Where on the way of a search its short-cuts are right: `nodeS` says it of the arcs and
`cycle` of what stands under a `gfp`. The second operand of a composition gives, behind a
part the search may follow, part of what it gives behind the whole; a schedule keeps its
argument. A summand is reached when those before it have no image. -/
def Searchable (nodeS : H → T → D → Prop) (cycle : OpTerm H T D → D → Prop) :
    OpTerm H T D → D → Prop
  | .id, _ => True
  | .node h t, d => nodeS h t d
  | .sum ts, d => SearchableAll nodeS cycle ts d
  | .compose after before, d => Searchable nodeS cycle before d ∧
      ∀ n x, full n before d = .ok x → ∀ w, Followed A den Canon (Part den full before) d x w →
        Searchable nodeS cycle after w ∧ KeepsBelow den (full · after) w x ∧
          (IsWhole (full · after) w A.none → Searchable nodeS cycle after x)
  | .lfp _, _ => True
  | .gfp x, d => cycle x d
  | .within _, _ => True
  | .saturate f l g, d => ∀ n r, full n (.saturate f l g) d = .ok r → den d ⊆ den r
  | .expr _ _, _ => True

def SearchableAll (nodeS : H → T → D → Prop) (cycle : OpTerm H T D → D → Prop) :
    List (OpTerm H T D) → D → Prop
  | [], _ => True
  | t :: ts, d => Searchable nodeS cycle t d ∧
      (IsWhole (full · t) d A.none → SearchableAll nodeS cycle ts d)

end

end Searchable

section Search

variable {H T D W : Type} [DecidableEq D] {A : SupportAlgebra D}
  {node nodeHas : Nat → H → T → D → Except Err D}
  {cases : Nat → BExpr → List Assign → D → Except Err D}
  {gfpHas : Nat → OpTerm H T D → D → Except Err D}
  {den : D → Set W} {Canon : D → Prop} {nodeWF nodeAdd : H → T → Prop} {nodeS : H → T → D → Prop}
  {nodeRel : H → T → W → W → Prop} {exprWF : BExpr → List Assign → Prop}
  {exprRel : BExpr → List Assign → W → W → Prop} {cycle : OpTerm H T D → D → Prop}
  (L : ∀ n, SortLaws A (node n) (cases n) den Canon nodeWF nodeAdd nodeRel exprWF exprRel)
  (hle : ∀ {n k} (t : OpTerm H T D) (d r : D), n ≤ k →
    apply A (node n) (cases n) n t d = .ok r → apply A (node k) (cases k) k t d = .ok r)
  (hnode : ∀ {h t}, nodeWF h t → Finder A den Canon (nodeS h t)
    (IsPart den fun n => apply A (node n) (cases n) n (.node h t))
    (fun n => apply A (node n) (cases n) n (.node h t))
    (fun n d => if d = A.none then .ok A.none else nodeHas n h t d))
  (hgfp : ∀ {x}, WF nodeWF exprWF Canon x → Finder A den Canon (cycle x)
    (IsPart den fun n => apply A (node n) (cases n) n (.gfp x))
    (fun n => apply A (node n) (cases n) n (.gfp x))
    (fun n d => if d = A.none then .ok A.none else gfpHas n x d))

include L hle hnode hgfp

mutual

/-- The existential image finds a part of the image, empty only when the image is. -/
theorem hasImage_finder : (t : OpTerm H T D) → WF nodeWF exprWF Canon t → Finder A den Canon
      (Searchable A den Canon (fun n => apply A (node n) (cases n) n) nodeS cycle t)
      (Part den (fun n => apply A (node n) (cases n) n) t)
      (fun n => apply A (node n) (cases n) n t)
      (fun n => hasImage A (apply A (node n) (cases n) n) (nodeHas n) (gfpHas n) t)
  | .id => fun _ => Finder.seed (fun _ _ h => by cases h; exact subset_rfl) fun _ => rfl
  | .node _ _ => hnode
  | .sum ts => fun hw => by
    have hA := (L 0).support
    obtain ⟨hmono, hfound⟩ := firstImage_finder ts hw
    refine ⟨fun hk h => ite_le (fun h => h) (hmono hk) h, fun {n c r} hc hs h => ?_⟩
    have hret := sum_returns.mp ⟨r, h⟩
    have hout := sum_out (L n) hc ((wfAll_iff _ _ _).mp hw) h
    obtain ⟨k, w, hw', hwc, hsome, hnone⟩ := hfound hc hs hret
    have hrc := apply_canon (L n) (.sum ts) c r hw hc h
    by_cases hn : c = A.none
    · subst hn
      rw [apply_none] at h
      cases h
      exact ⟨0, A.none, if_pos rfl, hA.canon_none, subset_rfl, fun _ => rfl, fun h => absurd rfl h⟩
    refine ⟨k, w, (if_neg hn).trans hw', hwc, ?_, fun hwn => ?_, fun hne => (hsome hne).1⟩
    · intro u hu
      have hne : w ≠ A.none := by
        rintro rfl
        rw [hA.den_none] at hu
        exact hu
      obtain ⟨-, t, ht, x, hx, hwx⟩ := hsome hne
      exact (hout u).mpr ⟨t, ht, x, hx, hwx hu⟩
    · refine (hA.eq_none_iff hrc).mpr (Set.eq_empty_of_forall_notMem fun u hu => ?_)
      obtain ⟨t, ht, x, hx, hux⟩ := (hout u).mp hu
      rw [hnone hwn t ht x hx, hA.den_none] at hux
      exact hux
  | .compose after before => fun hw => Finder.guard (L 0).support
      (Finder.compose (L 0).support (fun hk h => hle before _ _ hk h)
        (fun {n c r} => apply_canon (L n) before c r hw.2) (fun _ => apply_none after)
        (hasImage_finder before hw.2) (hasImage_finder after hw.1))
  | .lfp t => fun hw => Finder.seed
      (fun hc _ h => (lfp_inflates L (t := t) hw).le hc h) fun _ => apply_none _
  | .gfp x => fun hw => hgfp (x := x) hw
  | .within w => fun hw => Finder.all (fun _ h => h) fun {n c r} hc h =>
    apply_canon (L n) (.within w) c r hw hc h
  | .saturate _ _ _ => fun _ => Finder.seed (fun _ hs h => hs _ _ h) fun _ => apply_none _
  | .expr g as => fun hw => Finder.all (fun hk h => hle (.expr g as) _ _ hk h)
      fun {n c r} hc h => apply_canon (L n) (.expr g as) c r hw hc h

/-- The first summand that finds something. -/
theorem firstImage_finder : (ts : List (OpTerm H T D)) → WFAll nodeWF exprWF Canon ts →
    (∀ {n k c w}, n ≤ k →
      firstImage A (apply A (node n) (cases n) n) (nodeHas n) (gfpHas n) ts c = .ok w →
      firstImage A (apply A (node k) (cases k) k) (nodeHas k) (gfpHas k) ts c = .ok w) ∧
    ∀ {n c}, Canon c →
      SearchableAll A den Canon (fun n => apply A (node n) (cases n) n) nodeS cycle ts c →
      (∀ t ∈ ts, ∃ r, apply A (node n) (cases n) n t c = .ok r) →
      ∃ k w, firstImage A (apply A (node k) (cases k) k) (nodeHas k) (gfpHas k) ts c = .ok w ∧
        Canon w ∧
        (w ≠ A.none → PartOfAny den (fun n => apply A (node n) (cases n) n) ts c w ∧
          ∃ t ∈ ts, ∃ r, apply A (node n) (cases n) n t c = .ok r ∧ den w ⊆ den r) ∧
        (w = A.none → ∀ t ∈ ts, ∀ r, apply A (node n) (cases n) n t c = .ok r → r = A.none)
  | [], _ => ⟨fun _ h => h, fun {n c} _ _ _ => ⟨0, A.none, rfl, (L 0).support.canon_none,
      fun h => absurd rfl h, fun _ t ht => (nomatch ht)⟩⟩
  | t :: ts, hw => by
    obtain ⟨hmono, hfound⟩ := firstImage_finder ts hw.2
    have hF := hasImage_finder t hw.1
    refine ⟨fun hk h => bind_le (fun _ => hF.mono hk)
      (fun _ => ite_le (fun h => h) (hmono hk)) h, fun {n c} hc hs hret => ?_⟩
    obtain ⟨⟨r, hr⟩, hrs⟩ := List.forall_mem_cons.mp hret
    obtain ⟨k, w, hkw, hwc, hwr, hwn, hwp⟩ := hF.found hc hs.1 hr
    by_cases hn : w = A.none
    · obtain ⟨j, w', hjw, hwc', hsome, hnone⟩ := hfound hc (hs.2 ⟨n, hwn hn ▸ hr⟩) hrs
      refine ⟨max k j, w', ?_, hwc', fun hne => ?_, fun hn' => ?_⟩
      · exact bind_of_ok (hF.mono (Nat.le_max_left k j) hkw)
          ((if_neg (not_not.mpr hn)).trans (hmono (Nat.le_max_right k j) hjw))
      · obtain ⟨hp, e, he, hrest⟩ := hsome hne
        exact ⟨.inr hp, e, List.mem_cons_of_mem t he, hrest⟩
      · refine List.forall_mem_cons.mpr ⟨fun x hx => ?_, hnone hn'⟩
        rw [hr] at hx
        cases hx
        exact hwn hn
    · exact ⟨k, w, bind_of_ok hkw (if_pos hn), hwc,
        fun _ => ⟨.inl (hwp hn), t, List.mem_cons_self, r, hr, hwr⟩, fun h => absurd h hn⟩

end

end Search

end OpTerm

/-! ## Node terms -/

/-- The conditions of the two sides at the arcs that are reached: the sub where the prime has
an image, the next arc where one of the sides has none. -/
def ArcsSearchable {C D : Type} (H : SupportAlgebra C) (T : SupportAlgebra D)
    (fullH : Nat → C → Except Err C) (fullT : Nat → D → Except Err D) (AtH : C → Prop)
    (AtT : D → Prop) : List (Arc C D) → Prop
  | [] => True
  | a :: as => AtH a.prime ∧ (∀ n p, fullH n a.prime = .ok p → p ≠ H.none → AtT a.sub) ∧
      (IsWhole fullH a.prime H.none ∨ IsWhole fullT a.sub T.none →
        ArcsSearchable H T fullH fullT AtH AtT as)

theorem arcsSearchable_of_forall {C D : Type} {H : SupportAlgebra C} {T : SupportAlgebra D}
    {fullH : Nat → C → Except Err C} {fullT : Nat → D → Except Err D} {AtH : C → Prop}
    {AtT : D → Prop} : ∀ {as : List (Arc C D)}, (∀ a ∈ as, AtH a.prime ∧ AtT a.sub) →
    ArcsSearchable H T fullH fullT AtH AtT as
  | [], _ => trivial
  | a :: as, h => ⟨(h a List.mem_cons_self).1, fun _ _ _ _ => (h a List.mem_cons_self).2,
      fun _ => arcsSearchable_of_forall fun b hb => h b (List.mem_cons_of_mem a hb)⟩

section Node

variable {C D σ τ V W : Type} [DecidableEq C] [DecidableEq D] {H : SupportAlgebra C}
  {T : SupportAlgebra D} {MH : Nat → TermAlgebra C σ} {MT : Nat → TermAlgebra D τ}
  {denH : C → Set V} {denT : D → Set W} {CanonH : C → Prop} {CanonT : D → Prop}
  {WFH AddH : σ → Prop} {WFT AddT : τ → Prop} {relH : σ → V → V → Prop}
  {relT : τ → W → W → Prop} (hH : SupportLaws H denH CanonH) (hT : SupportLaws T denT CanonT)
  {hasH : Nat → C → Except Err C} {hasT : Nat → D → Except Err D} {h : σ} {t : τ}
  {AtH : C → Prop} {AtT : D → Prop} {PartH : C → C → Prop} {PartT : D → D → Prop}
  (hFH : Finder H denH CanonH AtH PartH (fun n => (MH n).apply h) hasH)
  (hFT : Finder T denT CanonT AtT PartT (fun n => (MT n).apply t) hasT)

include hFH hFT

theorem imageWitness_mono {n k : Nat} (hk : n ≤ k) : ∀ {as w : List (Arc C D)},
    imageWitness H T (hasH n) (hasT n) as = .ok w →
    imageWitness H T (hasH k) (hasT k) as = .ok w := by
  intro as
  induction as with
  | nil => exact fun h => h
  | cons a as ih =>
    exact fun h => bind_le (fun _ => hFH.mono hk) (fun _ => ite_le ih fun h =>
      bind_le (fun _ => hFT.mono hk) (fun _ => ite_le ih fun h => h) h) h

include hH hT

/-- An arc that one of the sides refuses adds nothing to the image. -/
theorem imageWitness_found {n : Nat} : ∀ {as : List (Arc C D)}, CanonArcs CanonH CanonT as →
    ArcsSearchable H T (fun n => (MH n).apply h) (fun n => (MT n).apply t) AtH AtT as →
    NodeReturns (MH n) (MT n) denH h t as →
    ∃ k w, imageWitness H T (hasH k) (hasT k) as = .ok w ∧ NodeCanon H T denH CanonH CanonT w ∧
      nodeDen denH denT w ⊆ nodeOut (MH n) (MT n) denH denT h t as ∧
      (w = [] → nodeOut (MH n) (MT n) denH denT h t as = ∅) := by
  intro as
  induction as with
  | nil =>
    intro _ _ _
    refine ⟨0, [], rfl, ?_, ?_, fun _ => by simp [nodeOut]⟩
    · exact ⟨canonArcs_nil, by simp, by simp, by simp, by simp, by simp⟩
    · rw [nodeDen_nil]
      exact Set.empty_subset _
  | cons a as ih =>
    intro hc hs hret
    obtain ⟨⟨hpc, hsc⟩, hcs⟩ := (canonArcs_cons a as).mp hc
    obtain ⟨⟨⟨p, hp⟩, htail⟩, hrets⟩ := List.forall_mem_cons.mp hret
    obtain ⟨hsp, hss, hsas⟩ := hs
    have hsplit : nodeOut (MH n) (MT n) denH denT h t (a :: as) =
        denH p ×ˢ (MT n).out denT t a.sub ∪ nodeOut (MH n) (MT n) denH denT h t as := by
      rw [← TermAlgebra.out_eq denH hp]
      ext w
      simp [nodeOut]
    -- the arc is refused: the rest of the node is searched
    have hskip : denH p ×ˢ (MT n).out denT t a.sub = ∅ →
        ArcsSearchable H T (fun n => (MH n).apply h) (fun n => (MT n).apply t) AtH AtT as →
        ∀ i, (∀ k, i ≤ k → imageWitness H T (hasH k) (hasT k) (a :: as) =
          imageWitness H T (hasH k) (hasT k) as) →
        ∃ k w, imageWitness H T (hasH k) (hasT k) (a :: as) = .ok w ∧
          NodeCanon H T denH CanonH CanonT w ∧
          nodeDen denH denT w ⊆ nodeOut (MH n) (MT n) denH denT h t (a :: as) ∧
          (w = [] → nodeOut (MH n) (MT n) denH denT h t (a :: as) = ∅) := by
      intro hempty hsas i heq
      obtain ⟨j, w', hw', hrest⟩ := ih hcs hsas hrets
      rw [hsplit, hempty, Set.empty_union]
      exact ⟨max i j, w', (heq _ (Nat.le_max_left i j)).trans
        (imageWitness_mono hFH hFT (Nat.le_max_right i j) hw'), hrest⟩
    obtain ⟨k, wh, hwh, hwhc, hwhp, hwhn, -⟩ := hFH.found hpc hsp hp
    by_cases hn : wh = H.none
    · refine hskip ?_ (hsas (.inl ⟨n, hwhn hn ▸ hp⟩)) k fun l hl =>
        bind_of_ok (hFH.mono hl hwh) (if_pos hn)
      rw [hwhn hn, hH.den_none, Set.empty_prod]
    · obtain ⟨v, hv⟩ := hH.nonempty_of_ne_none hwhc hn
      have hne : ((MH n).out denH h a.prime).Nonempty := by
        rw [TermAlgebra.out_eq denH hp]
        exact ⟨v, hwhp hv⟩
      have hpn : p ≠ H.none := by
        rintro rfl
        have hnone := hwhp hv
        rw [hH.den_none] at hnone
        exact hnone
      obtain ⟨s, hs⟩ := htail hne
      obtain ⟨i, wt, hwt, hwtc, hwts, hwtn, -⟩ := hFT.found hsc (hss n p hp hpn) hs
      have hrun : ∀ {l}, k ≤ l → i ≤ l → imageWitness H T (hasH l) (hasT l) (a :: as) =
          if wt = T.none then imageWitness H T (hasH l) (hasT l) as
          else .ok (rectangle H T wh wt) := fun hk hi =>
        bind_of_ok (hFH.mono hk hwh) ((if_neg hn).trans (bind_of_ok (hFT.mono hi hwt) rfl))
      by_cases hm : wt = T.none
      · refine hskip ?_ (hsas (.inr ⟨n, hwtn hm ▸ hs⟩)) (max k i) fun l hl =>
          (hrun (by omega) (by omega)).trans (if_pos hm)
        rw [TermAlgebra.out_eq denT hs, hwtn hm, hT.den_none, Set.prod_empty]
      · obtain ⟨hcan, hden⟩ := rectangle_correct hH hT hwhc hwtc
        refine ⟨max k i, _, (hrun (Nat.le_max_left k i) (Nat.le_max_right k i)).trans
          (if_neg hm), hcan, ?_, fun hnil => ?_⟩
        · rw [hden, hsplit, TermAlgebra.out_eq denT hs]
          exact (Set.prod_mono hwhp hwts).trans Set.subset_union_left
        · rw [rectangle, if_neg (not_or.mpr ⟨hn, hm⟩)] at hnil
          cases hnil

variable (LH : ∀ n, TermLaws (MH n) denH CanonH WFH AddH relH)
  (LT : ∀ n, TermLaws (MT n) denT CanonT WFT AddT relT)
  (hid : ∀ n h c, (MH n).isId h = true → (MH n).apply h c = .ok c) (hh : WFH h) (ht : WFT t)

include LH LT hid hh ht

theorem imageWitness_finder {A : SupportAlgebra (List (Arc C D))} (hA : A.none = []) :
    Finder A (nodeDen denH denT) (NodeCanon H T denH CanonH CanonT)
      (ArcsSearchable H T (fun n => (MH n).apply h) (fun n => (MT n).apply t) AtH AtT)
      (IsPart (nodeDen denH denT) fun n => applyNode H T (MH n) (MT n) h t)
      (fun n => applyNode H T (MH n) (MT n) h t)
      (fun n => imageWitness H T (hasH n) (hasT n)) where
  mono := fun hk => imageWitness_mono hFH hFT hk
  found := by
    intro n c r hc hs hr
    have hret := (applyNode_returns hH hT (LH n) (LT n) (hid n) hh ht hc).mp ⟨r, hr⟩
    have hrc := (applyNode_spec hH hT (LH n) (LT n) hh ht hc hr).1
    obtain ⟨k, w, hw, hwc, hle, hnil⟩ := imageWitness_found hH hT hFH hFT hc.canon hs hret
    rw [← applyNode_out hH hT (LH n) (LT n) (hid n) hh ht hc hr] at hle hnil
    refine ⟨k, w, hw, hwc, hle, fun hn => ?_, fun _ => ⟨n, r, hr, hle⟩⟩
    have hden := hnil (hn.trans hA)
    rw [hA]
    refine List.eq_nil_iff_forall_not_mem.mpr fun a ha => ?_
    obtain ⟨v, hv⟩ := hH.nonempty_of_ne_none (hrc.canon a ha).1 (hrc.prime_ne a ha)
    obtain ⟨s, hs⟩ := hT.nonempty_of_ne_none (hrc.canon a ha).2 (hrc.sub_ne a ha)
    have hmem : (v, s) ∈ nodeDen denH denT r := (mem_nodeDen denH denT).mpr ⟨a, ha, hv, hs⟩
    rw [hden] at hmem
    exact hmem

end Node

end LibHSC
