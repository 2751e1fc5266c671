import LibHSC.Surface.DeclareNeutral

/-!
The pass `(declare-domains)` on the explicit side: the rewritten forms read to a
specification with the same frontier, arrays, events and inits; the base words differ
only where a changed default is not overwritten by a pair `init`.
-/

namespace LibHSC.Surface

open Lia Xpl

/-! ## Ordered maps side by side -/

section Maps

variable {α β : Type} {P : String → α → β → Prop} {m : List (String × α)} {m' : List (String × β)}

/-- The same key, related values. -/
def Named (P : String → α → β → Prop) (a : String × α) (b : String × β) : Prop :=
  a.1 = b.1 ∧ P a.1 a.2 b.2

theorem named_mapInsert (h : List.Forall₂ (Named P) m m') {n : String} {v : α} {w : β}
    (hv : P n v w) : List.Forall₂ (Named P) (mapInsert n v m) (mapInsert n w m') := by
  induction h with
  | nil => exact .cons ⟨rfl, hv⟩ .nil
  | @cons a b m m' hab hm ih =>
    obtain ⟨k, u⟩ := a
    obtain ⟨k', u'⟩ := b
    obtain ⟨hk, hw⟩ := hab
    dsimp only at hk
    subst hk
    rw [mapInsert, mapInsert]
    split
    · exact .cons ⟨rfl, hv⟩ hm
    · split
      · exact .cons ⟨rfl, hv⟩ (.cons ⟨rfl, hw⟩ hm)
      · exact .cons ⟨rfl, hw⟩ ih

theorem named_lookup (h : List.Forall₂ (Named P) m m') (n : String) :
    (m.lookup n = none ∧ m'.lookup n = none) ∨
      ∃ v v', m.lookup n = some v ∧ m'.lookup n = some v' ∧ P n v v' := by
  induction h with
  | nil => exact .inl ⟨rfl, rfl⟩
  | @cons a b m m' hab hm ih =>
    obtain ⟨k, w⟩ := a
    obtain ⟨k', w'⟩ := b
    obtain ⟨hk, hw⟩ := hab
    dsimp only at hk
    subst hk
    rw [List.lookup_cons, List.lookup_cons]
    by_cases hn : n = k
    · subst hn
      simp only [BEq.rfl]
      exact .inr ⟨w, w', rfl, rfl, hw⟩
    · simp only [beq_eq_false_iff_ne.mpr hn]
      exact ih

end Maps

/-! ## Keys ascend, leaves stand on the frontier -/

theorem pairwise_mapInsert {α : Type} {m : List (String × α)} {n : String} {v : α}
    (h : (m.map Prod.fst).Pairwise (· < ·)) :
    ((mapInsert n v m).map Prod.fst).Pairwise (· < ·) := by
  induction m with
  | nil => simp [mapInsert]
  | cons y m ih =>
    obtain ⟨k, w⟩ := y
    rw [List.map_cons, List.pairwise_cons] at h
    rw [mapInsert]
    split
    · next hk =>
      subst hk
      rw [List.map_cons, List.pairwise_cons]
      exact h
    · next hk =>
      split
      · next hlt =>
        rw [List.map_cons, List.pairwise_cons, List.map_cons, List.pairwise_cons]
        refine ⟨fun k' hk' => ?_, h⟩
        rcases List.mem_cons.mp hk' with rfl | hk'
        · exact hlt
        · exact String.lt_trans hlt (h.1 k' hk')
      · next hlt =>
        rw [List.map_cons, List.pairwise_cons]
        refine ⟨fun k' hk' => ?_, ih h.2⟩
        obtain ⟨z, hz, rfl⟩ := List.mem_map.mp hk'
        rcases mem_mapInsert hz with rfl | hz
        · exact Std.lt_of_le_of_ne (Std.not_lt.mp hlt) (Ne.symm hk)
        · exact h.1 _ (List.mem_map.mpr ⟨z, hz, rfl⟩)

namespace Reading

/-- One entry for each leaf, at a place of the frontier that bears its name. -/
structure Ordered (r : Reading) : Prop where
  sorted : (r.leaves.map Prod.fst).Pairwise (· < ·)
  stands : ∀ a ∈ r.leaves, r.order[a.2.pos]? = some a.1

variable {r r' : Reading} {f : Datum}

theorem place_ordered {order : List String} : ∀ {names : List String} {p : Nat}
    {leaves out : List (String × LeafInfo)}, r.place f names p leaves = .ok out →
    order.drop p = names → (leaves.map Prod.fst).Pairwise (· < ·) →
    (∀ a ∈ leaves, order[a.2.pos]? = some a.1) →
    (out.map Prod.fst).Pairwise (· < ·) ∧ ∀ a ∈ out, order[a.2.pos]? = some a.1 := by
  intro names
  induction names with
  | nil =>
    intro p leaves out h _ hs hl
    cases h
    exact ⟨hs, hl⟩
  | cons name names ih =>
    intro p leaves out h hdrop hs hl
    unfold place at h
    split at h
    · cases h
    · have hp : order[p]? = some name := by
        have h0 : (order.drop p)[0]? = some name := by rw [hdrop]; rfl
        rwa [List.getElem?_drop, Nat.add_zero] at h0
      refine ih h ?_ (pairwise_mapInsert hs) fun a ha => ?_
      · rw [← List.drop_drop, hdrop]
        rfl
      · rcases mem_mapInsert ha with rfl | ha
        · exact hp
        · exact hl a ha

theorem readForm_ordered (h : r.readForm f = .ok r') (hr : r.Ordered) : r'.Ordered := by
  rcases readForm_frontier h with ⟨hl, ho⟩ | ⟨names, ho, hl⟩
  · refine ⟨hl ▸ hr.sorted, fun a ha => ?_⟩
    rw [ho]
    exact hr.stands a (hl ▸ ha)
  · have hout := place_ordered hl rfl hr.sorted fun a ha => by
      have hst := hr.stands a ha
      rw [ho, List.getElem?_append_left (List.getElem?_eq_some_iff.mp hst).1]
      exact hst
    exact ⟨hout.1, hout.2⟩

theorem readAll_ordered : ∀ {forms : List Datum} {r r' : Reading}, r.readAll forms = .ok r' →
    r.Ordered → r'.Ordered := by
  intro forms
  induction forms with
  | nil =>
    intro r r' h hr
    cases h
    exact hr
  | cons f forms ih =>
    intro r r' h hr
    obtain ⟨r₁, h₁, h⟩ := bind_eq_ok.mp h
    exact ih h (readForm_ordered h₁ hr)

end Reading

/-! ## The two readings -/

/-- The default of a declared leaf. -/
def tripleDefault (x : Bool × Int × Int) : Int := if x.1 then x.2.1 else 0

def LeafInfo.default (l : LeafInfo) : Int := if l.bounded then l.lo else 0

/-- Two readings that differ in the bounds only, and off `changed` not in the defaults. -/
structure SimReading (changed : List String) (r r' : Reading) : Prop where
  declared : List.Forall₂ (Named fun n v v' => n ∉ changed → tripleDefault v = tripleDefault v')
    r.declared r'.declared
  leaves : List.Forall₂ (Named fun n l l' => l.pos = l'.pos ∧
      (n ∉ changed → l.default = l'.default))
    r.leaves r'.leaves
  arrayCells : r'.arrayCells = r.arrayCells
  order : r'.order = r.order
  events : r'.events = r.events
  initPairs : r'.initPairs = r.initPairs
  initEvent : r'.initEvent = r.initEvent

section SimReading

variable {changed : List String} {r r' r₁ : Reading} {f : Datum}

theorem SimReading.position (h : SimReading changed r r') (n : String) :
    (r'.leaves.lookup n).map LeafInfo.pos = (r.leaves.lookup n).map LeafInfo.pos := by
  rcases named_lookup h.leaves n with ⟨h₁, h₂⟩ | ⟨l, l', h₁, h₂, hpos, -⟩
  · rw [h₁, h₂]
  · rw [h₁, h₂, Option.map_some, Option.map_some, hpos]

theorem SimReading.isSome (h : SimReading changed r r') (n : String) :
    (r'.leaves.lookup n).isSome = (r.leaves.lookup n).isSome := by
  have hpos := congrArg Option.isSome (h.position n)
  rwa [Option.isSome_map, Option.isSome_map] at hpos

theorem SimReading.isPairInit (h : SimReading changed r r') : r'.isPairInit f = r.isPairInit f := by
  unfold Reading.isPairInit
  simp only [h.isSome]

theorem SimReading.readPairs (h : SimReading changed r r') : ∀ its : List Datum,
    r'.readPairs its = r.readPairs its := by
  intro its
  induction its with
  | nil => rfl
  | cons it its ih =>
    unfold Reading.readPairs
    rw [ih, h.position]

theorem SimReading.place (h : SimReading changed r r') : ∀ {names : List String} {p : Nat}
    {leaves leaves' out : List (String × LeafInfo)},
    List.Forall₂ (Named fun n l l' => l.pos = l'.pos ∧ (n ∉ changed → l.default = l'.default))
      leaves leaves' →
    r.place f names p leaves = .ok out → ∃ out', r'.place f names p leaves' = .ok out' ∧
      List.Forall₂ (Named fun n l l' => l.pos = l'.pos ∧ (n ∉ changed → l.default = l'.default))
        out out' := by
  intro names
  induction names with
  | nil =>
    intro p leaves leaves' out hl hp
    cases hp
    exact ⟨leaves', rfl, hl⟩
  | cons name names ih =>
    intro p leaves leaves' out hl hp
    unfold Reading.place at hp ⊢
    rcases named_lookup h.declared name with ⟨h₁, h₂⟩ | ⟨v, v', h₁, h₂, hv⟩
    · rw [h₁] at hp
      cases hp
    · rw [h₁] at hp
      rw [h₂]
      obtain ⟨b, lo, hi⟩ := v
      obtain ⟨b', lo', hi'⟩ := v'
      have hins := named_mapInsert hl (n := name) (v := LeafInfo.mk p b lo hi)
        (w := LeafInfo.mk p b' lo' hi') ⟨rfl, hv⟩
      exact ih hins hp

/-- Any form but a leaf reads alike. -/
theorem SimReading.readForm (h : SimReading changed r r') (hf : f.head ≠ "leaf")
    (hr : r.readForm f = .ok r₁) : ∃ r₁', r'.readForm f = .ok r₁' ∧ SimReading changed r₁ r₁' := by
  unfold Reading.readForm at hr ⊢
  rw [if_neg hf] at hr ⊢
  split at hr
  · next ha =>
    cases hr
    rw [if_pos ha]
    refine ⟨_, rfl, h.declared, h.leaves, ?_, h.order, h.events, h.initPairs, h.initEvent⟩
    simp only [Reading.readArray, h.arrayCells]
  · next ha =>
    rw [if_neg ha]
    split at hr
    · next hs =>
      rw [if_pos hs]
      obtain ⟨names, hn, hr⟩ := bind_eq_ok.mp hr
      obtain ⟨leaves, hl, hr⟩ := bind_eq_ok.mp hr
      cases hr
      obtain ⟨leaves', hl', hrel⟩ := h.place h.leaves hl
      unfold Reading.readShape
      rw [hn, h.order]
      refine ⟨{ r' with order := r.order ++ names, leaves := leaves' }, ?_, h.declared, hrel,
        h.arrayCells, rfl, h.events, h.initPairs, h.initEvent⟩
      show (r'.place f (r.order ++ names) 0 r'.leaves >>= _) = _
      rw [hl']
      rfl
    · next hs =>
      rw [if_neg hs]
      split at hr
      · next hi =>
        rw [if_pos hi]
        unfold Reading.readInit at hr ⊢
        rw [h.isPairInit, h.readPairs]
        split at hr
        · next hp =>
          rw [if_pos hp]
          obtain ⟨ps, hps, hr⟩ := bind_eq_ok.mp hr
          cases hr
          rw [hps]
          refine ⟨_, rfl, h.declared, h.leaves, h.arrayCells, h.order, h.events, ?_, h.initEvent⟩
          simp only [h.initPairs]
        · next hp =>
          rw [if_neg hp]
          split at hr
          · next h2 =>
            rw [if_pos h2]
            dsimp only at hr ⊢
            split at hr
            · cases hr
            · next hk =>
              rw [if_neg hk]
              split at hr
              · next hseq =>
                cases hr
                rw [if_pos hseq]
                refine ⟨_, rfl, h.declared, h.leaves, h.arrayCells, h.order, h.events,
                  h.initPairs, ?_⟩
                simp only [h.initEvent]
              · next hseq =>
                cases hr
                rw [if_neg hseq]
                refine ⟨_, rfl, h.declared, h.leaves, h.arrayCells, h.order, h.events,
                  h.initPairs, ?_⟩
                simp only [h.initEvent]
          · next h2 =>
            cases hr
            rw [if_neg h2]
            exact ⟨_, rfl, h⟩
      · next hi =>
        rw [if_neg hi]
        split at hr
        · next he =>
          cases hr
          rw [if_pos he]
          refine ⟨_, rfl, h.declared, h.leaves, h.arrayCells, h.order, ?_, h.initPairs, h.initEvent⟩
          simp only [h.events]
        · next he =>
          rw [if_neg he]
          split at hr
          · next hfam =>
            rw [if_pos hfam]
            unfold Reading.readFamily at hr ⊢
            obtain ⟨n, hn, hr⟩ := bind_eq_ok.mp hr
            obtain ⟨insts, hinsts, hr⟩ := bind_eq_ok.mp hr
            cases hr
            rw [hn, h.arrayCells]
            refine ⟨{ r' with events := r'.events ++ insts }, ?_, h.declared, h.leaves,
              h.arrayCells, h.order, ?_, h.initPairs, h.initEvent⟩
            · refine bind_of_ok rfl (bind_of_ok hinsts ?_)
              rw [h.arrayCells]
              rfl
            · simp only [h.events]
          · next hfam =>
            cases hr
            rw [if_neg hfam]
            exact ⟨_, rfl, h⟩

end SimReading

/-! ## A leaf form -/

section Leaf

variable {x : Redeclared} {forms : List Datum} {r r' r₁ : Reading} {f : Datum}

theorem asInt_of_asValue {d : Datum} {what : String} {v : Int} (h : asValue d what = .ok v) :
    asInt d = some v := by
  unfold asValue at h
  split at h
  · split at h
    · cases h
      assumption
    · cases h
  · cases h

theorem asValue_of_asInt {d : Datum} {what : String} {v : Int} (h : asInt d = some v) :
    asValue d what = .ok v := by
  have hatom : d.isAtom = true := by
    cases ha : d.isAtom with
    | true => rfl
    | false =>
      unfold asInt at h
      rw [ha] at h
      cases h
  unfold asValue
  rw [if_pos hatom, h]

theorem readLeaf_sim (h : SimReading (x.changed forms) r r') (hx : x.InRange) (hf : f ∈ forms)
    (hleaf : f.head = "leaf") (hr : r.readLeaf f = .ok r₁) :
    ∃ r₁', r'.readLeaf (x.onForm f) = .ok r₁' ∧ SimReading (x.changed forms) r₁ r₁' := by
  have hsim : ∀ v v', ((f.item 1).text ∉ x.changed forms → tripleDefault v = tripleDefault v') →
      SimReading (x.changed forms)
        { r with declared := mapInsert (f.item 1).text v r.declared }
        { r' with declared := mapInsert (f.item 1).text v' r'.declared } := fun v v' hv =>
    ⟨named_mapInsert h.declared hv, h.leaves, h.arrayCells, h.order, h.events, h.initPairs,
      h.initEvent⟩
  unfold Redeclared.onForm
  rw [if_pos hleaf]
  cases hb : x.boundsOf f with
  | none =>
    unfold Reading.readLeaf at hr ⊢
    split at hr
    · next hlen =>
      rw [if_pos hlen]
      obtain ⟨lo, hlo, hr⟩ := bind_eq_ok.mp hr
      obtain ⟨hi, hhi, hr⟩ := bind_eq_ok.mp hr
      cases hr
      refine ⟨_, bind_of_ok hlo (bind_of_ok hhi rfl), hsim _ _ fun _ => rfl⟩
    · next hlen =>
      cases hr
      rw [if_neg hlen]
      exact ⟨_, rfl, hsim _ _ fun _ => rfl⟩
  | some b =>
    obtain ⟨h₁, h₂⟩ := Redeclared.boundsOf_inRange hx hb
    have hnew : r'.readLeaf (Redeclared.redeclare f b) =
        .ok { r' with declared := mapInsert (f.item 1).text (true, b.1, b.2) r'.declared } := by
      unfold Reading.readLeaf
      rw [if_pos (by simp [Redeclared.redeclare, Datum.items])]
      refine bind_of_ok (asValue_of_asInt (asInt_toString h₁ _)) ?_
      exact bind_of_ok (asValue_of_asInt (asInt_toString h₂ _)) rfl
    refine ⟨_, hnew, ?_⟩
    have hsame : (f.item 1).text ∉ x.changed forms → b.1 = declaredDefault f := by
      intro hnot
      by_contra hne
      exact hnot (mem_changed hf hleaf hb hne)
    unfold Reading.readLeaf at hr
    rcases Redeclared.boundsOf_length hb with hlen | hlen
    · rw [if_neg (by omega)] at hr
      cases hr
      refine hsim _ _ fun hnot => ?_
      rw [tripleDefault, tripleDefault, if_neg Bool.false_ne_true, if_pos rfl, hsame hnot,
        declaredDefault,
        if_neg (by omega)]
    · rw [if_pos (by omega)] at hr
      obtain ⟨lo, hlo, hr⟩ := bind_eq_ok.mp hr
      obtain ⟨hi, hhi, hr⟩ := bind_eq_ok.mp hr
      cases hr
      refine hsim _ _ fun hnot => ?_
      rw [tripleDefault, tripleDefault, if_pos rfl, if_pos rfl, hsame hnot, declaredDefault,
        if_pos hlen, asInt_of_asValue hlo]
      rfl

theorem readAll_sim (hx : x.InRange) : ∀ {fs : List Datum} {r r' r₁ : Reading},
    (∀ f ∈ fs, f ∈ forms) → SimReading (x.changed forms) r r' → r.readAll fs = .ok r₁ →
    ∃ r₁', r'.readAll (fs.map x.onForm) = .ok r₁' ∧ SimReading (x.changed forms) r₁ r₁' := by
  intro fs
  induction fs with
  | nil =>
    intro r r' r₁ _ h hr
    cases hr
    exact ⟨r', rfl, h⟩
  | cons f fs ih =>
    intro r r' r₁ hfs h hr
    obtain ⟨r₂, hr₂, hr⟩ := bind_eq_ok.mp hr
    have hstep : ∃ r₂', r'.readForm (x.onForm f) = .ok r₂' ∧
        SimReading (x.changed forms) r₂ r₂' := by
      by_cases hleaf : f.head = "leaf"
      · unfold Reading.readForm at hr₂ ⊢
        rw [onForm_head, if_pos hleaf]
        rw [if_pos hleaf] at hr₂
        exact readLeaf_sim h hx (hfs f List.mem_cons_self) hleaf hr₂
      · rw [Redeclared.onForm, if_neg hleaf]
        exact h.readForm hleaf hr₂
    obtain ⟨r₂', hr₂', hsim⟩ := hstep
    obtain ⟨r₁', hr₁', hsim₁⟩ := ih (fun g hg => hfs g (List.mem_cons_of_mem _ hg)) hsim hr
    exact ⟨r₁', bind_of_ok hr₂' hr₁', hsim₁⟩

end Leaf

/-! ## The base word -/

section Base

variable {changed : List String}

/-- The values that the leaves give their places. -/
def setDefaults (leaves : List (String × LeafInfo)) (w : Xpl.Word) : Xpl.Word :=
  leaves.foldl (fun w a => if a.2.bounded then w.set a.2.pos a.2.lo else w) w

theorem setDefaults_cons (a : String × LeafInfo) (leaves : List (String × LeafInfo))
    (w : Xpl.Word) :
    setDefaults (a :: leaves) w =
      setDefaults leaves (if a.2.bounded then w.set a.2.pos a.2.lo else w) := rfl

theorem setDefaults_length {leaves : List (String × LeafInfo)} {w : Xpl.Word} :
    (setDefaults leaves w).length = w.length := by
  induction leaves generalizing w with
  | nil => rfl
  | cons a leaves ih =>
    rw [setDefaults_cons, ih]
    split
    · exact List.length_set ..
    · rfl

/-- What one leaf leaves at a place. -/
theorem leaf_getElem? {l : LeafInfo} {w : Xpl.Word} {p : Nat} :
    (if l.bounded then w.set l.pos l.lo else w)[p]? =
      if l.pos = p ∧ w[p]? = some 0 then some l.default
      else if l.pos = p ∧ l.bounded = true ∧ p < w.length then some l.lo else w[p]? := by
  unfold LeafInfo.default
  cases hb : l.bounded with
  | true =>
    simp only [if_true, List.getElem?_set]
    by_cases hp : l.pos = p
    · by_cases hlt : p < w.length
      · simp [hp, hlt]
      · simp [hp, hlt]
    · simp [hp]
  | false =>
    by_cases hp : l.pos = p ∧ w[p]? = some 0
    · simp [hp]
    · simp [hp]

/-- The defaults of the two readings agree at a place that no changed leaf has. -/
theorem setDefaults_agree {leaves leaves' : List (String × LeafInfo)}
    (h : List.Forall₂ (Named fun n l l' =>
      l.pos = l'.pos ∧ (n ∉ changed → l.default = l'.default)) leaves leaves') :
    ∀ {w w' : Xpl.Word} {p : Nat}, leaves.Pairwise (fun a b => a.2.pos ≠ b.2.pos) →
    (∀ a ∈ leaves, a.2.pos = p → a.1 ∉ changed) → w[p]? = w'[p]? →
    ((∃ a ∈ leaves, a.2.pos = p) → w[p]? = some 0) →
    (setDefaults leaves w)[p]? = (setDefaults leaves' w')[p]? := by
  induction h with
  | nil => exact fun _ _ hw _ => hw
  | @cons a b leaves leaves' hab hrest ih =>
    intro w w' p hpos hch hw hzero
    obtain ⟨n, l⟩ := a
    obtain ⟨n', l'⟩ := b
    obtain ⟨rfl, hp, hd⟩ := hab
    dsimp only at hp hd
    rw [List.pairwise_cons] at hpos
    rw [setDefaults_cons, setDefaults_cons]
    have hch' : ∀ a ∈ leaves, a.2.pos = p → a.1 ∉ changed :=
      fun a ha => hch a (List.mem_cons_of_mem _ ha)
    by_cases hlp : l.pos = p
    · -- the leaf of the place: both readings leave its default there
      have hz : w[p]? = some 0 := hzero ⟨_, List.mem_cons_self .., hlp⟩
      refine ih hpos.2 hch' ?_ fun ⟨a, ha, hap⟩ => absurd (hlp.trans hap.symm) (hpos.1 a ha)
      rw [leaf_getElem?, leaf_getElem?, if_pos ⟨hlp, hz⟩, if_pos ⟨hp ▸ hlp, hw ▸ hz⟩,
        hd (hch _ List.mem_cons_self hlp)]
    · have hkeep : (if l.bounded then w.set l.pos l.lo else w)[p]? = w[p]? := by
        rw [leaf_getElem?, if_neg (fun h => hlp h.1), if_neg (fun h => hlp h.1)]
      have hkeep' : (if l'.bounded then w'.set l'.pos l'.lo else w')[p]? = w'[p]? := by
        rw [leaf_getElem?, if_neg (fun h => hlp (hp.trans h.1)),
          if_neg (fun h => hlp (hp.trans h.1))]
      refine ih hpos.2 hch' (hkeep.trans (hw.trans hkeep'.symm)) fun ⟨a, ha, hap⟩ => ?_
      rw [hkeep]
      exact hzero ⟨a, List.mem_cons_of_mem _ ha, hap⟩

/-- Pairs written over two words: they agree where they agreed, and where a pair stands. -/
theorem setAll_agree : ∀ {pairs : List (Nat × Int)} {w w' : Xpl.Word} {p : Nat},
    w.length = w'.length → (w[p]? = w'[p]? ∨ p ∈ pairs.map Prod.fst) →
    (pairs.foldl (fun w x => w.set x.1 x.2) w)[p]? =
      (pairs.foldl (fun w x => w.set x.1 x.2) w')[p]? := by
  intro pairs
  induction pairs with
  | nil =>
    intro w w' p _ h
    exact h.resolve_right nofun
  | cons x pairs ih =>
    intro w w' p hlen h
    rw [List.foldl_cons, List.foldl_cons]
    refine ih (by simpa using hlen) ?_
    rw [List.getElem?_set, List.getElem?_set, hlen]
    by_cases hxp : x.1 = p
    · exact .inl (by rw [if_pos hxp, if_pos hxp])
    · rw [if_neg hxp, if_neg hxp]
      rcases h with h | h
      · exact .inl h
      · rw [List.map_cons] at h
        rcases List.mem_cons.mp h with h | h
        · exact absurd h.symm hxp
        · exact .inr h

end Base

/-! ## The specification -/

/-- A specification is made of the parts of its reading. -/
structure IsSpecOf (r : Reading) (s : Spec) : Prop where
  leaves : s.leaves = r.leaves
  order : s.order = r.order
  arrays : s.arrays = r.arrays
  events : s.events = r.events
  initPairs : s.initPairs = r.initPairs
  initEvent : s.initEvent = r.initEvent

theorem read_eq_ok {forms : List Datum} {s : Spec} (h : Spec.read forms = .ok s) :
    ∃ r, Reading.empty.readAll forms = .ok r ∧ IsSpecOf r s := by
  unfold Spec.read at h
  split at h
  · cases h
  · next r hr =>
    cases h
    exact ⟨r, hr, rfl, rfl, rfl, rfl, rfl, rfl⟩

theorem read_of_readAll {forms : List Datum} {r : Reading}
    (h : Reading.empty.readAll forms = .ok r) : ∃ s, Spec.read forms = .ok s ∧ IsSpecOf r s := by
  cases hs : Spec.read forms with
  | ok s =>
    obtain ⟨r', hr', hspec⟩ := read_eq_ok hs
    rw [h] at hr'
    cases hr'
    exact ⟨s, rfl, hspec⟩
  | error e =>
    unfold Spec.read at hs
    split at hs
    · next e' he =>
      rw [h] at he
      cases he
    · cases hs

/-- Two specifications with one frontier, one transition relation and one set of seeds. -/
structure SameModel (s s' : Spec) : Prop where
  order : s'.order = s.order
  xpl : ∀ R, s'.xpl R = s.xpl R
  seeds : ∀ R, s'.seeds R = s.seeds R

theorem base_eq (s : Spec) : s.base = s.initPairs.foldl (fun w x => w.set x.1 x.2)
    (setDefaults s.leaves (List.replicate s.order.length 0)) := rfl

section Read

variable {x : Redeclared} {forms : List Datum} {s : Spec}

theorem leaves_pairwise {r : Reading} (h : r.Ordered) :
    r.leaves.Pairwise (fun a b => a.2.pos ≠ b.2.pos) := by
  have hsorted := List.pairwise_map.mp h.sorted
  refine List.Pairwise.imp_of_mem (fun {a b} ha hb hlt hpos => ?_) hsorted
  have hname : some a.1 = some b.1 := by
    rw [← h.stands a ha, ← h.stands b hb, hpos]
  exact String.ne_of_lt hlt (Option.some.inj hname)

/-- The rewritten forms read to the same model, if the pair inits list every changed
leaf. -/
theorem read_onForm (hx : x.InRange) (hread : Spec.read forms = .ok s)
    (hcover : ∀ a ∈ s.leaves, a.1 ∈ x.changed forms → a.2.pos ∈ s.initPairs.map Prod.fst) :
    ∃ s', Spec.read (forms.map x.onForm) = .ok s' ∧ SameModel s s' := by
  obtain ⟨r, hr, hs⟩ := read_eq_ok hread
  have hempty : SimReading (x.changed forms) Reading.empty Reading.empty :=
    ⟨.nil, .nil, rfl, rfl, rfl, rfl, rfl⟩
  obtain ⟨r', hr', hsim⟩ := readAll_sim hx (fun _ hf => hf) hempty hr
  obtain ⟨s', hread', hs'⟩ := read_of_readAll hr'
  have hord : r.Ordered := Reading.readAll_ordered hr ⟨.nil, nofun⟩
  have horder : s'.order = s.order := by rw [hs'.order, hs.order, hsim.order]
  have hscope : s'.scope = s.scope := by
    unfold Spec.scope
    have harrays : r'.arrays = r.arrays := by
      unfold Reading.arrays
      simp only [hsim.arrayCells, hsim.position]
    rw [hs'.leaves, hs.leaves, hs'.arrays, hs.arrays, harrays]
    simp only [hsim.position]
  have hbase : s'.base = s.base := by
    rw [base_eq, base_eq, hs'.initPairs, hs.initPairs, hs'.leaves, hs.leaves, horder,
      hsim.initPairs]
    refine List.ext_getElem? fun p => (setAll_agree ?_ ?_).symm
    · rw [setDefaults_length, setDefaults_length]
    · by_cases hp : ∃ a ∈ r.leaves, a.2.pos = p ∧ a.1 ∈ x.changed forms
      · obtain ⟨a, ha, hap, hch⟩ := hp
        have hlisted := hcover a (hs.leaves ▸ ha) hch
        rw [hs.initPairs, hap] at hlisted
        exact .inr hlisted
      · refine .inl (setDefaults_agree hsim.leaves (leaves_pairwise hord) ?_ rfl ?_)
        · exact fun a ha hap hch => hp ⟨a, ha, hap, hch⟩
        · rintro ⟨a, ha, rfl⟩
          have hlt : a.2.pos < s.order.length := by
            rw [hs.order]
            exact (List.getElem?_eq_some_iff.mp (hord.stands a ha)).1
          simp [hlt]
  refine ⟨s', hread', horder, fun R => ?_, fun R => ?_⟩
  · unfold Spec.xpl
    rw [hscope, horder, hs'.events, hs.events, hsim.events]
  · unfold Spec.seeds
    rw [hscope, horder, hbase, hs'.initEvent, hs.initEvent, hsim.initEvent]

end Read

end LibHSC.Surface
