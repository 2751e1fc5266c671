import LibHSC.HasImage

/-!
The cycle witness of a deflationary closure, and the existential image at every sort.

A cycle of the one-sided summands inside one arc is a cycle of the whole. The set below an
arc stays below every round of the full hull: the arc may grow thinner, but what stands
behind a word of the cycle never falls out of the cycle, and the primes of the cycle's words
are never parted.
-/

namespace LibHSC

open Lia

/-! ## Sums -/

namespace Sums

variable {m : Manager} {s : Shape} {t : Term s} {ts : List (Term s)}

/-- A sum of some of the summands. -/
theorem part {b : Term s} {bs : List (Term s)} (h : Sums m s t ts) (hb : Sums m s b bs)
    (hsub : ∀ e ∈ bs, e ∈ ts) {c : Code s} (hc : m.Canon s c) (hr : (m.terms s).Returns t c) :
    (m.terms s).Returns b c ∧ (m.terms s).out (den s) b c ⊆ (m.terms s).out (den s) t c := by
  have hall := (h.returns c hc).mp hr
  have hrb := (hb.returns c hc).mpr fun e he => hall e (hsub e he)
  refine ⟨hrb, ?_⟩
  rw [h.out c hc hr, hb.out c hc hrb]
  rintro w ⟨e, he, hw⟩
  exact ⟨e, hsub e he, hw⟩

end Sums

theorem sumAt_withFuel (m : Manager) (n : Nat) : (s : Shape) → ∀ events : List (Term s),
    sumAt (m.withFuel n) s events = sumAt m s events
  | .unit => fun events => by cases events <;> rfl
  | .leaf => fun events => by cases events <;> rfl
  | .pair h t => fun events => by
    have hh : sumAt (m.withFuel n) h = sumAt m h := funext (sumAt_withFuel m n h)
    have ht : sumAt (m.withFuel n) t = sumAt m t := funext (sumAt_withFuel m n t)
    show sumSides m h t _ (belowSum (sumAt (m.withFuel n) t) _)
      (edgeSum (sumAt (m.withFuel n) h) _) = _
    rw [hh, ht]
    rfl

/-- The folded sum, whatever the fuel. -/
theorem sumAt_sums_fueled {m : Manager} {s : Shape} {events : List (Term s)} (hne : events ≠ [])
    (hw : ∀ e ∈ events, m.WF s e) (hi : ∀ e ∈ events, Term.Interned s e) (n : Nat) :
    Sums (m.withFuel n) s (sumAt m s events) events := by
  rw [← sumAt_withFuel m n s events]
  exact sumAt_sums s events hne hw hi

/-! ## Classes of terms that the fold stays in -/

/-- A family of classes of terms, closed under the steps of the fold; `up` is the class of
the head operands of a class. -/
structure SumClass (m : Manager) {ι : Type} (P : ι → (s : Shape) → Term s → Prop)
    (up : ι → ι) : Prop where
  id : ∀ i s, P i s (Term.id s)
  leaf : ∀ {i a b}, P i .leaf a → P i .leaf b → P i .leaf (Term.sum m .leaf a b)
  unit : ∀ {i ts}, ts ≠ [] → (∀ e ∈ ts, P i .unit e) → P i .unit (OpTerm.sum ts)
  sum : ∀ {i h t ts}, ts ≠ [] → (P i (.pair h t) (OpTerm.sum ts) ↔ ∀ e ∈ ts, P i (.pair h t) e)
  node : ∀ {i h t a b}, P i (.pair h t) (OpTerm.node a b) → P (up i) h a ∧ P i t b
  wrap : ∀ {i h t a b}, P (up i) h a → P i t b → P i (.pair h t) (Term.node a b)

namespace SumClass

variable {m : Manager} {ι : Type} {P : ι → (s : Shape) → Term s → Prop} {up : ι → ι}
  (hP : SumClass m P up) {i : ι}

include hP

theorem sumAll {h t : Shape} {ts : List (Term (.pair h t))} (hts : ∀ e ∈ ts, P i (.pair h t) e) :
    P i (.pair h t) (Term.sumAll m ts) := by
  by_cases hne : ts = []
  · subst hne
    exact hP.id i (.pair h t)
  · rcases OpTerm.mkSum_cases (m.termIds (.pair h t)) hne with ⟨hmem, -⟩ | ⟨us, heq, hmem⟩
    · exact hts _ hmem
    · have hus : us ≠ [] := by
        obtain ⟨e, he⟩ := List.exists_mem_of_ne_nil ts hne
        exact List.ne_nil_of_mem ((hmem e).mpr he)
      have hsum : Term.sumAll m ts = OpTerm.sum us := heq
      rw [hsum]
      exact (hP.sum hus).mpr fun e he => hts e ((hmem e).mp he)

theorem sumUnit {a b : Term .unit} (ha : P i .unit a) (hb : P i .unit b) :
    P i .unit (Term.sum m .unit a b) := by
  have hab : ∀ e ∈ [a, b], P i .unit e :=
    List.forall_mem_cons.mpr ⟨ha, List.forall_mem_singleton.mpr hb⟩
  rcases OpTerm.mkSum_cases (m.termIds .unit) (List.cons_ne_nil a [b]) with
    ⟨hmem, -⟩ | ⟨us, heq, hmem⟩
  · exact hab _ hmem
  · have hus : us ≠ [] := List.ne_nil_of_mem ((hmem a).mpr List.mem_cons_self)
    have hsum : Term.sum m .unit a b = OpTerm.sum us := heq
    rw [hsum]
    exact hP.unit hus fun e he => hab e ((hmem e).mp he)

theorem flatten {h t : Shape} {events : List (Term (.pair h t))}
    (he : ∀ e ∈ events, P i (.pair h t) e) : ∀ e ∈ flattenAt events, P i (.pair h t) e := by
  refine forall_flattenAll (fun ts hts e he => ?_) events he
  exact (hP.sum (List.ne_nil_of_mem he)).mp hts e he

theorem below {h t : Shape} {flat : List (Term (.pair h t))}
    (hf : ∀ e ∈ flat, P i (.pair h t) e) : ∀ b ∈ belowAt flat, P i t b := by
  intro b hb
  obtain ⟨a, -, hmem⟩ := mem_belowOf.mp hb
  exact (hP.node (hf _ hmem)).2

theorem edge {h t : Shape} {flat : List (Term (.pair h t))}
    (hf : ∀ e ∈ flat, P i (.pair h t) e) : ∀ a ∈ edgeAt flat, P (up i) h a := by
  intro a ha
  obtain ⟨-, b, -, hmem⟩ := mem_edgeOf.mp ha
  exact (hP.node (hf _ hmem)).1

/-- The fold of terms of a class is in the class. By induction on the sort. -/
theorem sumAt : (s : Shape) → ∀ (i : ι) (events : List (Term s)), (∀ e ∈ events, P i s e) →
    P i s (LibHSC.sumAt m s events)
  | .unit => by
    intro i events he
    cases events with
    | nil => exact hP.id i .unit
    | cons e es =>
      obtain ⟨h0, hes⟩ := List.forall_mem_cons.mp he
      exact List.foldlRecOn es _ h0 fun a ha b hb => hP.sumUnit ha (hes b hb)
  | .leaf => by
    intro i events he
    cases events with
    | nil => exact hP.id i .leaf
    | cons e es =>
      obtain ⟨h0, hes⟩ := List.forall_mem_cons.mp he
      exact List.foldlRecOn es _ h0 fun a ha b hb => hP.leaf ha (hes b hb)
  | .pair h t => by
    intro i events he
    have hflat := hP.flatten he
    refine hP.sumAll fun e he' => ?_
    rcases List.mem_append.mp he' with he' | he'
    · rcases List.mem_append.mp he' with he' | he'
      · exact hflat e (mem_restOf.mp he').1
      · obtain ⟨-, rfl⟩ := mem_belowSum he'
        exact hP.wrap (hP.id _ h) (sumAt t i _ (hP.below hflat))
    · obtain ⟨-, rfl⟩ := mem_edgeSum he'
      exact hP.wrap (sumAt h (up i) _ (hP.edge hflat)) (hP.id i t)

end SumClass

namespace OpTerm

variable {H T D : Type} {nodeFree nodeClosure : H → T → Prop}

theorem gfpFreeAll_iff {ts : List (OpTerm H T D)} :
    GfpFreeAll nodeFree nodeClosure ts ↔ ∀ t ∈ ts, GfpFree nodeFree nodeClosure t := by
  induction ts with
  | nil => simp [GfpFreeAll]
  | cons t ts ih => simp [GfpFreeAll, ih]

theorem tameAll_iff {ts : List (OpTerm H T D)} :
    TameAll nodeFree nodeClosure ts ↔ ∀ t ∈ ts, Tame nodeFree nodeClosure t := by
  induction ts with
  | nil => simp [TameAll]
  | cons t ts ih => simp [TameAll, ih]

mutual

theorem tame_of_gfpFree {nodeTame : H → T → Prop} (hn : ∀ h t, nodeFree h t → nodeTame h t) :
    (t : OpTerm H T D) → t.GfpFree nodeFree nodeClosure → t.Tame nodeTame nodeClosure
  | .id, _ => trivial
  | .node h t, hf => hn h t hf
  | .sum ts, hf => tameAll_of_gfpFreeAll hn ts hf
  | .compose a b, hf => ⟨tame_of_gfpFree hn a hf.1, tame_of_gfpFree hn b hf.2⟩
  | .lfp t, hf => tame_of_gfpFree hn t hf
  | .within _, _ => trivial
  | .saturate f l g, ⟨hf, hl, hg, hc⟩ => ⟨tame_of_gfpFree hn f hf, tame_of_gfpFree hn l hl,
      tameAll_of_gfpFreeAll hn g hg, hc⟩
  | .expr _ _, _ => trivial

theorem tameAll_of_gfpFreeAll {nodeTame : H → T → Prop}
    (hn : ∀ h t, nodeFree h t → nodeTame h t) : (ts : List (OpTerm H T D)) →
    GfpFreeAll nodeFree nodeClosure ts → TameAll nodeTame nodeClosure ts
  | [], _ => trivial
  | t :: ts, hf => ⟨tame_of_gfpFree hn t hf.1, tameAll_of_gfpFreeAll hn ts hf.2⟩

end

section Searchable

variable {W : Type} [DecidableEq D] {A : SupportAlgebra D}
  {node : Nat → H → T → D → Except Err D} {cases : Nat → BExpr → List Assign → D → Except Err D}
  {den : D → Set W} {Canon : D → Prop} {nodeWF nodeAdd nodeI : H → T → Prop}
  {nodeRel : H → T → W → W → Prop} {exprWF : BExpr → List Assign → Prop}
  {exprRel : BExpr → List Assign → W → W → Prop} {nodeS : H → T → D → Prop}
  {cycle : OpTerm H T D → D → Prop}
  (L : ∀ n, SortLaws A (node n) (cases n) den Canon nodeWF nodeAdd nodeRel exprWF exprRel)
  (hnode : ∀ {h t}, nodeWF h t → nodeI h t → nodeFree h t → ∀ d, Canon d → nodeS h t d)
  (hsteady : ∀ {t}, WF nodeWF exprWF Canon t → Tame nodeFree nodeClosure t →
    Steady den Canon (fun n => apply A (node n) (cases n) n t))
  (hcycle : ∀ {t}, WF nodeWF exprWF Canon t → Interned nodeI t → Tame nodeFree nodeClosure t →
    ∀ d, Canon d → cycle t d)
  (hkeeps : ∀ {t}, WF nodeWF exprWF Canon t → Tame nodeFree nodeClosure t →
    t.IsClosure nodeClosure → Inflates den Canon (fun n => apply A (node n) (cases n) n t))

include L hnode hsteady hcycle hkeeps

mutual

theorem searchable_of_tame : (t : OpTerm H T D) → WF nodeWF exprWF Canon t →
    Interned nodeI t → Tame nodeFree nodeClosure t → ∀ d, Canon d →
    Searchable A den Canon (fun n => apply A (node n) (cases n) n) nodeS cycle t d
  | .id, _, _, _ => fun _ _ => trivial
  | .node _ _, hw, hi, ht => hnode hw hi ht
  | .sum ts, hw, hi, ht => searchableAll_of_tameAll ts hw hi.2 ht
  | .compose a b, hw, hi, ht => fun d hd => by
    have ha := searchable_of_tame a hw.1 hi.1 ht.1
    refine ⟨searchable_of_tame b hw.2 hi.2 ht.2 d hd, fun n x hx w hreach => ?_⟩
    have hxc : Canon x := apply_canon (L n) b d x hw.2 hd hx
    exact ⟨ha w hreach.canon, fun _ _ hr => (hsteady hw.1 ht.1).below hxc hreach.canon hreach.le hr,
      fun _ => ha x hxc⟩
  | .lfp _, _, _, _ => fun _ _ => trivial
  | .gfp _, hw, hi, ht => hcycle hw hi ht
  | .within _, _, _, _ => fun _ _ => trivial
  | .saturate _ _ _, ⟨hwf, hwl, hwg⟩, _, ⟨hf, hl, _, hcf, hcl⟩ => fun _ hd _ _ hr =>
    (saturate_inflates L hwf hwl hwg (hkeeps hwf hf hcf) (hkeeps hwl hl hcl)).le hd hr
  | .expr _ _, _, _, _ => fun _ _ => trivial

theorem searchableAll_of_tameAll : (ts : List (OpTerm H T D)) → WFAll nodeWF exprWF Canon ts →
    AllInterned nodeI ts → TameAll nodeFree nodeClosure ts → ∀ d, Canon d →
    SearchableAll A den Canon (fun n => apply A (node n) (cases n) n) nodeS cycle ts d
  | [], _, _, _ => fun _ _ => trivial
  | t :: ts, hw, hi, ht => fun d hd => ⟨searchable_of_tame t hw.1 hi.1 ht.1 d hd,
      fun _ => searchableAll_of_tameAll ts hw.2 hi.2 ht.2 d hd⟩

end

end Searchable

end OpTerm

theorem Term.tame_of_gfpFree : (s : Shape) → ∀ t : Term s, Term.GfpFree s t → Term.Tame s t
  | .unit => fun t ht => OpTerm.tame_of_gfpFree (fun h _ _ => h.elim) t ht
  | .leaf => fun _ _ => trivial
  | .pair _ ts => fun t ht => OpTerm.tame_of_gfpFree
      (fun _ b hab => ⟨hab.1, Term.tame_of_gfpFree ts b hab.2⟩) t ht

/-- With or without deflationary closures; the head operands always without. -/
def Term.Smooth (tame : Bool) (s : Shape) (t : Term s) : Prop :=
  if tame then Term.Tame s t else Term.GfpFree s t

theorem smooth_class {m : Manager} : SumClass m Term.Smooth fun _ => false where
  id := by
    intro i s
    cases i <;> cases s <;> trivial
  leaf := by
    intro i _ _ _ _
    cases i <;> trivial
  unit := by
    intro i ts _ hts
    cases i with
    | true => exact OpTerm.tameAll_iff.mpr hts
    | false => exact OpTerm.gfpFreeAll_iff.mpr hts
  sum := by
    intro i h t ts _
    cases i with
    | true => exact OpTerm.tameAll_iff
    | false => exact OpTerm.gfpFreeAll_iff
  node := by
    intro i h t a b hab
    cases i <;> exact hab
  wrap := by
    intro i h t a b ha hb
    rcases node_cases a b with ⟨-, -, heq⟩ | heq
    · rw [heq]
      cases i <;> trivial
    · rw [heq]
      cases i <;> exact ⟨ha, hb⟩

theorem wf_class {m : Manager} : SumClass m (fun (_ : Unit) => m.WF) fun i => i where
  id := fun _ s => (denotes_id s).wf
  leaf := fun ha hb => (sums_leaf ha hb).wf
  unit := fun _ hts => (OpTerm.wfAll_iff _ _ _).mpr hts
  sum := fun _ => OpTerm.wfAll_iff _ _ _
  node := fun hab => hab
  wrap := by
    intro _ h t a b ha hb
    unfold Term.node OpTerm.mkNode
    split
    · trivial
    · exact ⟨ha, hb⟩

theorem interned_class {m : Manager} : SumClass m (fun (_ : Unit) => Term.Interned) fun i => i where
  id := by
    intro _ s
    cases s <;> trivial
  leaf := fun _ _ => trivial
  unit := fun hne hts => ⟨hne, OpTerm.allInterned_iff.mpr hts⟩
  sum := fun hne => ⟨fun hts => OpTerm.allInterned_iff.mp hts.2,
    fun hts => ⟨hne, OpTerm.allInterned_iff.mpr hts⟩⟩
  node := fun hab => hab.2
  wrap := by
    intro _ h t a b ha hb
    unfold Term.node OpTerm.mkNode
    split
    · trivial
    · next hid => exact ⟨fun hboth => hid (Bool.and_eq_true_iff.mpr hboth), ha, hb⟩

/-! ## A cycle of one side -/

section Sides

variable {m : Manager} {h t : Shape} {x : Term (.pair h t)} (hw : m.WF (.pair h t) x)
  (hi : Term.Interned (.pair h t) x)

include hw in
theorem summands_wf : ∀ e ∈ summands x, m.WF (.pair h t) e := by
  intro e he
  refine forall_flattenInto (fun ts hts => ?_) x hw e (List.mem_reverse.mp he)
  exact (OpTerm.wfAll_iff _ _ _).mp hts

include hi in
theorem summands_interned : ∀ e ∈ summands x, Term.Interned (.pair h t) e := by
  intro e he
  refine forall_flattenInto (fun ts hts => ?_) x hi e (List.mem_reverse.mp he)
  exact OpTerm.allInterned_iff.mp hts.2

include hw hi

/-- The tail-only summands, folded. -/
theorem below_sums (hne : belowAt (summands x) ≠ []) (n : Nat) :
    Sums (m.withFuel n) t (sumAt m t (belowAt (summands x))) (belowAt (summands x)) :=
  sumAt_sums_fueled hne (wf_belowAt (summands_wf hw))
    (fun _ hb => (mem_belowAt (summands_interned hi) hb).2) n

theorem edge_sums (hne : edgeAt (summands x) ≠ []) (n : Nat) :
    Sums (m.withFuel n) h (sumAt m h (edgeAt (summands x))) (edgeAt (summands x)) :=
  sumAt_sums_fueled hne (wf_edgeAt (summands_wf hw))
    (fun _ ha => (mem_edgeAt (summands_interned hi) ha).2) n

variable {n : Nat} {z : Code (.pair h t)} (hz : m.Canon (.pair h t) z)
  (hr : ((m.withFuel n).terms (.pair h t)).Returns x z)

include hz hr

/-- The folded wrapper of the tail-only summands is part of the whole. -/
theorem below_part (hne : belowAt (summands x) ≠ []) :
    ((m.withFuel n).terms (.pair h t)).Returns
        (Term.node (Term.id h) (sumAt m t (belowAt (summands x)))) z ∧
      ((m.withFuel n).terms (.pair h t)).out (den (.pair h t))
        (Term.node (Term.id h) (sumAt m t (belowAt (summands x)))) z ⊆
        ((m.withFuel n).terms (.pair h t)).out (den (.pair h t)) x z := by
  have hb := sums_below (h := h) (below_sums hw hi hne n) (wf_belowAt (summands_wf hw))
  refine (sums_flattenInto (m := m.withFuel n) x hw).part hb (fun e he => ?_) hz hr
  obtain ⟨b, hb, rfl⟩ := List.mem_map.mp he
  exact List.mem_reverse.mp (mem_belowAt (summands_interned hi) hb).1

theorem edge_part (hne : edgeAt (summands x) ≠ []) :
    ((m.withFuel n).terms (.pair h t)).Returns
        (Term.node (sumAt m h (edgeAt (summands x))) (Term.id t)) z ∧
      ((m.withFuel n).terms (.pair h t)).out (den (.pair h t))
        (Term.node (sumAt m h (edgeAt (summands x))) (Term.id t)) z ⊆
        ((m.withFuel n).terms (.pair h t)).out (den (.pair h t)) x z := by
  have he := sums_edge (t := t) (edge_sums hw hi hne n) (wf_edgeAt (summands_wf hw))
  refine (sums_flattenInto (m := m.withFuel n) x hw).part he (fun e he => ?_) hz hr
  obtain ⟨a, ha, rfl⟩ := List.mem_map.mp he
  exact List.mem_reverse.mp (mem_edgeAt (summands_interned hi) ha).1

omit hw hi hz hr in
/-- A covered set is in the image of whatever contains it. -/
theorem covers_out {s : Shape} {f : Term s}
    (hf : Steady (den s) (m.Canon s) (fun n => (m.withFuel n).apply s f)) {q c : Code s}
    (hq : m.Canon s q) (hc : m.Canon s c) (hcov : m.Covers s f q) (hle : den s q ⊆ den s c)
    (hret : ((m.withFuel n).terms s).Returns f c) :
    den s q ⊆ ((m.withFuel n).terms s).out (den s) f c := by
  obtain ⟨y, ⟨k, hy⟩, hqy⟩ := hcov
  obtain ⟨r, hr⟩ := hret
  obtain ⟨j, y', hy', hle'⟩ := hf.below hc hq hle hr
  rw [TermAlgebra.out_eq (den s) hr]
  rw [hf.unique hy hy'] at hqy
  exact hqy.trans hle'

/-- A cycle behind a prime survives a round. -/
theorem below_kept (hne : belowAt (summands x) ≠ []) (hf : Steady (den t) (m.Canon t)
      (fun n => (m.withFuel n).apply t (sumAt m t (belowAt (summands x)))))
    {S : Set (Word h)} {q : Code t} (hq : m.Canon t q)
    (hcov : m.Covers t (sumAt m t (belowAt (summands x))) q)
    (hle : S ×ˢ den t q ⊆ den (.pair h t) z) :
    S ×ˢ den t q ⊆ ((m.withFuel n).terms (.pair h t)).out (den (.pair h t)) x z := by
  rintro ⟨v, s⟩ ⟨hv, hs⟩
  obtain ⟨hret, hsub⟩ := below_part hw hi hz hr hne
  have hwf := (below_sums hw hi hne n).wf
  refine hsub ?_
  rw [node_out (denotes_id h).wf hwf hz hret]
  obtain ⟨b, hb, hvb, hqb⟩ := arc_behind hz ⟨s, hs⟩ fun s' hs' => hle ⟨hv, hs'⟩
  have hrb := (below_returns hwf hz).mp hret b hb
  refine ⟨b, hb, ?_, covers_out hf hq (NodeCanon.canon hz b hb).2 hcov hqb hrb hs⟩
  rw [out_id]
  exact hvb

/-- A cycle in a prime survives a round: the words of the cycle have the same sub behind
them all the way down, so they stay in one prime. -/
theorem edge_kept (hne : edgeAt (summands x) ≠ []) (hl : Steady (den h) (m.Canon h)
      (fun n => (m.withFuel n).apply h (sumAt m h (edgeAt (summands x)))))
    {d : Code (.pair h t)} (hd : m.Canon (.pair h t) d) (hzd : den (.pair h t) z ⊆
      den (.pair h t) d)
    {a : Arc (Code h) (Code t)} (ha : a ∈ arcs d) {p : Code h} (hp : m.Canon h p)
    (hpa : den h p ⊆ den h a.prime) (hcov : m.Covers h (sumAt m h (edgeAt (summands x))) p)
    (hle : den h p ×ˢ den t a.sub ⊆ den (.pair h t) z) :
    den h p ×ˢ den t a.sub ⊆ ((m.withFuel n).terms (.pair h t)).out (den (.pair h t)) x z := by
  have harc : ∀ v ∈ den h p, ∃ b ∈ arcs z, v ∈ den h b.prime ∧ b.sub = a.sub := by
    intro v hv
    have hne := (m.laws t).nonempty_of_ne_none (NodeCanon.canon hd a ha).2
      (NodeCanon.sub_ne hd a ha)
    obtain ⟨b, hb, hvb, hab⟩ := arc_behind hz hne fun s hs => hle ⟨hv, hs⟩
    obtain ⟨a', ha', hva', hba'⟩ := arc_below hd hz (m.laws t) hzd hb hvb
    have heq := DisjointPrimes.eq_of_mem (den h) (NodeCanon.disjoint hd) ha ha' (hpa hv) hva'
    rw [← heq] at hba'
    exact ⟨b, hb, hvb, (m.laws t).ext (NodeCanon.canon hz b hb).2 (NodeCanon.canon hd a ha).2
      (Set.Subset.antisymm hba' hab)⟩
  rintro ⟨v, s⟩ ⟨hv, hs⟩
  obtain ⟨hret, hsub⟩ := edge_part hw hi hz hr hne
  have hwf := (edge_sums hw hi hne n).wf
  refine hsub ?_
  rw [node_out hwf (denotes_id t).wf hz hret]
  obtain ⟨b, hb, hvb, hba⟩ := harc v hv
  have hpb : den h p ⊆ den h b.prime := by
    intro v' hv'
    obtain ⟨b', hb', hvb', hba'⟩ := harc v' hv'
    have heq : b' = b := List.inj_on_of_nodup_map (NodeCanon.distinct hz) hb' hb
      (hba'.trans hba.symm)
    exact heq ▸ hvb'
  have hrb := (edge_returns hwf hz).mp hret b hb
  refine ⟨b, hb, covers_out hl hp (NodeCanon.canon hz b hb).1 hcov hpb hrb hv, ?_⟩
  rw [out_id, hba]
  exact hs

omit hi hz hr

section Hull

variable {d r : Code (.pair h t)} (hd : m.Canon (.pair h t) d)
  (hhull : (m.withFuel n).apply (.pair h t) (OpTerm.gfp x) d = .ok r)

include hd hhull

/-- What every round keeps is in the hull. -/
theorem hull_above {X : Set (Word (.pair h t))} (hX : X ⊆ den (.pair h t) d)
    (hstep : ∀ z, m.Canon (.pair h t) z → den (.pair h t) z ⊆ den (.pair h t) d →
      X ⊆ den (.pair h t) z → ((m.withFuel n).terms (.pair h t)).Returns x z →
      X ⊆ ((m.withFuel n).terms (.pair h t)).out (den (.pair h t)) x z) :
    X ⊆ den (.pair h t) r := by
  have hA := m.laws (.pair h t)
  by_cases hn : d = (m.algebra (.pair h t)).none
  · subst hn
    have habsent : (m.withFuel n).apply (.pair h t) (OpTerm.gfp x) (m.algebra (.pair h t)).none =
        .ok (m.algebra (.pair h t)).none := (m.withFuel n).apply_absent (.pair h t) _
    rw [habsent] at hhull
    cases hhull
    exact hX
  · have hloop : untilStable .fuel (m.deflate n (.pair h t) x) n d = .ok r :=
      (if_neg hn).symm.trans hhull
    refine (untilStable_inv (P := fun z => m.Canon (.pair h t) z ∧
      den (.pair h t) z ⊆ den (.pair h t) d ∧ X ⊆ den (.pair h t) z) (fun z u hz hu => ?_)
      ⟨hd, subset_rfl, hX⟩ hloop).1.2.2
    obtain ⟨hzc, hzd, hXz⟩ := hz
    obtain ⟨y, hy, hu⟩ := bind_eq_ok.mp hu
    cases hu
    have hyc := (m.fueledLaws n (.pair h t)).canon_apply hw hzc hy
    have hXy := hstep z hzc hzd hXz ⟨y, hy⟩
    rw [TermAlgebra.out_eq _ hy] at hXy
    rw [hA.den_meet hzc hyc]
    exact ⟨hA.canon_meet hzc hyc, Set.inter_subset_left.trans hzd, Set.subset_inter hXz hXy⟩

omit hw hd in
theorem hull_returns (hn : d ≠ (m.algebra (.pair h t)).none) :
    ((m.withFuel n).terms (.pair h t)).Returns x d := by
  have hloop : untilStable .fuel (m.deflate n (.pair h t) x) n d = .ok r :=
    (if_neg hn).symm.trans hhull
  cases n with
  | zero => cases hloop
  | succ n =>
    obtain ⟨y, hy, -⟩ := bind_eq_ok.mp hloop
    obtain ⟨u, hu, -⟩ := bind_eq_ok.mp hy
    exact ⟨u, hu⟩

omit hw hd hhull in
/-- The deflationary closure of a monotone term that returns: it ends in a covered set. -/
theorem gfp_covered {s : Shape} {f : Term s}
    (hf : Steady (den s) (m.Canon s) (fun n => (m.withFuel n).apply s f)) {c : Code s}
    (hc : m.Canon s c) (hret : ((m.withFuel n).terms s).Returns f c) :
    ∃ q, m.GivesGfp s f c q ∧ m.Canon s q ∧ den s q ⊆ den s c ∧ m.Covers s f q := by
  obtain ⟨hiff, hval⟩ := Manager.givesGfp_greatest hf hc
  obtain ⟨y, hy⟩ := hret
  obtain ⟨q, hq⟩ := hiff.mpr ⟨y, n, hy⟩
  obtain ⟨hqc, ⟨c', hc', heq, hle, hcov⟩, -⟩ := hval q hq
  rw [(m.laws s).ext hc' hqc heq] at hcov
  exact ⟨q, hq, hqc, hle, hcov⟩

include hi

/-- A cycle of the tail-only summands behind a prime, and the prime, lie in the hull. -/
theorem below_cycle (hn : d ≠ (m.algebra (.pair h t)).none) (hne : belowAt (summands x) ≠ [])
    (hf : Steady (den t) (m.Canon t)
      (fun n => (m.withFuel n).apply t (sumAt m t (belowAt (summands x)))))
    {a : Arc (Code h) (Code t)} (ha : a ∈ arcs d) :
    ∃ q, m.GivesGfp t (sumAt m t (belowAt (summands x))) a.sub q ∧
      den h a.prime ×ˢ den t q ⊆ den (.pair h t) r := by
  have hac := (NodeCanon.canon hd a ha).2
  have hpart := (below_part hw hi hd (hull_returns hhull hn) hne).1
  have hret := (below_returns (below_sums hw hi hne n).wf hd).mp hpart a ha
  obtain ⟨q, hq, hqc, hle, hcov⟩ := gfp_covered hf hac hret
  refine ⟨q, hq, hull_above hw hd hhull ?_ fun z hz _ hXz hrz =>
    below_kept hw hi hz hrz hne hf hqc hcov hXz⟩
  rintro ⟨v, s⟩ ⟨hv, hs⟩
  exact (mem_nodeDen (den h) (den t)).mpr ⟨a, ha, hv, hle hs⟩

theorem edge_cycle (hn : d ≠ (m.algebra (.pair h t)).none) (hne : edgeAt (summands x) ≠ [])
    (hl : Steady (den h) (m.Canon h)
      (fun n => (m.withFuel n).apply h (sumAt m h (edgeAt (summands x)))))
    {a : Arc (Code h) (Code t)} (ha : a ∈ arcs d) :
    ∃ p, m.GivesGfp h (sumAt m h (edgeAt (summands x))) a.prime p ∧
      den h p ×ˢ den t a.sub ⊆ den (.pair h t) r := by
  have hac := (NodeCanon.canon hd a ha).1
  have hpart := (edge_part hw hi hd (hull_returns hhull hn) hne).1
  have hret := (edge_returns (edge_sums hw hi hne n).wf hd).mp hpart a ha
  obtain ⟨p, hp, hpc, hle, hcov⟩ := gfp_covered hl hac hret
  refine ⟨p, hp, hull_above hw hd hhull ?_ fun z hz hzd hXz hrz =>
    edge_kept hw hi hz hrz hne hl hd hzd ha hpc hle hcov hXz⟩
  rintro ⟨v, s⟩ ⟨hv, hs⟩
  exact (mem_nodeDen (den h) (den t)).mpr ⟨a, ha, hle hv, hs⟩

end Hull

end Sides

/-! ## The descent into the arcs -/

/-- What is asked of the arcs a descent reaches: of the tail, of the head when the tail has
no cycle, and of the next arc when neither has. -/
def ArcCycles {C D : Type} (tailOk tailStops headOk headStops : Arc C D → Prop) :
    List (Arc C D) → Prop
  | [] => True
  | a :: as => tailOk a ∧
      (tailStops a → headOk a ∧ (headStops a → ArcCycles tailOk tailStops headOk headStops as))

theorem arcCycles_of_forall {C D : Type} {tailOk tailStops headOk headStops : Arc C D → Prop} :
    ∀ {as : List (Arc C D)}, (∀ a ∈ as, tailOk a ∧ headOk a) →
    ArcCycles tailOk tailStops headOk headStops as
  | [], _ => trivial
  | a :: as, h => ⟨(h a List.mem_cons_self).1, fun _ => ⟨(h a List.mem_cons_self).2,
      fun _ => arcCycles_of_forall fun b hb => h b (List.mem_cons_of_mem a hb)⟩⟩

section Descent

variable {C D V W : Type} [DecidableEq C] [DecidableEq D] {H : SupportAlgebra C}
  {T : SupportAlgebra D} {denH : C → Set V} {denT : D → Set W} {CanonH : C → Prop}
  {CanonT : D → Prop} {cycleT : Nat → D → Except Err D} {cycleH : Nat → C → Except Err C}
  (hull : Nat → Except Err (List (Arc C D)))
  (hmT : ∀ n k c w, n ≤ k → cycleT n c = .ok w → cycleT k c = .ok w)
  (hmH : ∀ n k c w, n ≤ k → cycleH n c = .ok w → cycleH k c = .ok w)
  (hmr : ∀ n k w, n ≤ k → hull n = .ok w → hull k = .ok w)

include hmT hmH hmr

theorem cycleWitness_mono {n k : Nat} (hk : n ≤ k) : ∀ {as w : List (Arc C D)},
    cycleWitness H T (cycleT n) (cycleH n) (hull n) as = .ok w →
    cycleWitness H T (cycleT k) (cycleH k) (hull k) as = .ok w := by
  intro as
  induction as with
  | nil => exact fun {w} => hmr n k w hk
  | cons a as ih =>
    exact fun h => bind_le (fun w => hmT n k _ w hk) (fun _ => ite_le (fun h => h) fun h =>
      bind_le (fun w => hmH n k _ w hk) (fun _ => ite_le (fun h => h) ih) h) h

/-- Each arc gives a rectangle inside the hull, or leaves the search to the next. -/
theorem cycleWitness_found (hH : SupportLaws H denH CanonH) (hT : SupportLaws T denT CanonT)
    {r : List (Arc C D)} {j : Nat} (hr : hull j = .ok r)
    (hrc : NodeCanon H T denH CanonH CanonT r) {tailOk tailStops headOk headStops : Arc C D → Prop}
    (hbelow : ∀ a : Arc C D, CanonT a.sub → tailOk a → ∃ k w, cycleT k a.sub = .ok w ∧ CanonT w ∧
      denH a.prime ×ˢ denT w ⊆ nodeDen denH denT r ∧ (w = T.none → tailStops a))
    (hedge : ∀ a : Arc C D, CanonH a.prime → headOk a → ∃ k w, cycleH k a.prime = .ok w ∧
      CanonH w ∧ denH w ×ˢ denT a.sub ⊆ nodeDen denH denT r ∧ (w = H.none → headStops a)) :
    ∀ {as : List (Arc C D)}, CanonArcs CanonH CanonT as → (∀ a ∈ as, a.prime ≠ H.none) →
    (∀ a ∈ as, a.sub ≠ T.none) → ArcCycles tailOk tailStops headOk headStops as →
    ∃ k w, cycleWitness H T (cycleT k) (cycleH k) (hull k) as = .ok w ∧
      NodeCanon H T denH CanonH CanonT w ∧ nodeDen denH denT w ⊆ nodeDen denH denT r ∧
      (w = [] → r = []) := by
  intro as
  induction as with
  | nil => exact fun _ _ _ _ => ⟨j, r, hr, hrc, subset_rfl, fun h => h⟩
  | cons a as ih =>
    intro hc hp hs hcyc
    obtain ⟨⟨hpc, hsc⟩, hcs⟩ := (canonArcs_cons a as).mp hc
    obtain ⟨hpa, hps⟩ := List.forall_mem_cons.mp hp
    obtain ⟨hsa, hss⟩ := List.forall_mem_cons.mp hs
    obtain ⟨htail, hnext⟩ := hcyc
    obtain ⟨k, wt, hwt, hwtc, hwtr, htn⟩ := hbelow a hsc htail
    have hne : ∀ {p : C} {q : D}, p ≠ H.none → q ≠ T.none → rectangle H T p q ≠ [] := by
      intro p q hp hq
      rw [rectangle, if_neg (not_or.mpr ⟨hp, hq⟩)]
      exact List.cons_ne_nil _ _
    by_cases hnt : wt = T.none
    · obtain ⟨hhead, hrest⟩ := hnext (htn hnt)
      obtain ⟨i, wh, hwh, hwhc, hwhr, hhn⟩ := hedge a hpc hhead
      by_cases hnh : wh = H.none
      · obtain ⟨l, w, hw, hrest⟩ := ih hcs hps hss (hrest (hhn hnh))
        refine ⟨max (max k i) l, w, ?_, hrest⟩
        refine bind_of_ok (hmT _ _ _ _ (by omega) hwt) ((if_neg (not_not.mpr hnt)).trans ?_)
        refine bind_of_ok (hmH _ _ _ _ (by omega) hwh) ((if_neg (not_not.mpr hnh)).trans ?_)
        exact cycleWitness_mono hull hmT hmH hmr (Nat.le_max_right (max k i) l) hw
      · obtain ⟨hcan, hden⟩ := rectangle_correct hH hT hwhc hsc
        refine ⟨max k i, rectangle H T wh a.sub, ?_, hcan, hden ▸ hwhr,
          fun h => absurd h (hne hnh hsa)⟩
        refine bind_of_ok (hmT _ _ _ _ (by omega) hwt) ((if_neg (not_not.mpr hnt)).trans ?_)
        exact bind_of_ok (hmH _ _ _ _ (by omega) hwh) (if_pos hnh)
    · obtain ⟨hcan, hden⟩ := rectangle_correct hH hT hpc hwtc
      exact ⟨k, rectangle H T a.prime wt, bind_of_ok hwt (if_pos hnt), hcan,
        hden ▸ hwtr, fun h => absurd h (hne hpa hnt)⟩

end Descent

/-! ## Every sort -/

/-- One side of an arc, where it has summands: their cycles in it can be looked for, and what
the closure leaves of it fits. -/
def Manager.SideCycles (m : Manager) (s : Shape) (cyclic : Term s → Code s → Prop) (f : Term s)
    (c : Code s) (fits : Code s → Prop) : Prop :=
  Term.isId s f = false → cyclic f c ∧ ∃ q, m.GivesGfp s f c q ∧ fits q

/-- The summands of a side have no cycle in it. -/
def Manager.SideStops (m : Manager) (s : Shape) (f : Term s) (c : Code s) : Prop :=
  Term.isId s f = false → m.GivesGfp s f c (m.algebra s).none

/-- The cycles of a term may be looked for arc by arc: what a side's summands keep going in
the arcs that are reached lies in the closure of the whole, and so on down the sorts. -/
def Term.Cyclic (m : Manager) : (s : Shape) → Term s → Code s → Prop
  | .unit => fun _ _ => True
  | .leaf => fun _ _ => True
  | .pair h t => fun x d =>
    ∀ n r, (m.withFuel n).apply (.pair h t) (OpTerm.gfp x) d = .ok r → ArcCycles
        (fun a => m.SideCycles t (Term.Cyclic m t) (sideSum m t (belowAt (summands x))) a.sub
          fun q => den h a.prime ×ˢ den t q ⊆ den (.pair h t) r)
        (fun a => m.SideStops t (sideSum m t (belowAt (summands x))) a.sub)
        (fun a => m.SideCycles h (Term.Cyclic m h) (sideSum m h (edgeAt (summands x))) a.prime
          fun p => den h p ×ˢ den t a.sub ⊆ den (.pair h t) r)
        (fun a => m.SideStops h (sideSum m h (edgeAt (summands x))) a.prime) (arcs d)

/-- Where the existential image of a term is right: the conditions of its short-cuts hold on
the way the search takes through the diagram. -/
def Term.Searchable (m : Manager) (fast : Bool) : (s : Shape) → Term s → Code s → Prop
  | .unit => fun _ _ => True
  | .leaf => fun _ _ => True
  | .pair h t => OpTerm.Searchable (m.algebra (.pair h t)) (den (.pair h t)) (m.Canon (.pair h t))
      (fun n => (m.withFuel n).apply (.pair h t))
      (fun a b d => ArcsSearchable (m.algebra h) (m.algebra t) (fun n => (m.withFuel n).apply h a)
        (fun n => (m.withFuel n).apply t b) (Term.Searchable m fast h a)
        (Term.Searchable m fast t b) (arcs d))
      (fun x d => fast = true → Term.Cyclic m (.pair h t) x d)

namespace Manager

theorem fueledPairLaws (m : Manager) (n : Nat) (h t : Shape) :
    OpTerm.SortLaws (m.algebra (.pair h t))
      (applyNode (m.algebra h) (m.algebra t) ((m.withFuel n).terms h) ((m.withFuel n).terms t))
      ((m.withFuel n).cases (.pair h t)) (den (.pair h t)) (m.Canon (.pair h t))
      (fun a b => m.WF h a ∧ m.WF t b)
      (fun a b => Term.Additive m.brackets h a ∧ Term.Additive m.brackets t b)
      (nodeRel (m.rel h) (m.rel t)) CaseNormal (m.brackets (.pair h t)) :=
  (m.withFuel n).pairLaws h t

variable {m : Manager}

theorem gfpAt_mono {n k : Nat} (hk : n ≤ k) : (s : Shape) → ∀ (t : Term s) (d r : Code s),
    gfpAt (m.withFuel n) s t d = .ok r → gfpAt (m.withFuel k) s t d = .ok r
  | .unit => fun _ _ _ => ite_le (fun h => h) (deflateLoop_mono (fun _ _ => apply_mono hk) hk)
  | .leaf => fun _ _ _ => ite_le (fun h => h) (deflateLoop_mono (fun _ _ => apply_mono hk) hk)
  | .pair _ _ => fun _ _ _ => ite_le (fun h => h) (apply_mono hk)

/-- At a composite sort the closure is the term's. -/
theorem gfpAt_pair {h t : Shape} (x : Term (.pair h t)) (d : Code (.pair h t)) :
    gfpAt m (.pair h t) x d = m.apply (.pair h t) (OpTerm.mkGfp x) d := by
  by_cases htriv : d = (m.algebra (.pair h t)).none ∨ Term.isId (.pair h t) x = true
  · refine (if_pos htriv).trans ?_
    rcases htriv with hn | hid
    · rw [hn]
      exact (m.apply_absent (.pair h t) (OpTerm.mkGfp x)).symm
    · have hx : x = OpTerm.id := (Term.isId_eq (.pair h t)).mp hid
      rw [hx]
      rfl
  · exact if_neg htriv

/-- The search at a sort: what the recursion over the sorts gives. -/
def Searches (m : Manager) (fast : Bool) (s : Shape) : Prop :=
  ∀ t : Term s, m.WF s t → Finder (m.algebra s) (den s) (m.Canon s) (Term.Searchable m fast s t)
    (IsPart (den s) fun n => (m.withFuel n).apply s t) (fun n => (m.withFuel n).apply s t)
    (fun n => hasImage (m.withFuel n) fast s t)

theorem gfpWitnessAt_finder {fast : Bool} : (s : Shape) → m.Searches fast s →
    ∀ f : Term s, m.WF s f →
    Finder (m.algebra s) (den s) (m.Canon s) (fun c => fast = true → Term.Cyclic m s f c)
      (IsPart (den s) fun n => gfpAt (m.withFuel n) s f) (fun n => gfpAt (m.withFuel n) s f)
      (fun n => gfpWitnessAt (m.withFuel n) s (hasImage (m.withFuel n) fast s) f)
  | .unit => fun _ f hw => (Finder.all (f := fun n => gfpAt (m.withFuel n) .unit f)
      (fun hk h => gfpAt_mono hk .unit f _ _ h) fun hc h => givesGfp_canon hw hc ⟨_, h⟩).part
  | .leaf => fun _ f hw => (Finder.all (f := fun n => gfpAt (m.withFuel n) .leaf f)
      (fun hk h => gfpAt_mono hk .leaf f _ _ h) fun hc h => givesGfp_canon hw hc ⟨_, h⟩).part
  | .pair h t => fun ih f hw => by
    have hwg : m.WF (.pair h t) (OpTerm.mkGfp f) := by
      cases f with
      | id => exact trivial
      | _ => exact hw
    have hsg : ∀ c, (fast = true → Term.Cyclic m (.pair h t) f c) →
        Term.Searchable m fast (.pair h t) (OpTerm.mkGfp f) c := by
      intro c hc
      cases f with
      | id => exact trivial
      | _ => exact hc
    have hfull : (fun n => gfpAt (m.withFuel n) (.pair h t) f) =
        fun n => (m.withFuel n).apply (.pair h t) (OpTerm.mkGfp f) :=
      funext fun n => funext fun c => gfpAt_pair (m := m.withFuel n) f c
    rw [hfull]
    exact (ih (OpTerm.mkGfp f) hwg).weaken hsg fun _ _ hp => hp

section SideCycle

variable {s : Shape} {f : Term s} {has : Nat → Term s → Code s → Except Err (Code s)}
  {At : Code s → Prop} (hF : Term.isId s f = false → Finder (m.algebra s) (den s) (m.Canon s) At
    (IsPart (den s) fun n => gfpAt (m.withFuel n) s f) (fun n => gfpAt (m.withFuel n) s f)
    (fun n => gfpWitnessAt (m.withFuel n) s (has n) f))

include hF

theorem sideCycle_mono (n k : Nat) (c w : Code s) (hk : n ≤ k)
    (h : sideCycle (m.withFuel n) s (has n) f c = .ok w) :
    sideCycle (m.withFuel k) s (has k) f c = .ok w := by
  unfold sideCycle at h ⊢
  by_cases hid : Term.isId s f = true
  · rw [if_pos hid] at h ⊢
    exact h
  · rw [if_neg hid] at h ⊢
    exact (hF (Bool.not_eq_true _ ▸ hid)).mono hk h

theorem sideCycle_found {P : Set (Word s) → Prop} (hP : ∀ {X Y}, X ⊆ Y → P Y → P X)
    (hempty : P ∅) {c : Code s} (hc : m.Canon s c)
    (hside : m.SideCycles s (fun _ => At) f c fun q => P (den s q)) :
    ∃ k w, sideCycle (m.withFuel k) s (has k) f c = .ok w ∧ m.Canon s w ∧ P (den s w) ∧
      (w = (m.algebra s).none → m.SideStops s f c) := by
  cases hid : Term.isId s f with
  | true =>
    refine ⟨0, (m.algebra s).none, if_pos hid, (m.laws s).canon_none, ?_, fun _ hf => ?_⟩
    · rw [(m.laws s).den_none]
      exact hempty
    · rw [hid] at hf
      cases hf
  | false =>
    obtain ⟨hat, q, ⟨n, hq⟩, hPq⟩ := hside hid
    obtain ⟨k, w, hw, hwc, hle, hnone, -⟩ := (hF hid).found hc hat hq
    exact ⟨k, w, (if_neg (Bool.eq_false_iff.mp hid)).trans hw, hwc, hP hle hPq,
      fun hn _ => ⟨n, hnone hn ▸ hq⟩⟩

end SideCycle

theorem sideSum_withFuel (n : Nat) (s : Shape) (events : List (Term s)) :
    sideSum (m.withFuel n) s events = sideSum m s events := by
  unfold sideSum
  rw [sumAt_withFuel]

theorem sideSum_wf {s : Shape} {events : List (Term s)} (hw : ∀ e ∈ events, m.WF s e) :
    m.WF s (sideSum m s events) := by
  by_cases hne : events = []
  · rw [sideSum, if_pos hne]
    exact (denotes_id s).wf
  · rw [sideSum, if_neg hne]
    exact wf_class.sumAt s () events hw

/-- A side that has a closure to look for has summands, and is their sum. -/
theorem sideSum_of_not_id {s : Shape} {events : List (Term s)}
    (hid : Term.isId s (sideSum m s events) = false) :
    events ≠ [] ∧ sideSum m s events = sumAt m s events := by
  have hne : events ≠ [] := by
    rintro rfl
    have htrue : Term.isId s (sideSum m s []) = true := (Term.isId_eq s).mpr rfl
    rw [hid] at htrue
    cases htrue
  exact ⟨hne, if_neg hne⟩

/-- A deflationary closure: every rectangle the descent gives lies in the full hull, and
without one the hull is built. -/
theorem gfpImage_finder {fast : Bool} {h t : Shape} (hH : m.Searches fast h)
    (hT : m.Searches fast t) {x : Term (.pair h t)} (hw : m.WF (.pair h t) x) :
    Finder (m.algebra (.pair h t)) (den (.pair h t)) (m.Canon (.pair h t))
      (fun d => fast = true → Term.Cyclic m (.pair h t) x d)
      (IsPart (den (.pair h t)) fun n => (m.withFuel n).apply (.pair h t) (OpTerm.gfp x))
      (fun n => (m.withFuel n).apply (.pair h t) (OpTerm.gfp x))
      (fun n d => if d = (m.algebra (.pair h t)).none then .ok (m.algebra (.pair h t)).none
        else gfpImage (m.withFuel n) fast h t (hasImage (m.withFuel n) fast h)
          (hasImage (m.withFuel n) fast t) x d) := by
  have hwf : m.WF (.pair h t) (OpTerm.gfp x) := hw
  have hcanon : ∀ {n c r}, m.Canon (.pair h t) c →
      (m.withFuel n).apply (.pair h t) (OpTerm.gfp x) c = .ok r → m.Canon (.pair h t) r :=
    fun {n c r} hc hr => (m.fueledLaws n (.pair h t)).canon_apply hwf hc hr
  have habsent : ∀ n, (m.withFuel n).apply (.pair h t) (OpTerm.gfp x)
      (m.algebra (.pair h t)).none = .ok (m.algebra (.pair h t)).none :=
    fun n => (m.withFuel n).apply_absent (.pair h t) (OpTerm.gfp x)
  cases fast with
  | false =>
    have hall : Finder (m.algebra (.pair h t)) (den (.pair h t)) (m.Canon (.pair h t))
        (fun d => false = true → Term.Cyclic m (.pair h t) x d) _
        (fun n => (m.withFuel n).apply (.pair h t) (OpTerm.gfp x))
        (fun n => (m.withFuel n).apply (.pair h t) (OpTerm.gfp x)) :=
      Finder.all (fun hk hr => apply_mono hk hr) hcanon
    refine ((hall.guard (m.laws (.pair h t))).congr (fun n d => ?_) fun _ _ => rfl).part
    by_cases hn : d = (m.algebra (.pair h t)).none
    · rw [if_pos hn, hn, habsent]
    · rw [if_neg hn]
  | true =>
    have hsides : ∀ n, gfpImage (m.withFuel n) true h t (hasImage (m.withFuel n) true h)
        (hasImage (m.withFuel n) true t) x = fun d => cycleWitness (m.algebra h) (m.algebra t)
          (sideCycle (m.withFuel n) t (hasImage (m.withFuel n) true t)
            (sideSum m t (belowAt (summands x))))
          (sideCycle (m.withFuel n) h (hasImage (m.withFuel n) true h)
            (sideSum m h (edgeAt (summands x))))
          ((m.withFuel n).apply (.pair h t) (OpTerm.gfp x) d) (arcs d) := by
      intro n
      rw [← sideSum_withFuel n t, ← sideSum_withFuel n h]
      rfl
    simp only [hsides]
    have hFT := gfpWitnessAt_finder t hT
      (sideSum m t (belowAt (summands x))) (sideSum_wf (wf_belowAt (summands_wf hw)))
      |>.weaken (fun _ hc _ => hc) fun _ _ hp => hp
    have hFH := gfpWitnessAt_finder h hH
      (sideSum m h (edgeAt (summands x))) (sideSum_wf (wf_edgeAt (summands_wf hw)))
      |>.weaken (fun _ hc _ => hc) fun _ _ hp => hp
    have hmT := sideCycle_mono (fun _ => hFT)
    have hmH := sideCycle_mono (fun _ => hFH)
    have hmono : ∀ d n k w, n ≤ k → (m.withFuel n).apply (.pair h t) (OpTerm.gfp x) d = .ok w →
        (m.withFuel k).apply (.pair h t) (OpTerm.gfp x) d = .ok w :=
      fun _ _ _ _ hk hr => apply_mono hk hr
    refine ⟨fun {n k d w} hk hr => ?_, fun {n d r} hd hx hr => ?_⟩
    · exact ite_le (fun h => h) (cycleWitness_mono
        (fun n => (m.withFuel n).apply (.pair h t) (OpTerm.gfp x) d) hmT hmH (hmono d) hk) hr
    by_cases hn : d = (m.algebra (.pair h t)).none
    · subst hn
      rw [habsent] at hr
      cases hr
      exact ⟨0, _, if_pos rfl, (m.laws (.pair h t)).canon_none, subset_rfl, fun _ => rfl,
        fun hne => absurd rfl hne⟩
    · obtain ⟨k, w, hkw, hwc, hle, hnil⟩ := cycleWitness_found
        (fun n => (m.withFuel n).apply (.pair h t) (OpTerm.gfp x) d) hmT hmH (hmono d)
        (m.laws h) (m.laws t) hr (hcanon hd hr)
        (fun a hc hside => sideCycle_found (fun _ => hFT)
          (P := fun X => den h a.prime ×ˢ X ⊆ den (.pair h t) r)
          (fun hle hY => (Set.prod_mono subset_rfl hle).trans hY)
          (Set.prod_empty ▸ Set.empty_subset _) hc hside)
        (fun a hc hside => sideCycle_found (fun _ => hFH)
          (P := fun X => X ×ˢ den t a.sub ⊆ den (.pair h t) r)
          (fun hle hY => (Set.prod_mono hle subset_rfl).trans hY)
          (Set.empty_prod ▸ Set.empty_subset _) hc hside)
        (NodeCanon.canon hd) (NodeCanon.prime_ne hd) (NodeCanon.sub_ne hd) (hx trivial n r hr)
      exact ⟨k, w, (if_neg hn).trans hkw, hwc, hle, hnil, fun _ => ⟨n, r, hr, hle⟩⟩

/-- The existential image, at every sort. By induction on the sort. -/
theorem searches (m : Manager) (fast : Bool) : (s : Shape) → m.Searches fast s
  | .unit => fun x hw => (Finder.all (f := fun n => (m.withFuel n).apply .unit x)
      (fun hk hr => apply_mono hk hr)
      fun {n _ _} hc hr => (m.fueledLaws n .unit).canon_apply hw hc hr).part
  | .leaf => fun x hw => (Finder.all (f := fun n => (m.withFuel n).apply .leaf x)
      (fun hk hr => apply_mono hk hr)
      fun {n _ _} hc hr => (m.fueledLaws n .leaf).canon_apply hw hc hr).part
  | .pair h t => fun x hw => by
    refine (OpTerm.hasImage_finder (m.fueledPairLaws · h t)
      (fun y _ _ hk hr => apply_mono (s := .pair h t) (t := y) hk hr) (fun {a b} hn => ?_)
      (fun {y} hwy => gfpImage_finder (searches m fast h) (searches m fast t) hwy) x hw).part
    exact ((imageWitness_finder (m.laws h) (m.laws t)
      ((searches m fast h a hn.1).unlessId fun hid n c => apply_isId n hid c)
      ((searches m fast t b hn.2).unlessId fun hid n c => apply_isId n hid c)
      (m.fueledLaws · h) (m.fueledLaws · t) (m.fueled_isId · h) hn.1 hn.2
      rfl).guard (m.laws (.pair h t))).part

/-- With no deflationary closure in the head of a `node` the cycles may be looked for. -/
theorem cyclic_of_tame : (s : Shape) → ∀ x : Term s, m.WF s x → Term.Interned s x →
    Term.Tame s x → ∀ d, m.Canon s d → Term.Cyclic m s x d
  | .unit => fun _ _ _ _ _ _ => trivial
  | .leaf => fun _ _ _ _ _ _ => trivial
  | .pair h t => fun x hw hi ht d hd => by
    have hint := summands_interned hi
    have hsum : ∀ e ∈ summands x, Term.Smooth true (.pair h t) e := by
      intro e he
      refine forall_flattenInto (fun ts hts => ?_) x ht e (List.mem_reverse.mp he)
      exact OpTerm.tameAll_iff.mp hts
    refine fun n r hr => arcCycles_of_forall fun a ha => ⟨fun hid => ?_, fun hid => ?_⟩
    all_goals
      have hn : d ≠ (m.algebra (.pair h t)).none := by
        rintro rfl
        cases ha
      obtain ⟨hne, heq⟩ := sideSum_of_not_id hid
      rw [heq]
    · have hwf := (below_sums hw hi hne 0).wf
      have htame : Term.Tame t (sumAt m t (belowAt (summands x))) :=
        smooth_class.sumAt (m := m) t true _ (smooth_class.below (m := m) hsum)
      exact ⟨cyclic_of_tame t _ hwf (interned_class.sumAt (m := m) t () _ fun b hb =>
        (mem_belowAt hint hb).2) htame _ (NodeCanon.canon hd a ha).2,
        below_cycle hw hi hd hr hn hne (tame_steady t _ hwf htame).1 ha⟩
    · have hwf := (edge_sums hw hi hne 0).wf
      have htame : Term.Tame h (sumAt m h (edgeAt (summands x))) :=
        Term.tame_of_gfpFree h _ (smooth_class.sumAt (m := m) h false _
          (smooth_class.edge (m := m) hsum))
      exact ⟨cyclic_of_tame h _ hwf (interned_class.sumAt (m := m) h () _ fun b hb =>
        (mem_edgeAt hint hb).2) htame _ (NodeCanon.canon hd a ha).1,
        edge_cycle hw hi hd hr hn hne (tame_steady h _ hwf htame).1 ha⟩

/-- Every term with no deflationary closure in the head of a `node` is searchable. -/
theorem searchable_of_tame (fast : Bool) : (s : Shape) → ∀ t : Term s, m.WF s t →
    Term.Interned s t → Term.Tame s t → ∀ d, m.Canon s d → Term.Searchable m fast s t d
  | .unit => fun _ _ _ _ _ _ => trivial
  | .leaf => fun _ _ _ _ _ _ => trivial
  | .pair h t => OpTerm.searchable_of_tame (m.fueledPairLaws · h t)
      (fun {a b} hw hi ht d hd => arcsSearchable_of_forall fun arc harc =>
        ⟨searchable_of_tame fast h a hw.1 hi.2.1 (Term.tame_of_gfpFree h a ht.1) _
          (NodeCanon.canon hd arc harc).1,
        searchable_of_tame fast t b hw.2 hi.2.2 ht.2 _ (NodeCanon.canon hd arc harc).2⟩)
      (fun {y} hw ht => (tame_steady (.pair h t) y hw ht).1)
      (fun {y} hw hi ht d hd _ => cyclic_of_tame (.pair h t) y hw hi ht d hd)
      (fun {y} hw ht hc => (tame_steady (.pair h t) y hw ht).2 hc)

/-- The uninterrupted `has_image` returns this value. -/
def Finds (m : Manager) (fast : Bool) (s : Shape) (t : Term s) (d w : Code s) : Prop :=
  ∃ n, hasImage (m.withFuel n) fast s t d = .ok w

end Manager

/-- Where the search's short-cuts are right on the way it takes, the existential image of a
diagram returns whenever its image does, with a part of it that is empty exactly when the
image is, whether or not cycles are looked for arc by arc. -/
theorem hasImage_exact (m : Manager) (fast : Bool) (s : Shape) (t : Term s) (hw : m.WF s t)
    (d : Code s) (hd : m.Canon s d) (hs : Term.Searchable m fast s t d) (r : Code s)
    (hr : m.Gives s t d r) :
    (∃ w, m.Finds fast s t d w) ∧
    ∀ w, m.Finds fast s t d w → den s w ⊆ den s r ∧ (den s w = ∅ ↔ den s r = ∅) := by
  obtain ⟨n, hn⟩ := hr
  obtain ⟨k, w, hw', hwc, hle, hnone, -⟩ := (m.searches fast s t hw).found hd hs hn
  refine ⟨⟨w, k, hw'⟩, fun w' ⟨j, hj⟩ => ?_⟩
  have h1 := (m.searches fast s t hw).mono (Nat.le_max_left k j) hw'
  have h2 := (m.searches fast s t hw).mono (Nat.le_max_right k j) hj
  rw [h1] at h2
  cases h2
  refine ⟨hle, fun he => ?_, fun he => Set.subset_empty_iff.mp (he ▸ hle)⟩
  rw [hnone (((m.laws s).eq_none_iff hwc).mpr he), (m.laws s).den_none]

/-- Raise the first leaf from 0 to 1, or lower it back. -/
def swapFirst : Term (.pair .leaf .leaf) :=
  OpTerm.sum [OpTerm.node (IntTerm.assign [0] 1) IntTerm.id,
    OpTerm.node (IntTerm.assign [1] 0) IntTerm.id]

theorem swapFirst_wf : (Manager.standard 5 1).WF (.pair .leaf .leaf) swapFirst ∧
    Term.Interned (.pair .leaf .leaf) swapFirst ∧ Term.Tame (.pair .leaf .leaf) swapFirst := by
  have h0 : (IntTerm.assign [0] 1).WF :=
    ⟨show IntSet.Canon [0] by decide, show InInt32 1 by decide⟩
  have h1 : (IntTerm.assign [1] 0).WF :=
    ⟨show IntSet.Canon [1] by decide, show InInt32 0 by decide⟩
  have hi : ∀ a : IntTerm, a ≠ .id →
      Term.Interned (.pair .leaf .leaf) (OpTerm.node a IntTerm.id) := fun a ha =>
    ⟨fun hid => ha ((Term.isId_eq .leaf).mp hid.1), trivial, trivial⟩
  exact ⟨⟨⟨h0, trivial⟩, ⟨h1, trivial⟩, trivial⟩,
    ⟨List.cons_ne_nil _ _, hi _ (by decide), hi _ (by decide), trivial⟩,
    ⟨trivial, trivial⟩, ⟨trivial, trivial⟩, trivial⟩

theorem hasImage_exact_swap :
    (∃ w, (Manager.standard 5 1).Finds true (.pair .leaf .leaf)
      (OpTerm.compose swapFirst (OpTerm.gfp swapFirst)) [⟨[0, 1], [0]⟩] w) ∧
    den (.pair .leaf .leaf) [⟨[1], [0]⟩] ⊆ den (.pair .leaf .leaf) [⟨[0, 1], [0]⟩] ∧
    (den (.pair .leaf .leaf) [⟨[1], [0]⟩] = ∅ ↔ den (.pair .leaf .leaf) [⟨[0, 1], [0]⟩] = ∅) := by
  obtain ⟨hw, hi, ht⟩ := swapFirst_wf
  have hd : (Manager.standard 5 1).Canon (.pair .leaf .leaf) [⟨[0, 1], [0]⟩] :=
    Manager.canon_single _ (show IntSet.Canon [0, 1] by decide) (show IntSet.Canon [0] by decide)
      (show ([0, 1] : List Int) ≠ [] by decide) (show ([0] : List Int) ≠ [] by decide)
  have hs := Manager.searchable_of_tame (m := Manager.standard 5 1) true (.pair .leaf .leaf)
    (OpTerm.compose swapFirst (OpTerm.gfp swapFirst)) ⟨hw, hw⟩ ⟨hi, hi⟩ ⟨ht, ht⟩ _ hd
  obtain ⟨hex, hall⟩ := hasImage_exact (Manager.standard 5 1) true (.pair .leaf .leaf)
    (OpTerm.compose swapFirst (OpTerm.gfp swapFirst)) ⟨hw, hw⟩ _ hd hs [⟨[0, 1], [0]⟩]
    ⟨5, by decide +kernel⟩
  exact ⟨hex, hall [⟨[1], [0]⟩] ⟨5, by decide +kernel⟩⟩

/-- The two first leaves of the swap behind one value of the third, then the second of them
behind another. -/
def swapStates : Code (.pair (.pair .leaf .leaf) .leaf) :=
  [(⟨[(⟨[0], [0]⟩ : Arc IntSet IntSet)], [0]⟩ : Arc (Code (.pair .leaf .leaf)) IntSet),
    ⟨[⟨[1], [0]⟩], [0, 1]⟩]

/-- The hull of the swap in the head, of what two filters keep. -/
def hullOfFilters : Term (.pair (.pair .leaf .leaf) .leaf) :=
  OpTerm.compose (OpTerm.node (OpTerm.gfp swapFirst) IntTerm.id)
    (OpTerm.sum [OpTerm.within [⟨[⟨[0, 1], [0]⟩], [0]⟩], OpTerm.within [⟨[⟨[1], [0]⟩], [1]⟩]])

theorem built_firstThird (first third : List Int) (hf : ∀ v ∈ first, InInt32 v)
    (ht : ∀ v ∈ third, InInt32 v) : (Manager.standard 5 1).Built (.pair (.pair .leaf .leaf) .leaf)
      (rectangle ((Manager.standard 5 1).algebra (.pair .leaf .leaf))
        ((Manager.standard 5 1).algebra .leaf) (rectangle ((Manager.standard 5 1).algebra .leaf)
          ((Manager.standard 5 1).algebra .leaf) (IntSet.of first) (IntSet.of [0]))
        (IntSet.of third)) :=
  .rectangle (.rectangle (.set first hf) (.set [0] (by decide))) (.set third ht)

theorem swapStates_canon :
    (Manager.standard 5 1).Canon (.pair (.pair .leaf .leaf) .leaf) swapStates :=
  ((built_firstThird [0] [0] (by decide) (by decide)).join
    (built_firstThird [1] [0, 1] (by decide) (by decide))).canon

/-- The states of the swap behind one value of the third leaf. -/
def swapCycle : Code (.pair (.pair .leaf .leaf) .leaf) :=
  [(⟨[(⟨[0, 1], [0]⟩ : Arc IntSet IntSet)], [0]⟩ : Arc (Code (.pair .leaf .leaf)) IntSet)]

theorem swapCycle_canon :
    (Manager.standard 5 1).Canon (.pair (.pair .leaf .leaf) .leaf) swapCycle :=
  (built_firstThird [0, 1] [0] (by decide) (by decide)).canon

theorem mem_swapCycle :
    (((0 : Int), (0 : Int)), (0 : Int)) ∈ den (.pair (.pair .leaf .leaf) .leaf) swapCycle := by
  refine (mem_nodeDen _ _).mpr ⟨_, List.mem_singleton.mpr rfl, ?_, List.mem_singleton.mpr rfl⟩
  exact (mem_nodeDen _ _).mpr ⟨_, List.mem_singleton.mpr rfl, List.mem_cons_self,
    List.mem_singleton.mpr rfl⟩

/-- A hull in the head of a `node` is not monotone. The first filter's witness has both
leaves of the swap behind one prime; what the filters keep together has them behind two, and
neither prime alone holds a cycle. -/
theorem hasImage_beyond_image :
    let m := Manager.standard 5 1
    let s : Shape := .pair (.pair .leaf .leaf) .leaf
    (m.WF s hullOfFilters ∧ Term.Interned s hullOfFilters ∧ m.Canon s swapStates) ∧
    m.Gives s hullOfFilters swapStates (m.algebra s).none ∧
    ∀ fast, ∃ w, m.Finds fast s hullOfFilters swapStates w ∧ ¬(den s w ⊆ den s (m.algebra s).none ∧
        (den s w = ∅ ↔ den s (m.algebra s).none = ∅)) := by
  obtain ⟨hw, hi, -⟩ := swapFirst_wf
  have h1 := (built_firstThird [1] [1] (by decide) (by decide)).canon
  intro m s
  refine ⟨⟨⟨⟨hw, trivial⟩, swapCycle_canon, h1, trivial⟩, ⟨⟨fun h => (nomatch h.1), hi, trivial⟩,
    List.cons_ne_nil _ _, trivial, trivial, trivial⟩, swapStates_canon⟩, ⟨5, by decide +kernel⟩,
    fun fast => ⟨swapCycle, ⟨5, ?_⟩, fun h => ?_⟩⟩
  · cases fast <;> decide +kernel
  · have hempty := h.1 mem_swapCycle
    rw [(m.laws s).den_none] at hempty
    exact hempty

end LibHSC
