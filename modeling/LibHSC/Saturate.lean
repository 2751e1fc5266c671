import LibHSC.Manager

/-!
The saturation rewrite: the events of a sort are split by where they reach
relative to the cut, the one-sided ones are closed recursively on their side,
and the rest is chained. `saturate_rel` says that the rewrite denotes the
closure of the union of the events, whatever the schedule; `saturate_exact` is
what evaluation makes of it.
-/

namespace LibHSC

open Relation

/-! ## The rewrite -/

section Split

variable {H T D : Type}

mutual

/-- Inline the operands of every sum. -/
def flattenInto : OpTerm H T D → List (OpTerm H T D)
  | .sum terms => flattenAll terms
  | e => [e]

def flattenAll : List (OpTerm H T D) → List (OpTerm H T D)
  | [] => []
  | e :: es => flattenInto e ++ flattenAll es

end

variable (idH : H → Bool) (idT : T → Bool)

/-- The tail terms of the events that reach the tail only. -/
def belowOf : List (OpTerm H T D) → List T
  | [] => []
  | .node h t :: es => if idH h then t :: belowOf es else belowOf es
  | _ :: es => belowOf es

/-- The head terms of the events that reach the head only. -/
def edgeOf : List (OpTerm H T D) → List H
  | [] => []
  | .node h t :: es => if ¬ idH h ∧ idT t then h :: edgeOf es else edgeOf es
  | _ :: es => edgeOf es

/-- The events that reach both sides; `id` is dropped, a closure is reflexive
already. -/
def acrossOf : List (OpTerm H T D) → List (OpTerm H T D)
  | [] => []
  | .id :: es => acrossOf es
  | .node h t :: es => if idH h ∨ idT t then acrossOf es else .node h t :: acrossOf es
  | e :: es => e :: acrossOf es

end Split

namespace Term

/-- The sum of two terms of a sort: the theory's at a leaf. -/
def sum (m : Manager) : (s : Shape) → Term s → Term s → Term s
  | .unit => fun a b => OpTerm.mkSum (m.termIds .unit) [a, b]
  | .leaf => IntTerm.termSum (m.termIds .leaf)
  | .pair h t => fun a b => OpTerm.mkSum (m.termIds (.pair h t)) [a, b]

def lfp : (s : Shape) → Term s → Term s
  | .unit => OpTerm.mkLfp
  | .leaf => IntTerm.termLfp
  | .pair _ _ => OpTerm.mkLfp

/-- The sum of a list of terms of a composite sort. -/
def sumAll (m : Manager) {h t : Shape} (ts : List (Term (.pair h t))) : Term (.pair h t) :=
  OpTerm.mkSum (m.termIds (.pair h t)) ts

/-- The schedule term of a composite sort. -/
def saturate {h t : Shape} (f l : Term (.pair h t)) (g : List (Term (.pair h t))) :
    Term (.pair h t) :=
  OpTerm.saturate f l g

end Term

/-- The one-sided closures: `id` when there is nothing to close. -/
def belowPart {h t : Shape} (closure : List (Term t) → Term t) (below : List (Term t)) :
    Term (.pair h t) :=
  if below = [] then Term.id (.pair h t) else Term.node (Term.id h) (closure below)

def edgePart {h t : Shape} (closure : List (Term h) → Term h) (edge : List (Term h)) :
    Term (.pair h t) :=
  if edge = [] then Term.id (.pair h t) else Term.node (closure edge) (Term.id t)

/-- The schedule at a pair: `F`, `L` and the chain, or the plain closure when
nothing reaches past the cut on its own. -/
def schedule (m : Manager) (h t : Shape) (f l : Term (.pair h t))
    (flat across : List (Term (.pair h t))) : Term (.pair h t) :=
  if Term.isId (.pair h t) f ∧ Term.isId (.pair h t) l then
    Term.lfp (.pair h t) (Term.sumAll m flat)
  else Term.saturate f l across

/-- The saturated closure of a list of events. -/
def saturate (m : Manager) : (s : Shape) → List (Term s) → Term s
  | .unit, [] => Term.id .unit
  | .unit, e :: es => Term.lfp .unit (es.foldl (Term.sum m .unit) e)
  | .leaf, [] => Term.id .leaf
  | .leaf, e :: es => Term.lfp .leaf (es.foldl (Term.sum m .leaf) e)
  | .pair h t, events =>
    if events = [] then Term.id (.pair h t)
    else
      let flat := flattenAll events
      schedule m h t (belowPart (saturate m t) (belowOf (Term.isId h) flat))
        (edgePart (saturate m h) (edgeOf (Term.isId h) (Term.isId t) flat))
        flat (acrossOf (Term.isId h) (Term.isId t) flat)

/-- The naive closure `lfp (id + Σ events)`. -/
def naiveLfp (m : Manager) : (s : Shape) → List (Term s) → Term s
  | .unit, events => Term.lfp .unit (events.foldl (Term.sum m .unit) (Term.id .unit))
  | .leaf, events => Term.lfp .leaf (events.foldl (Term.sum m .leaf) (Term.id .leaf))
  | .pair h t, events =>
    Term.lfp (.pair h t) (Term.sumAll m (Term.id (.pair h t) :: events))

/-! ## What a term denotes -/

/-- Any of the relations of a list of terms. -/
def anyRel {τ W : Type} (rel : τ → W → W → Prop) (ts : List τ) (v u : W) : Prop :=
  ∃ t ∈ ts, rel t v u

/-- A well-formed term that acts as the image under `r`. -/
structure Denotes (m : Manager) (s : Shape) (t : Term s) (r : Word s → Word s → Prop) : Prop where
  wf : m.WF s t
  additive : Term.Additive m.brackets s t
  rel_eq : m.rel s t = r

section Denotes

variable {m : Manager}

theorem Denotes.apply {s : Shape} {t : Term s} {r : Word s → Word s → Prop}
    (h : Denotes m s t r) {d c : Code s} (hd : m.Canon s d) (hc : m.apply s t d = .ok c) :
    m.Canon s c ∧ den s c = post r (den s d) := by
  refine ⟨(m.termLaws s).canon_apply h.wf hd hc, ?_⟩
  rw [(m.termLaws s).den_apply h.wf h.additive hd hc, h.rel_eq]

theorem Denotes.congr {s : Shape} {t : Term s} {r q : Word s → Word s → Prop}
    (h : Denotes m s t r) (hrq : r = q) : Denotes m s t q :=
  hrq ▸ h

theorem Term.isId_eq : (s : Shape) → {t : Term s} → (Term.isId s t = true ↔ t = Term.id s)
  | .unit, t => by
    constructor
    · intro h
      cases t with
      | id => rfl
      | _ => cases h
    · rintro rfl
      rfl
  | .leaf, t => by
    show decide ((show IntTerm from t) = IntTerm.id) = true ↔ _
    exact decide_eq_true_iff
  | .pair _ _, t => by
    constructor
    · intro h
      cases t with
      | id => rfl
      | _ => cases h
    · rintro rfl
      rfl

theorem denotes_id : (s : Shape) → Denotes m s (Term.id s) fun v u => v = u
  | .unit => ⟨trivial, trivial, rfl⟩
  | .leaf => ⟨trivial, trivial, rfl⟩
  | .pair _ _ => ⟨trivial, trivial, rfl⟩

theorem denotes_node {h t : Shape} {a : Term h} {b : Term t} {r : Word h → Word h → Prop}
    {q : Word t → Word t → Prop} (ha : Denotes m h a r) (hb : Denotes m t b q) :
    Denotes m (.pair h t) (Term.node a b) fun v u => r v.1 u.1 ∧ q v.2 u.2 := by
  unfold Term.node OpTerm.mkNode
  split
  · next hid =>
    obtain ⟨h1, h2⟩ := Bool.and_eq_true_iff.mp hid
    have hr : r = fun v u => v = u := by
      rw [← ha.rel_eq, (Term.isId_eq h).mp h1, (denotes_id (m := m) h).rel_eq]
    have hq : q = fun v u => v = u := by
      rw [← hb.rel_eq, (Term.isId_eq t).mp h2, (denotes_id (m := m) t).rel_eq]
    refine ⟨trivial, trivial, ?_⟩
    funext v u
    rw [hr, hq]
    exact propext Prod.ext_iff
  · refine ⟨⟨ha.wf, hb.wf⟩, ⟨ha.additive, hb.additive⟩, ?_⟩
    show nodeRel (m.rel h) (m.rel t) a b = _
    unfold nodeRel
    rw [ha.rel_eq, hb.rel_eq]
    rfl

/-- A well-formed term of an additive kind denotes its relation. -/
theorem Denotes.refl {s : Shape} {t : Term s} (hw : m.WF s t)
    (ha : Term.Additive m.brackets s t) : Denotes m s t (m.rel s t) :=
  ⟨hw, ha, rfl⟩

theorem denotes_mkSum {h t : Shape} {ts : List (Term (.pair h t))} (hne : ts ≠ [])
    (hts : ∀ e ∈ ts, Denotes m (.pair h t) e (m.rel _ e)) :
    Denotes m (.pair h t) (Term.sumAll m ts) (anyRel (m.rel (.pair h t)) ts) := by
  obtain ⟨h1, h2, h3⟩ := OpTerm.mkSum_spec (m.termIds (.pair h t)) hne
    (fun e he => (hts e he).wf) fun e he => (hts e he).additive
  exact ⟨h1, h2, funext fun v => funext fun u => propext (h3 v u)⟩

theorem denotes_lfp : (s : Shape) → {t : Term s} → {r : Word s → Word s → Prop} →
    Denotes m s t r → Denotes m s (Term.lfp s t) (ReflTransGen r)
  | .unit, _, _, h =>
    have hs := OpTerm.mkLfp_spec h.wf h.additive
    ⟨hs.1, hs.2.1, hs.2.2.trans (congrArg ReflTransGen h.rel_eq)⟩
  | .leaf, t, _, h =>
    ⟨IntTerm.termLfp_wf h.wf, trivial,
      (IntTerm.termLfp_rel t).trans (congrArg ReflTransGen h.rel_eq)⟩
  | .pair _ _, _, _, h =>
    have hs := OpTerm.mkLfp_spec h.wf h.additive
    ⟨hs.1, hs.2.1, hs.2.2.trans (congrArg ReflTransGen h.rel_eq)⟩

theorem denotes_sum : (s : Shape) → {a b : Term s} → {r q : Word s → Word s → Prop} →
    Denotes m s a r → Denotes m s b q →
    Denotes m s (Term.sum m s a b) fun v u => r v u ∨ q v u
  | .unit, a, b, r, q, ha, hb => by
    obtain ⟨h1, h2, h3⟩ := OpTerm.mkSum_pair_spec (m.termIds .unit) ha.wf hb.wf ha.additive
      hb.additive
    refine ⟨h1, h2, funext fun v => funext fun u => propext ?_⟩
    rw [← ha.rel_eq, ← hb.rel_eq]
    exact h3 v u
  | .leaf, a, b, r, q, ha, hb => by
    refine ⟨IntTerm.termSum_wf ha.wf hb.wf, trivial, funext fun v => funext fun u => propext ?_⟩
    rw [← ha.rel_eq, ← hb.rel_eq]
    exact IntTerm.termSum_rel (m.termIds .leaf) a b v u
  | .pair h t, a, b, r, q, ha, hb => by
    obtain ⟨h1, h2, h3⟩ := OpTerm.mkSum_pair_spec (m.termIds (.pair h t)) ha.wf hb.wf
      ha.additive hb.additive
    refine ⟨h1, h2, funext fun v => funext fun u => propext ?_⟩
    rw [← ha.rel_eq, ← hb.rel_eq]
    exact h3 v u

theorem denotes_foldl (s : Shape) : ∀ {es : List (Term s)} {a : Term s}
    {r : Word s → Word s → Prop}, Denotes m s a r →
    (∀ e ∈ es, Denotes m s e (m.rel s e)) →
    Denotes m s (es.foldl (Term.sum m s) a) fun v u => r v u ∨ anyRel (m.rel s) es v u := by
  intro es
  induction es with
  | nil =>
    intro a r ha _
    refine ha.congr ?_
    funext v u
    simp [anyRel]
  | cons e es ih =>
    intro a r ha hes
    obtain ⟨he, hes⟩ := List.forall_mem_cons.mp hes
    refine (ih (denotes_sum s ha he) hes).congr ?_
    funext v u
    simp [anyRel, or_assoc]

end Denotes

/-! ## The split -/

section SplitSpec

variable {H T D : Type} {idH : H → Bool} {idT : T → Bool}

theorem mem_belowOf {t : T} {es : List (OpTerm H T D)} :
    t ∈ belowOf idH es ↔ ∃ h, idH h = true ∧ OpTerm.node h t ∈ es := by
  induction es with
  | nil => simp [belowOf]
  | cons e es ih =>
    cases e with
    | node h' t' =>
      unfold belowOf
      split
      · next hid =>
        rw [List.mem_cons, ih]
        constructor
        · rintro (rfl | ⟨h, hh, he⟩)
          · exact ⟨h', hid, List.mem_cons_self⟩
          · exact ⟨h, hh, List.mem_cons_of_mem _ he⟩
        · rintro ⟨h, hh, he⟩
          rcases List.mem_cons.mp he with he | he
          · cases he
            exact Or.inl rfl
          · exact Or.inr ⟨h, hh, he⟩
      · next hid =>
        rw [ih]
        constructor
        · rintro ⟨h, hh, he⟩
          exact ⟨h, hh, List.mem_cons_of_mem _ he⟩
        · rintro ⟨h, hh, he⟩
          rcases List.mem_cons.mp he with he | he
          · cases he
            exact absurd hh hid
          · exact ⟨h, hh, he⟩
    | _ => simp [belowOf, ih]

theorem mem_edgeOf {h : H} {es : List (OpTerm H T D)} :
    h ∈ edgeOf idH idT es ↔ idH h = false ∧ ∃ t, idT t = true ∧ OpTerm.node h t ∈ es := by
  induction es with
  | nil => simp [edgeOf]
  | cons e es ih =>
    cases e with
    | node h' t' =>
      unfold edgeOf
      split
      · next hid =>
        rw [List.mem_cons, ih]
        constructor
        · rintro (rfl | ⟨hh, t, ht, he⟩)
          · exact ⟨by simpa using hid.1, t', hid.2, List.mem_cons_self⟩
          · exact ⟨hh, t, ht, List.mem_cons_of_mem _ he⟩
        · rintro ⟨hh, t, ht, he⟩
          rcases List.mem_cons.mp he with he | he
          · cases he
            exact Or.inl rfl
          · exact Or.inr ⟨hh, t, ht, he⟩
      · next hid =>
        rw [ih]
        constructor
        · rintro ⟨hh, t, ht, he⟩
          exact ⟨hh, t, ht, List.mem_cons_of_mem _ he⟩
        · rintro ⟨hh, t, ht, he⟩
          rcases List.mem_cons.mp he with he | he
          · cases he
            exact absurd ⟨by simp [hh], ht⟩ hid
          · exact ⟨hh, t, ht, he⟩
    | _ => simp [edgeOf, ih]

variable (idH idT) in
/-- Every event is `id`, one-sided, or across. -/
theorem split_cases {e : OpTerm H T D} {es : List (OpTerm H T D)} (he : e ∈ es) :
    e = .id ∨ (∃ h t, e = .node h t ∧ idH h = true ∧ t ∈ belowOf idH es) ∨
      (∃ h t, e = .node h t ∧ idT t = true ∧ h ∈ edgeOf idH idT es) ∨
      e ∈ acrossOf idH idT es := by
  have hacross : ∀ {l : List (OpTerm H T D)}, e ∈ l → e ≠ .id →
      (∀ h t, e = .node h t → ¬(idH h = true ∨ idT t = true)) → e ∈ acrossOf idH idT l := by
    intro l
    induction l with
    | nil => exact fun h => absurd h List.not_mem_nil
    | cons x xs ih =>
      intro hx hid hnode
      rcases List.mem_cons.mp hx with rfl | hx
      · cases e with
        | id => exact absurd rfl hid
        | node h t =>
          rw [acrossOf, if_neg (hnode h t rfl)]
          exact List.mem_cons_self
        | _ => exact List.mem_cons_self
      · have hrec := ih hx hid hnode
        cases x with
        | id => exact hrec
        | node h t =>
          unfold acrossOf
          split
          · exact hrec
          · exact List.mem_cons_of_mem _ hrec
        | _ => exact List.mem_cons_of_mem _ hrec
  by_cases hid : e = .id
  · exact Or.inl hid
  by_cases hnode : ∃ h t, e = .node h t ∧ (idH h = true ∨ idT t = true)
  · obtain ⟨h, t, rfl, hht⟩ := hnode
    cases hh : idH h with
    | true => exact Or.inr (Or.inl ⟨h, t, rfl, hh, mem_belowOf.mpr ⟨h, hh, he⟩⟩)
    | false =>
      have ht : idT t = true := by simpa [hh] using hht
      exact Or.inr (Or.inr (Or.inl ⟨h, t, rfl, ht, mem_edgeOf.mpr ⟨hh, t, ht, he⟩⟩))
  · refine Or.inr (Or.inr (Or.inr (hacross he hid ?_)))
    exact fun h t heq hht => hnode ⟨h, t, heq, hht⟩

theorem mem_of_mem_acrossOf {e : OpTerm H T D} {es : List (OpTerm H T D)}
    (h : e ∈ acrossOf idH idT es) : e ∈ es := by
  induction es with
  | nil => exact h
  | cons x xs ih =>
    cases x with
    | id => exact List.mem_cons_of_mem _ (ih h)
    | node hd tl =>
      unfold acrossOf at h
      split at h
      · exact List.mem_cons_of_mem _ (ih h)
      · rcases List.mem_cons.mp h with rfl | h
        · exact List.mem_cons_self
        · exact List.mem_cons_of_mem _ (ih h)
    | _ =>
      rcases List.mem_cons.mp h with rfl | h
      · exact List.mem_cons_self
      · exact List.mem_cons_of_mem _ (ih h)

mutual

/-- A property that a sum has through its operands holds of the summands. -/
theorem forall_flattenInto {P : OpTerm H T D → Prop} (hP : ∀ ts, P (.sum ts) → ∀ t ∈ ts, P t) :
    (e : OpTerm H T D) → P e → ∀ x ∈ flattenInto e, P x := by
  intro e he x hx
  cases e with
  | sum ts => exact forall_flattenAll hP ts (hP ts he) x hx
  | _ =>
    rw [List.mem_singleton.mp hx]
    exact he

theorem forall_flattenAll {P : OpTerm H T D → Prop} (hP : ∀ ts, P (.sum ts) → ∀ t ∈ ts, P t) :
    (es : List (OpTerm H T D)) → (∀ e ∈ es, P e) → ∀ x ∈ flattenAll es, P x := by
  intro es hes x hx
  cases es with
  | nil => exact absurd hx List.not_mem_nil
  | cons e es =>
    obtain ⟨he, hes⟩ := List.forall_mem_cons.mp hes
    rcases List.mem_append.mp hx with hx | hx
    · exact forall_flattenInto hP e he x hx
    · exact forall_flattenAll hP es hes x hx

end

mutual

/-- Flattening keeps the union of the relations. -/
theorem rel_flattenInto {W : Type} {nr : H → T → W → W → Prop}
    {er : Lia.BExpr → List Assign → W → W → Prop} {dn : D → Set W} {v u : W} :
    (e : OpTerm H T D) → ((∃ x ∈ flattenInto e, OpTerm.rel nr er dn x v u) ↔
      OpTerm.rel nr er dn e v u)
  | .sum ts => (rel_flattenAll ts).trans (OpTerm.relSum_iff nr er dn).symm
  | .id => by simp [flattenInto]
  | .node _ _ => by simp [flattenInto]
  | .compose _ _ => by simp [flattenInto]
  | .lfp _ => by simp [flattenInto]
  | .gfp _ => by simp [flattenInto]
  | .within _ => by simp [flattenInto]
  | .saturate _ _ _ => by simp [flattenInto]
  | .expr _ _ => by simp [flattenInto]

theorem rel_flattenAll {W : Type} {nr : H → T → W → W → Prop}
    {er : Lia.BExpr → List Assign → W → W → Prop} {dn : D → Set W} {v u : W} :
    (es : List (OpTerm H T D)) → ((∃ x ∈ flattenAll es, OpTerm.rel nr er dn x v u) ↔
      ∃ e ∈ es, OpTerm.rel nr er dn e v u)
  | [] => by simp [flattenAll]
  | e :: es => by
    simp only [flattenAll, List.mem_append, or_and_right, exists_or, List.mem_cons,
      exists_eq_left, rel_flattenInto e, rel_flattenAll es]

end

end SplitSpec

/-! ## The schedule denotes the closure -/

section Schedule

variable {m : Manager}

theorem rel_of_isId {s : Shape} {t : Term s} (h : Term.isId s t = true) {v u : Word s} :
    m.rel s t v u ↔ v = u := by
  rw [(Term.isId_eq s).mp h, (denotes_id (m := m) s).rel_eq]

theorem closure_nil {τ W : Type} {rel : τ → W → W → Prop} :
    ReflTransGen (anyRel rel []) = fun v u => v = u :=
  reflTransGen_of_le_eq fun _ _ h => nomatch h.choose_spec.1

theorem belowPart_denotes {h t : Shape} {closure : List (Term t) → Term t}
    {below : List (Term t)}
    (hc : Denotes m t (closure below) (ReflTransGen (anyRel (m.rel t) below))) :
    Denotes m (.pair h t) (belowPart closure below)
      (ReflTransGen (tailStep (anyRel (m.rel t) below))) := by
  refine Denotes.congr ?_ reflTransGen_tailStep.symm
  unfold belowPart
  split
  · next hn =>
    refine (denotes_id (.pair h t)).congr ?_
    rw [hn, closure_nil]
    funext v u
    exact propext Prod.ext_iff
  · exact denotes_node (denotes_id h) hc

theorem edgePart_denotes {h t : Shape} {closure : List (Term h) → Term h}
    {edge : List (Term h)}
    (hc : Denotes m h (closure edge) (ReflTransGen (anyRel (m.rel h) edge))) :
    Denotes m (.pair h t) (edgePart closure edge)
      (ReflTransGen (headStep (anyRel (m.rel h) edge))) := by
  refine Denotes.congr ?_ reflTransGen_headStep.symm
  unfold edgePart
  split
  · next hn =>
    refine (denotes_id (.pair h t)).congr ?_
    rw [hn, closure_nil]
    funext v u
    exact propext Prod.ext_iff
  · exact denotes_node hc (denotes_id t)

theorem node_denotes {h t : Shape} {a : Term h} {b : Term t}
    (hn : Denotes m (.pair h t) (OpTerm.node a b) (m.rel _ (OpTerm.node a b))) :
    Denotes m h a (m.rel h a) ∧ Denotes m t b (m.rel t b) :=
  ⟨⟨hn.wf.1, hn.additive.1, rfl⟩, ⟨hn.wf.2, hn.additive.2, rfl⟩⟩

/-- The reordering argument: closing one side is a closure of one-sided steps,
so the schedule and the plain union of the events have one closure. -/
theorem schedule_denotes {h t : Shape} {f l : Term (.pair h t)}
    {flat : List (Term (.pair h t))}
    (hflat : ∀ e ∈ flat, Denotes m (.pair h t) e (m.rel _ e))
    (hf : Denotes m (.pair h t) f (ReflTransGen (tailStep
      (anyRel (m.rel t) (belowOf (Term.isId h) flat)))))
    (hl : Denotes m (.pair h t) l (ReflTransGen (headStep
      (anyRel (m.rel h) (edgeOf (Term.isId h) (Term.isId t) flat))))) :
    Denotes m (.pair h t) (schedule m h t f l flat (acrossOf (Term.isId h) (Term.isId t) flat))
      (ReflTransGen (anyRel (m.rel (.pair h t)) flat)) := by
  unfold schedule
  split
  · by_cases hn : flat = []
    · subst hn
      exact (denotes_id (.pair h t)).congr closure_nil.symm
    · exact denotes_lfp (.pair h t) (denotes_mkSum hn hflat)
  · have hacross : ∀ e ∈ acrossOf (Term.isId h) (Term.isId t) flat,
        Denotes m (.pair h t) e (m.rel _ e) :=
      fun e he => hflat e (mem_of_mem_acrossOf he)
    refine ⟨⟨hf.wf, hl.wf, (OpTerm.wfAll_iff _ _ _).mpr fun e he => (hacross e he).wf⟩,
      ⟨hf.additive, hl.additive,
        (OpTerm.additiveAll_iff _ _ _ _).mpr fun e he => (hacross e he).additive, ?_, ?_⟩, ?_⟩
    · intro w
      exact (congrFun (congrFun hf.rel_eq w) w).mpr .refl
    · intro w
      exact (congrFun (congrFun hl.rel_eq w) w).mpr .refl
    · refine reflTransGen_congr ?_ ?_
      · rintro v u (hvu | hvu | hvu)
        · -- a closed tail step is a run of tail-only events
          have hvu' := (congrFun (congrFun hf.rel_eq v) u).mp hvu
          refine ReflTransGen.mono ?_ _ _ hvu'
          rintro x y ⟨hxy, b, hb, hrel⟩
          obtain ⟨a, ha, hnode⟩ := mem_belowOf.mp hb
          exact ⟨_, hnode, (rel_of_isId ha).mpr hxy, hrel⟩
        · have hvu' := (congrFun (congrFun hl.rel_eq v) u).mp hvu
          refine ReflTransGen.mono ?_ _ _ hvu'
          rintro x y ⟨⟨a, ha, hrel⟩, hxy⟩
          obtain ⟨-, b, hb, hnode⟩ := mem_edgeOf.mp ha
          exact ⟨_, hnode, hrel, (rel_of_isId hb).mpr hxy⟩
        · obtain ⟨e, he, hrel⟩ := (OpTerm.relSum_iff _ _ _).mp hvu
          exact .single ⟨e, mem_of_mem_acrossOf he, hrel⟩
      · rintro v u ⟨e, he, hrel⟩
        rcases split_cases (Term.isId h) (Term.isId t) he with
          rfl | ⟨a, b, rfl, ha, hb⟩ | ⟨a, b, rfl, hb, ha⟩ | he
        · cases hrel
          exact .refl
        · refine .single (Or.inl ((congrFun (congrFun hf.rel_eq v) u).mpr ?_))
          exact .single ⟨(rel_of_isId ha).mp hrel.1, b, hb, hrel.2⟩
        · refine .single (Or.inr (Or.inl ((congrFun (congrFun hl.rel_eq v) u).mpr ?_)))
          exact .single ⟨⟨a, ha, hrel.1⟩, (rel_of_isId hb).mp hrel.2⟩
        · exact .single (Or.inr (Or.inr ((OpTerm.relSum_iff _ _ _).mpr ⟨e, he, hrel⟩)))

/-- The rewrite denotes the closure of the union of the events. By induction on
the sort. -/
theorem saturate_denotes : (s : Shape) → (events : List (Term s)) →
    (∀ e ∈ events, Denotes m s e (m.rel s e)) →
    Denotes m s (saturate m s events) (ReflTransGen (anyRel (m.rel s) events))
  | .unit, [], _ => closure_nil ▸ denotes_id .unit
  | .leaf, [], _ => closure_nil ▸ denotes_id .leaf
  | .unit, e :: es, hev => by
    obtain ⟨he, hes⟩ := List.forall_mem_cons.mp hev
    refine (denotes_lfp .unit (denotes_foldl .unit he hes)).congr (congrArg ReflTransGen ?_)
    funext v u
    simp [anyRel]
  | .leaf, e :: es, hev => by
    obtain ⟨he, hes⟩ := List.forall_mem_cons.mp hev
    refine (denotes_lfp .leaf (denotes_foldl .leaf he hes)).congr (congrArg ReflTransGen ?_)
    funext v u
    simp [anyRel]
  | .pair h t, events, hev => by
    unfold saturate
    split
    · next hn =>
      rw [hn, closure_nil]
      exact denotes_id _
    · have hflat : ∀ e ∈ flattenAll events,
          Denotes m (.pair h t) e (m.rel _ e) := by
        refine forall_flattenAll (fun ts hts e he => ?_) events hev
        exact ⟨(OpTerm.wfAll_iff _ _ _).mp hts.wf e he,
          (OpTerm.additiveAll_iff _ _ _ _).mp hts.additive e he, rfl⟩
      have hbelow : ∀ b ∈ belowOf (Term.isId h) (flattenAll events), Denotes m t b (m.rel t b) := by
        intro b hb
        obtain ⟨a, -, hnode⟩ := mem_belowOf.mp hb
        exact (node_denotes (hflat _ hnode)).2
      have hedge : ∀ a ∈ edgeOf (Term.isId h) (Term.isId t) (flattenAll events),
          Denotes m h a (m.rel h a) := by
        intro a ha
        obtain ⟨-, b, -, hnode⟩ := mem_edgeOf.mp ha
        exact (node_denotes (hflat _ hnode)).1
      refine (schedule_denotes hflat (belowPart_denotes (saturate_denotes t _ hbelow))
        (edgePart_denotes (saturate_denotes h _ hedge))).congr (congrArg ReflTransGen ?_)
      funext v u
      exact propext (rel_flattenAll events)

/-- A reflexive step more adds nothing to a closure. -/
private theorem closure_id {W : Type} {r : W → W → Prop} :
    ReflTransGen (fun v u => v = u ∨ r v u) = ReflTransGen r := by
  refine reflTransGen_congr ?_ fun v u h => .single (Or.inr h)
  rintro v u (rfl | h)
  · exact .refl
  · exact .single h

theorem naiveLfp_denotes : (s : Shape) → (events : List (Term s)) →
    (∀ e ∈ events, Denotes m s e (m.rel s e)) →
    Denotes m s (naiveLfp m s events) (ReflTransGen (anyRel (m.rel s) events))
  | .unit, events, hev =>
    (denotes_lfp .unit (denotes_foldl .unit (denotes_id .unit) hev)).congr closure_id
  | .leaf, events, hev =>
    (denotes_lfp .leaf (denotes_foldl .leaf (denotes_id .leaf) hev)).congr closure_id
  | .pair h t, events, hev => by
    have hid := denotes_id (m := m) (.pair h t)
    have hsum := denotes_mkSum (List.cons_ne_nil _ _)
      (List.forall_mem_cons.mpr ⟨⟨hid.wf, hid.additive, rfl⟩, hev⟩)
    refine (denotes_lfp (.pair h t) hsum).congr (Eq.trans (congrArg ReflTransGen ?_) closure_id)
    funext v u
    simp only [anyRel, List.mem_cons, exists_eq_or_imp, hid.rel_eq]

end Schedule

/-! ## What evaluation makes of it -/

namespace OpTerm

variable {H T D W : Type} {nodeEvent nodeAdd : H → T → Prop} {nr : H → T → W → W → Prop}
  {er : Lia.BExpr → List Assign → W → W → Prop} {dn : D → Set W}

mutual

/-- The events of the rewrite: `id`, local leaf terms, `node`, sums and
compositions. -/
def IsEvent (nodeEvent : H → T → Prop) : OpTerm H T D → Prop
  | .id => True
  | .node h t => nodeEvent h t
  | .sum ts => AllEvents nodeEvent ts
  | .compose a b => IsEvent nodeEvent a ∧ IsEvent nodeEvent b
  | _ => False

def AllEvents (nodeEvent : H → T → Prop) : List (OpTerm H T D) → Prop
  | [] => True
  | t :: ts => IsEvent nodeEvent t ∧ AllEvents nodeEvent ts

end

mutual

theorem additive_of_isEvent (hn : ∀ h t, nodeEvent h t → nodeAdd h t) :
    (t : OpTerm H T D) → IsEvent nodeEvent t → Additive nr er dn nodeAdd t
  | .id, _ => trivial
  | .node h t, he => hn h t he
  | .sum ts, he => additiveAll_of_allEvents hn ts he
  | .compose a b, he => ⟨additive_of_isEvent hn a he.1, additive_of_isEvent hn b he.2⟩

theorem additiveAll_of_allEvents (hn : ∀ h t, nodeEvent h t → nodeAdd h t) :
    (ts : List (OpTerm H T D)) → AllEvents nodeEvent ts → AdditiveAll nr er dn nodeAdd ts
  | [], _ => trivial
  | t :: ts, he => ⟨additive_of_isEvent hn t he.1, additiveAll_of_allEvents hn ts he.2⟩

end

end OpTerm

def Term.IsEvent : (s : Shape) → Term s → Prop
  | .unit => OpTerm.IsEvent fun _ _ => False
  | .leaf => fun _ => True
  | .pair h t => OpTerm.IsEvent fun a b => Term.IsEvent h a ∧ Term.IsEvent t b

theorem Term.additive_of_isEvent {m : Manager} : (s : Shape) → (t : Term s) → Term.IsEvent s t →
    Term.Additive m.brackets s t
  | .unit, t, h => OpTerm.additive_of_isEvent (fun _ _ h => h.elim) t h
  | .leaf, _, _ => trivial
  | .pair h t, x, he => OpTerm.additive_of_isEvent
      (fun a b hab => ⟨Term.additive_of_isEvent h a hab.1, Term.additive_of_isEvent t b hab.2⟩)
      x he

/-- Evaluating the saturated closure computes the least set that contains the
diagram and is closed under every event: the diagram of the naive closure. -/
theorem saturate_exact (m : Manager) (s : Shape) {events : List (Term s)} {d r : Code s}
    (hw : ∀ e ∈ events, m.WF s e) (hev : ∀ e ∈ events, Term.IsEvent s e) (hd : m.Canon s d)
    (hr : m.apply s (saturate m s events) d = .ok r) :
    m.Canon s r ∧ IsLeast {Y | den s d ⊆ Y ∧ ∀ e ∈ events, post (m.rel s e) Y ⊆ Y} (den s r) ∧
      (∀ e ∈ events, ∀ c, m.apply s e r = .ok c → den s c ⊆ den s r) ∧
      ∀ r', m.apply s (naiveLfp m s events) d = .ok r' → r' = r := by
  have hden : ∀ e ∈ events, Denotes m s e (m.rel s e) := fun e he =>
    .refl (hw e he) (Term.additive_of_isEvent s e (hev e he))
  obtain ⟨hc, hrd⟩ := (saturate_denotes s events hden).apply hd hr
  have hclosed : ∀ Y : Set (Word s), post (anyRel (m.rel s) events) Y ⊆ Y ↔
      ∀ e ∈ events, post (m.rel s e) Y ⊆ Y := by
    intro Y
    constructor
    · rintro h e he u ⟨v, hv, hvu⟩
      exact h ⟨v, hv, e, he, hvu⟩
    · rintro h u ⟨v, hv, e, he, hvu⟩
      exact h e he ⟨v, hv, hvu⟩
  have hleast := post_reflTransGen_isLeast (anyRel (m.rel s) events) (den s d)
  simp only [hclosed] at hleast
  rw [← hrd] at hleast
  refine ⟨hc, hleast, ?_, ?_⟩
  · intro e he c hce
    rw [((hden e he).apply hc hce).2]
    exact hleast.1.2 e he
  · intro r' hr'
    obtain ⟨hc', hrd'⟩ := (naiveLfp_denotes s events hden).apply hd hr'
    exact (m.laws s).ext hc' hc (hrd'.trans hrd.symm)

/-- Two leaves: an event of the first, one that needs and writes both, and an event of
the second. -/
def crossingEvents : List (Term (.pair .leaf .leaf)) :=
  [Term.node (h := .leaf) (t := .leaf) (IntTerm.assign [0] 1) IntTerm.id,
    Term.node (h := .leaf) (t := .leaf) (IntTerm.assign [1] 2) (IntTerm.assign [5] 6),
    Term.node (h := .leaf) (t := .leaf) IntTerm.id (IntTerm.assign [6] 7)]

theorem saturate_exact_two_leaves :
    (Manager.standard 5 1).apply (.pair .leaf .leaf)
      (saturate (Manager.standard 5 1) (.pair .leaf .leaf) crossingEvents) [⟨[0], [5]⟩] =
        .ok [⟨[2], [6, 7]⟩, ⟨[0, 1], [5]⟩] ∧
    IsLeast {Y | den (.pair .leaf .leaf) [⟨[0], [5]⟩] ⊆ Y ∧
      ∀ e ∈ crossingEvents, post ((Manager.standard 5 1).rel (.pair .leaf .leaf) e) Y ⊆ Y}
      (den (.pair .leaf .leaf) [⟨[2], [6, 7]⟩, ⟨[0, 1], [5]⟩]) := by
  have hr : (Manager.standard 5 1).apply (.pair .leaf .leaf)
      (saturate (Manager.standard 5 1) (.pair .leaf .leaf) crossingEvents) [⟨[0], [5]⟩] =
        .ok [⟨[2], [6, 7]⟩, ⟨[0, 1], [5]⟩] := by decide +kernel
  have hwrites : ∀ v w : Int, InInt32 v → InInt32 w →
      (Manager.standard 5 1).WF .leaf (IntTerm.assign [v] w) :=
    fun v w hv hw => ⟨IntSet.canon_of (List.forall_mem_singleton.mpr hv), hw⟩
  refine ⟨hr, (saturate_exact (Manager.standard 5 1) (.pair .leaf .leaf) ?_ ?_ ?_ hr).2.1⟩
  · exact List.forall_mem_cons.mpr ⟨⟨hwrites 0 1 (by decide) (by decide), trivial⟩,
      List.forall_mem_cons.mpr ⟨⟨hwrites 1 2 (by decide) (by decide),
        hwrites 5 6 (by decide) (by decide)⟩,
        List.forall_mem_singleton.mpr ⟨trivial, hwrites 6 7 (by decide) (by decide)⟩⟩⟩
  · exact List.forall_mem_cons.mpr ⟨⟨trivial, trivial⟩,
      List.forall_mem_cons.mpr ⟨⟨trivial, trivial⟩, List.forall_mem_singleton.mpr
        ⟨trivial, trivial⟩⟩⟩
  · exact Manager.canon_single _ (show IntSet.Canon [0] by decide)
      (show IntSet.Canon [5] by decide) (show ([0] : List Int) ≠ [] by decide)
      (show ([5] : List Int) ≠ [] by decide)

end LibHSC
