import LibHSC.Surface.Session

/-!
A session fed in batches against the whole sequence at once. A form sees its batch
through the specification read from it and through its text; a batch that shows both
as the whole sequence does gives the same answers.
-/

namespace LibHSC.Surface

open Lia Xpl

/-! ## What a form reads of its batch -/

/-- The commands that ask for the specification. -/
def readsSpec (f : Datum) : Bool :=
  decide (f.head = "xreach") || decide (f.head = "cegar") || decide (f.head = "certcheck")

section Views

variable {T : Type} {E : Engines T} {fs fs' : List Datum} {st : Session T} {f : Datum}

/-- An explicit result comes with the specification it was computed from. -/
def Session.Ready (st : Session T) : Prop := st.spec = none → st.xresults = []

/-- What holds of the state if nothing is thrown. -/
def Session.Post (P : Session T → Prop) (a : Session.Answer T) : Prop := a.2 = none → P a.1

theorem withOk_post {α : Type} {x : Except Thrown α} {k : α → Session.Answer T}
    {P : Session T → Prop} (h : ∀ a, x = .ok a → Session.Post P (k a)) :
    Session.Post P (st.withOk x k) := by
  cases x with
  | error e => exact nofun
  | ok a => exact h a rfl

theorem modelSpec_congr {k k' : Session T → Spec → Session.Answer T}
    (h : st.spec = none → Spec.read fs = Spec.read fs')
    (hk : ∀ st' s, st'.spec = some s → k st' s = k' st' s) :
    modelSpec fs st k = modelSpec fs' st k' := by
  unfold modelSpec
  cases hs : st.spec with
  | some s => exact hk st s hs
  | none =>
    simp only
    rw [h hs]
    cases Spec.read fs' with
    | error e => rfl
    | ok s => exact hk _ s rfl

theorem modelSpec_post {k : Session T → Spec → Session.Answer T} {P : Session T → Prop}
    (hk : ∀ st' s, st'.spec = some s → st'.xresults = st.xresults → Session.Post P (k st' s)) :
    Session.Post P (modelSpec fs st k) := by
  unfold modelSpec
  cases hs : st.spec with
  | some s => exact hk st s hs rfl
  | none => exact withOk_post fun s _ => hk _ s rfl rfl

theorem model_congr {k k' : Session T → Xpl.Model → Session.Answer T}
    (h : st.spec = none → Spec.read fs = Spec.read fs')
    (hk : ∀ st' m, (st'.spec = none → st.spec = none) → k st' m = k' st' m) :
    model E fs st k = model E fs' st k' := by
  unfold model
  cases st.model with
  | some m => exact hk st m id
  | none =>
    refine modelSpec_congr h fun st' s hs => ?_
    cases built (s.xpl E.ids) with
    | error e => rfl
    | ok m =>
      refine hk _ m fun hn => ?_
      rw [show st'.spec = none from hn] at hs
      cases hs

theorem model_post {k : Session T → Xpl.Model → Session.Answer T} {P : Session T → Prop}
    (hk : ∀ st' m, Session.Post P (k st' m)) : Session.Post P (model E fs st k) := by
  unfold model
  cases st.model with
  | some m => exact hk st m
  | none => exact modelSpec_post fun st' s _ _ => withOk_post fun m _ => hk _ m

/-! ## One form -/

theorem xreachFrom_congr {name : String} {cap : Nat} {seeds : List Xpl.Word}
    (h : st.spec = none → Spec.read fs = Spec.read fs') :
    xreachFrom E fs st name cap seeds = xreachFrom E fs' st name cap seeds := by
  refine model_congr h fun st' m hs => ?_
  cases reach E m seeds cap with
  | error e => rfl
  | ok res =>
    dsimp only [Session.withOk]
    exact modelSpec_congr (fun hn => h (hs hn)) fun _ _ _ => rfl

theorem doXreach_congr (h : st.spec = none → Spec.read fs = Spec.read fs') :
    doXreach E fs st f = doXreach E fs' st f := by
  unfold doXreach
  split
  · rfl
  · dsimp only
    split
    · rfl
    · cases xreachOptions (f.items.drop 2) none 100000000 with
      | error e => rfl
      | ok opt =>
        dsimp only [Session.withOk]
        split
        · split
          · rfl
          · split
            · rfl
            · exact xreachFrom_congr h
        · refine modelSpec_congr h fun st' s hs => ?_
          cases built (s.seeds E.ids) with
          | error e => rfl
          | ok seeds =>
            refine xreachFrom_congr fun hn => ?_
            rw [hn] at hs
            cases hs

theorem doCegar_congr (h : st.spec = none → Spec.read fs = Spec.read fs') :
    doCegar E fs st f = doCegar E fs' st f := by
  unfold doCegar
  split
  · rfl
  · dsimp only
    split
    · rfl
    · cases cegarOptions (f.items.drop 2) [] ⟨.all, false, true, 1000000⟩ with
      | error e => rfl
      | ok x =>
        dsimp only [Session.withOk]
        split
        · rfl
        · exact modelSpec_congr h fun _ _ _ => rfl

theorem doCertcheck_congr (h : st.spec = none → Spec.read fs = Spec.read fs') :
    doCertcheck E fs st f = doCertcheck E fs' st f := by
  unfold doCertcheck
  split
  · rfl
  · dsimp only
    split
    · rfl
    · split
      · rfl
      · exact modelSpec_congr h fun _ _ _ => rfl

theorem printWords_congr {ws : List Xpl.Word} (h : st.spec ≠ none) :
    printWords fs st ws = printWords fs' st ws := by
  unfold printWords
  split
  · rfl
  · exact modelSpec_congr (fun hn => absurd hn h) fun _ _ _ => rfl

theorem overlay_congr (h : st.Ready) : overlay E fs st f = overlay E fs' st f := by
  unfold overlay
  split
  · dsimp only
    cases hx : st.xresults.lookup (f.item 1).text with
    | none => rfl
    | some res =>
      have hs : st.spec ≠ none := by
        intro hn
        rw [h hn] at hx
        cases hx
      dsimp only
      unfold xgetStates xgetWitness
      split
      · rfl
      · split
        · rfl
        · split
          · split
            · split
              · rfl
              · exact printWords_congr hs
            · exact printWords_congr hs
          · split
            · split
              · rfl
              · exact printWords_congr hs
            · rfl
  · rfl

/-- Two batches that a form does not tell apart. -/
structure SameView (st : Session T) (f : Datum) (fs fs' : List Datum) : Prop where
  spec : st.spec = none → readsSpec f = true → Spec.read fs = Spec.read fs'
  domains : f.head = "xdomains" → Spec.read fs = Spec.read fs'
  printed : f.head = "print-spec" → printedSpec fs = printedSpec fs'

theorem route_congr (hst : st.Ready) (h : SameView st f fs fs') :
    route E fs st f = route E fs' st f := by
  unfold route
  split
  · rfl
  · split
    · next hf => exact doXreach_congr fun hn => h.spec hn (by simp [readsSpec, hf])
    · split
      · next hf =>
        unfold doXdomains analyzeDomains
        rw [h.domains hf]
      · split
        · next hf => exact doCegar_congr fun hn => h.spec hn (by simp [readsSpec, hf])
        · split
          · rfl
          · split
            · next hf => exact doCertcheck_congr fun hn => h.spec hn (by simp [readsSpec, hf])
            · split
              · next hf =>
                unfold doPrintSpec
                rw [h.printed hf]
              · exact overlay_congr hst

/-- The state keeps its explicit results, and its specification once it is read. -/
def Session.Keeps (st st' : Session T) : Prop :=
  st'.xresults = st.xresults ∧ (st'.spec = none → st.spec = none)

theorem bindResult_read {name : String} {res : ReachResult} {s : Spec} (h : st.spec = some s) :
    Session.Post (fun st' => st'.spec ≠ none) (st.bindResult name res) := by
  intro _ hn
  rw [show st.spec = none from hn] at h
  cases h

theorem reportReach_spec (st : Session T) (name : String) (s : Spec) (res : ReachResult) :
    (reportReach st name s res).spec = st.spec := by
  unfold reportReach
  split <;> rfl

theorem xreachFrom_reads {name : String} {cap : Nat} {seeds : List Xpl.Word} :
    Session.Post (fun st' => st'.spec ≠ none) (xreachFrom E fs st name cap seeds) :=
  model_post fun _ _ => withOk_post fun res _ => modelSpec_post fun st' s hs _ =>
    bindResult_read (s := s) ((reportReach_spec st' name s res).trans hs)

theorem doXreach_reads : Session.Post (fun st' => st'.spec ≠ none) (doXreach E fs st f) := by
  unfold doXreach
  split
  · exact nofun
  · dsimp only
    split
    · exact nofun
    · refine withOk_post fun opt _ => ?_
      split
      · split
        · exact nofun
        · split
          · exact nofun
          · exact xreachFrom_reads
      · exact modelSpec_post fun _ _ _ _ => withOk_post fun _ _ => xreachFrom_reads

theorem doCegar_reads : Session.Post (fun st' => st'.spec ≠ none) (doCegar E fs st f) := by
  unfold doCegar
  split
  · exact nofun
  · dsimp only
    split
    · exact nofun
    · refine withOk_post fun x _ => ?_
      split
      · exact nofun
      · refine modelSpec_post fun st' s hs _ => withOk_post fun b _ => ?_
        split
        · exact nofun
        · split
          · exact nofun
          · unfold reportCegar
            dsimp only
            split
            · exact bindResult_read (s := s) hs
            · exact bindResult_read (s := s) hs

theorem doCertcheck_reads : Session.Post (fun st' => st'.spec ≠ none) (doCertcheck E fs st f) := by
  unfold doCertcheck
  split
  · exact nofun
  · dsimp only
    split
    · exact nofun
    · split
      · exact nofun
      · refine modelSpec_post fun st' s hs _ => ?_
        unfold reportCheck
        dsimp only
        split
        · exact nofun
        · intro _ hn
          rw [show st'.spec = none from hn] at hs
          cases hs

theorem printWords_keeps {ws : List Xpl.Word} : Session.Post st.Keeps (printWords fs st ws) := by
  unfold printWords
  split
  · exact fun _ => ⟨rfl, id⟩
  · refine modelSpec_post fun st' s hs hx _ => ⟨hx, fun hn => ?_⟩
    rw [show st'.spec = none from hn] at hs
    cases hs

theorem overlay_keeps : Session.Post st.Keeps (overlay E fs st f) := by
  have hform : Session.Post st.Keeps (doForm E st f) := fun _ => ⟨rfl, id⟩
  unfold overlay
  split
  · dsimp only
    split
    · exact hform
    · split
      · unfold xcount
        split <;> exact fun _ => ⟨rfl, id⟩
      · split
        · unfold xexpect
          split
          · exact fun he => by cases he
          · split
            · exact fun he => by cases he
            · dsimp only
              split
              · split <;> exact fun _ => ⟨rfl, id⟩
              · exact fun _ => ⟨rfl, id⟩
              · exact fun _ => ⟨rfl, id⟩
        · split
          · exact withOk_post fun limit _ => printWords_keeps
          · split
            · unfold xgetWitness
              dsimp only
              split
              · exact fun _ => ⟨rfl, id⟩
              · exact printWords_keeps
            · split
              · exact fun _ => ⟨rfl, id⟩
              · exact hform
  · exact hform

/-- After a form either the specification is there, or nothing of the explicit side
has changed. -/
theorem route_post : Session.Post
    (fun st' => if readsSpec f then st'.spec ≠ none else st.Keeps st') (route E fs st f) := by
  cases hr : readsSpec f with
  | true =>
    rw [readsSpec, Bool.or_eq_true, Bool.or_eq_true, decide_eq_true_iff, decide_eq_true_iff,
      decide_eq_true_iff] at hr
    have hne : f.items.isEmpty = false := by
      cases hi : f.items with
      | nil => simp [Datum.head, hi] at hr
      | cons d ds => rfl
    unfold route
    rcases hr with (hf | hf) | hf
    · simpa [hne, hf] using doXreach_reads
    · simpa [hne, hf] using doCegar_reads
    · simpa [hne, hf] using doCertcheck_reads
  | false =>
    rw [readsSpec, Bool.or_eq_false_iff, Bool.or_eq_false_iff, decide_eq_false_iff_not,
      decide_eq_false_iff_not, decide_eq_false_iff_not] at hr
    obtain ⟨⟨hx, hc⟩, hk⟩ := hr
    unfold route
    simp only [Bool.false_eq_true, if_false, hx, hc, hk]
    split
    · exact fun _ => ⟨rfl, id⟩
    · split
      · refine withOk_post fun units _ => ?_
        split
        · exact nofun
        · exact fun _ => ⟨rfl, id⟩
      · split
        · unfold doCertificate
          split
          · exact nofun
          · dsimp only
            split
            · exact fun _ => ⟨rfl, id⟩
            · split
              · exact nofun
              · exact fun _ => ⟨rfl, id⟩
        · split
          · unfold doPrintSpec
            split
            · split
              · exact nofun
              · exact fun _ => ⟨rfl, id⟩
            · split
              · exact nofun
              · exact fun _ => ⟨rfl, id⟩
          · exact overlay_keeps

end Views

/-! ## A batch and the whole sequence -/

/-- What the forms of a batch see of it is what they would see of the whole sequence.
With `cached`, the specification is there already. -/
structure SeesWhole (whole : List Datum) (cached : Bool) (b : List Datum) : Prop where
  spec : cached = false → (∃ f ∈ b, readsSpec f = true) → Spec.read b = Spec.read whole
  domains : (∃ f ∈ b, f.head = "xdomains") → Spec.read b = Spec.read whole
  printed : (∃ f ∈ b, f.head = "print-spec") → printedSpec b = printedSpec whole

/-- The same, of batch after batch: the first command that asks for the specification
decides it for the later ones. -/
def AllSeeWhole (whole : List Datum) : Bool → List (List Datum) → Prop
  | _, [] => True
  | cached, b :: bs => SeesWhole whole cached b ∧ AllSeeWhole whole (cached || b.any readsSpec) bs

section Runs

variable {T : Type} {E : Engines T} {fs fs' : List Datum}

theorem route_ready {st st' : Session T} {f : Datum} (hst : st.Ready)
    (h : route E fs st f = (st', none)) :
    st'.Ready ∧ (st'.spec = none → st.spec = none ∧ readsSpec f = false) := by
  have hpost : if readsSpec f then st'.spec ≠ none else st.Keeps st' := by
    have hall : Session.Post (fun st' => if readsSpec f then st'.spec ≠ none else st.Keeps st')
        (route E fs st f) := route_post
    rw [h] at hall
    exact hall rfl
  cases hr : readsSpec f with
  | true =>
    rw [if_pos hr] at hpost
    exact ⟨fun hn => absurd hn hpost, fun hn => absurd hn hpost⟩
  | false =>
    rw [if_neg (by simp [hr])] at hpost
    refine ⟨fun hn => ?_, fun hn => ⟨hpost.2 hn, rfl⟩⟩
    rw [hpost.1]
    exact hst (hpost.2 hn)

/-- The forms of a batch, run in one view of it or in another. -/
theorem routeAll_congr : ∀ {forms : List Datum} {st : Session T}, st.Ready →
    (st.spec = none → (∃ f ∈ forms, readsSpec f = true) → Spec.read fs = Spec.read fs') →
    ((∃ f ∈ forms, f.head = "xdomains") → Spec.read fs = Spec.read fs') →
    ((∃ f ∈ forms, f.head = "print-spec") → printedSpec fs = printedSpec fs') →
    routeAll E fs forms st = routeAll E fs' forms st := by
  intro forms
  induction forms with
  | nil => exact fun _ _ _ _ => rfl
  | cons f forms ih =>
    intro st hst hs hd hp
    have hview : SameView st f fs fs' :=
      ⟨fun hn hf => hs hn ⟨f, List.mem_cons_self .., hf⟩,
        fun hf => hd ⟨f, List.mem_cons_self .., hf⟩, fun hf => hp ⟨f, List.mem_cons_self .., hf⟩⟩
    rw [routeAll, routeAll, ← route_congr hst hview]
    cases hr : route E fs st f with
    | mk st' e =>
      cases e with
      | some e => rfl
      | none =>
        obtain ⟨hst', hn⟩ := route_ready hst hr
        exact ih hst' (fun hn' ⟨g, hg, hf⟩ => hs (hn hn').1 ⟨g, List.mem_cons_of_mem _ hg, hf⟩)
          (fun ⟨g, hg, hf⟩ => hd ⟨g, List.mem_cons_of_mem _ hg, hf⟩)
          (fun ⟨g, hg, hf⟩ => hp ⟨g, List.mem_cons_of_mem _ hg, hf⟩)

theorem routeAll_ready : ∀ {forms : List Datum} {st st' : Session T}, st.Ready →
    routeAll E fs forms st = (st', none) →
    st'.Ready ∧ (st'.spec = none → st.spec = none ∧ forms.any readsSpec = false) := by
  intro forms
  induction forms with
  | nil =>
    intro st st' hst h
    cases h
    exact ⟨hst, fun hn => ⟨hn, rfl⟩⟩
  | cons f forms ih =>
    intro st st' hst h
    rw [routeAll] at h
    cases hr : route E fs st f with
    | mk st₁ e =>
      rw [hr] at h
      cases e with
      | some e => cases h
      | none =>
        obtain ⟨hst₁, hn₁⟩ := route_ready hst hr
        obtain ⟨hst', hn'⟩ := ih hst₁ h
        refine ⟨hst', fun hn => ?_⟩
        obtain ⟨h₁, h₂⟩ := hn' hn
        obtain ⟨h₃, h₄⟩ := hn₁ h₁
        exact ⟨h₃, by rw [List.any_cons, h₄, h₂]; rfl⟩

theorem routeAll_append {forms forms' : List Datum} {st : Session T} :
    routeAll E fs (forms ++ forms') st =
      match routeAll E fs forms st with
      | (st, none) => routeAll E fs forms' st
      | (st, some e) => (st, some e) := by
  induction forms generalizing st with
  | nil => rfl
  | cons f forms ih =>
    rw [List.cons_append, routeAll, routeAll]
    cases route E fs st f with
    | mk st' e =>
      cases e with
      | some e => rfl
      | none => exact ih

/-- A batch without directives and without a `cegar` is taken as it is. -/
theorem prepare_plain {b : List Datum} (hd : ∀ f ∈ b, isDirective f = false)
    (hc : ∀ f ∈ b, f.head ≠ "cegar") : prepare E b = .ok (b, "") := by
  have hwork : (b.filter fun f => !isDirective f) = b :=
    List.filter_eq_self.mpr fun f hf => by rw [hd f hf]; rfl
  have hasked : b.filter isDirective = [] := List.filter_eq_nil_iff.mpr fun f hf => by
    rw [hd f hf]
    exact Bool.false_ne_true
  have hwants : wantsCegar b = false := List.any_eq_false.mpr fun f hf => by
    rw [decide_eq_true_iff]
    exact hc f hf
  unfold prepare chainOf
  simp only [hwork, hasked, hwants]
  rfl

/-- The later batches, against the rest of the sequence. -/
theorem feedAll_plain {whole : List Datum} : ∀ {bs : List (List Datum)} {cached : Bool}
    {st : Session T}, (∀ b ∈ bs, ∀ f ∈ b, isDirective f = false ∧ f.head ≠ "cegar") →
    AllSeeWhole whole cached bs → st.Ready → (cached = true → st.spec ≠ none) →
    feedAll E bs st = routeAll E whole bs.flatten st := by
  intro bs
  induction bs with
  | nil => exact fun _ _ _ _ => rfl
  | cons b bs ih =>
    intro cached st hplain hsees hst hcached
    have hb : prepare E b = .ok (b, "") :=
      prepare_plain (fun f hf => (hplain b List.mem_cons_self f hf).1)
        fun f hf => (hplain b List.mem_cons_self f hf).2
    have hfeed : feed E st b = routeAll E b b st := by
      unfold feed
      rw [hb]
      simp [Session.withOk, Session.print]
    have hview : routeAll E b b st = routeAll E whole b st := by
      refine routeAll_congr hst (fun hn => hsees.1.spec ?_) hsees.1.domains hsees.1.printed
      cases hc : cached with
      | false => rfl
      | true => exact absurd hn (hcached hc)
    rw [feedAll, hfeed, hview, List.flatten_cons, routeAll_append]
    cases hr : routeAll E whole b st with
    | mk st' e =>
      cases e with
      | some e => rfl
      | none =>
        obtain ⟨hst', hn⟩ := routeAll_ready hst hr
        refine ih (fun b' hb' => hplain b' (List.mem_cons_of_mem _ hb')) hsees.2 hst' ?_
        intro hor hnone
        obtain ⟨h₁, h₂⟩ := hn hnone
        rw [h₂, Bool.or_false] at hor
        exact hcached hor h₁

/-- An empty batch does nothing. -/
theorem feedAll_filter {bs : List (List Datum)} {st : Session T} :
    feedAll E (bs.filter fun b => !b.isEmpty) st = feedAll E bs st := by
  induction bs generalizing st with
  | nil => rfl
  | cons b bs ih =>
    cases b with
    | nil =>
      have hnil : feed E st [] = (st, none) := by
        unfold feed
        rw [prepare_plain (by simp) (by simp)]
        simp [Session.withOk, Session.print, routeAll]
      rw [List.filter_cons_of_neg (by simp), feedAll, hnil]
      exact ih
    | cons f b =>
      rw [List.filter_cons_of_pos (by simp), feedAll, feedAll]
      cases feed E st (f :: b) with
      | mk st' e =>
        cases e with
        | some e => rfl
        | none => exact ih

end Runs

/-- The explicit side sees the whole sequence from every batch. A `cegar` stands in the
first batch that is not empty, and its passes do to the sequence what they do to
that batch. -/
def SplitSees {T : Type} (E : Engines T) (bs : List (List Datum)) : Prop :=
  match bs.filter fun b => !b.isEmpty with
  | [] => True
  | b :: rest =>
    (∀ f ∈ rest.flatten, f.head ≠ "cegar") ∧
    prepare E (b ++ rest.flatten) = (prepare E b).map (fun x => (x.1 ++ rest.flatten, x.2)) ∧
    ∀ work log, prepare E b = .ok (work, log) →
      AllSeeWhole (work ++ rest.flatten) false (work :: rest)

theorem flatten_filter_isEmpty (bs : List (List Datum)) :
    (bs.filter fun b => !b.isEmpty).flatten = bs.flatten := by
  induction bs with
  | nil => rfl
  | cons b bs ih =>
    cases b with
    | nil => simpa using ih
    | cons f b => simp [ih]

/-- A session fed in batches answers as the whole sequence does at once, as long as the
explicit commands see the whole sequence from the batch they stand in. -/
theorem feedAll_outcome {T : Type} (E : Engines T) (t : T) (files : List (String × String))
    (bs : List (List Datum)) (hd : ∀ b ∈ bs, ∀ f ∈ b, isDirective f = false)
    (h : SplitSees E bs) :
    outcome E (feedAll E bs (.start t files)) = outcome E (feed E (.start t files) bs.flatten) := by
  rw [← feedAll_filter, ← flatten_filter_isEmpty bs]
  unfold SplitSees at h
  cases hbs : bs.filter fun b => !b.isEmpty with
  | nil =>
    rw [List.flatten_nil, feed, prepare_plain (by simp) (by simp)]
    simp [feedAll, Session.withOk, Session.print, routeAll]
  | cons b rest =>
    rw [hbs] at h
    obtain ⟨hcegar, hprep, hsees⟩ := h
    have hrest : ∀ b' ∈ rest, ∀ f ∈ b', isDirective f = false ∧ f.head ≠ "cegar" := by
      intro b' hb' f hf
      have hmem : b' ∈ bs := (List.mem_filter.mp (hbs ▸ List.mem_cons_of_mem _ hb')).1
      exact ⟨hd b' hmem f hf, hcegar f (List.mem_flatten.mpr ⟨b', hb', hf⟩)⟩
    rw [List.flatten_cons, feedAll, feed, feed, hprep]
    cases hb : prepare E b with
    | error e => rfl
    | ok x =>
      obtain ⟨work, log⟩ := x
      obtain ⟨hwork, hlater⟩ := hsees work log hb
      have hst : ((Session.start t files).print log).Ready := fun _ => rfl
      have hview : routeAll E work work ((Session.start t files).print log) =
          routeAll E (work ++ rest.flatten) work ((Session.start t files).print log) :=
        routeAll_congr hst (fun _ => hwork.spec rfl) hwork.domains hwork.printed
      dsimp only [Except.map, Session.withOk]
      rw [hview, routeAll_append]
      cases hr : routeAll E (work ++ rest.flatten) work ((Session.start t files).print log) with
      | mk st' e =>
        cases e with
        | some e => rfl
        | none =>
          obtain ⟨hst', hn⟩ := routeAll_ready hst hr
          dsimp only
          rw [feedAll_plain hrest hlater hst']
          intro hany hnone
          rw [(hn hnone).2] at hany
          cases hany

/-- A translator that takes every form silently, and no pass. -/
def silent : Engines Unit where
  form _ _ := ((), "", none)
  translatorFailures _ := 0
  hasResult _ _ := false
  wordsOf _ _ _ := none
  apply _ forms _ := .ok ⟨forms, false, "nothing to do"⟩
  ids := ⟨fun _ => 0, fun _ => 0⟩
  fuel := 100
  cause _ := ""
  what _ := ""
  writable _ := true

/-- A word of a form. -/
def word (text : String) : Datum := .atom text 1

/-- A counter over `[0, 4)` that stops at its last value. -/
def counterForms : List Datum :=
  [.list [word "leaf", word "x", word "0", word "4"] 1, .list [word "shape", word "x"] 1,
   .list [word "init", .list [word "x", word "0"] 1] 1,
   .list [word "event", word "up", .list [word "when", .list [word "<", word "x", word "3"] 1] 1,
     .list [word "do", .list [word "+=", word "x", word "1"] 1] 1] 1]

def xreachForm : Datum := .list [word "xreach", word "R", word "cap", word "10"] 1

/-- The exploration in a batch of its own finds one state of the four. -/
theorem feedAll_outcome_split_model :
    (∀ b ∈ [counterForms, [xreachForm]], ∀ f ∈ b, isDirective f = false) ∧
    (outcome silent (feedAll silent [counterForms, [xreachForm]] (.start () []))).1 =
      "R xreach 1 states (0 fired)\n" ∧
    (outcome silent (feed silent (.start () []) [counterForms, [xreachForm]].flatten)).1 =
      "R xreach 4 states (3 fired)\n" := by
  refine ⟨?_, ?_, ?_⟩
  · simp [counterForms, xreachForm, isDirective, registry, word, Datum.head, Datum.items]
  · decide +kernel
  · decide +kernel

/-- The queries on the result may come in later batches. -/
theorem feedAll_outcome_later_query :
    let bs := [counterForms ++ [xreachForm], [.list [word "count", word "R"] 2]]
    (∀ b ∈ bs, ∀ f ∈ b, isDirective f = false) ∧ SplitSees silent bs ∧
      outcome silent (feedAll silent bs (.start () [])) =
        outcome silent (feed silent (.start () []) bs.flatten) := by
  intro bs
  have hd : ∀ b ∈ bs, ∀ f ∈ b, isDirective f = false := by
    simp [bs, counterForms, xreachForm, isDirective, registry, word, Datum.head, Datum.items]
  have hc : ∀ b ∈ bs, ∀ f ∈ b, f.head ≠ "cegar" := by
    simp [bs, counterForms, xreachForm, word, Datum.head, Datum.items]
  have hsees : SplitSees silent bs := by
    have hfirst : prepare silent (counterForms ++ [xreachForm]) =
        .ok (counterForms ++ [xreachForm], "") :=
      prepare_plain (hd _ List.mem_cons_self) (hc _ List.mem_cons_self)
    have hwhole : prepare silent bs.flatten = .ok (bs.flatten, "") := by
      refine prepare_plain (fun f hf => ?_) fun f hf => ?_
      · obtain ⟨b, hb, hf⟩ := List.mem_flatten.mp hf
        exact hd b hb f hf
      · obtain ⟨b, hb, hf⟩ := List.mem_flatten.mp hf
        exact hc b hb f hf
    refine ⟨?_, ?_, ?_⟩
    · simp [word, Datum.head, Datum.items]
    · rw [hfirst]
      exact hwhole
    · intro work log hprep
      cases hfirst.symm.trans hprep
      have hread : Spec.read (counterForms ++ [xreachForm]) = Spec.read bs.flatten :=
        (Spec.read_append_commands (by
          simp [isCommand, word, Datum.head, Datum.items])).symm
      refine ⟨⟨fun _ _ => hread, fun _ => hread, ?_⟩, ⟨nofun, ?_, ?_⟩, trivial⟩
      · simp [counterForms, xreachForm, word, Datum.head, Datum.items]
      · simp [word, Datum.head, Datum.items]
      · simp [word, Datum.head, Datum.items]
  exact ⟨hd, hsees, feedAll_outcome silent () [] bs hd hsees⟩

end LibHSC.Surface
