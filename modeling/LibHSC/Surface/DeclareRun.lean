import LibHSC.Surface.Batches
import LibHSC.Surface.DeclareSeeds

/-!
Whole runs before and after the pass `(declare-domains)`: the same output, the same
failures, as long as no changed default is read and no command asks for the domains
themselves.
-/

namespace LibHSC.Surface

open Lia Xpl

section Run

variable {Q : Type} (P : Queries Q) (base : Engines Unit) {x : Redeclared} {forms : List Datum}

/-- The sessions of the two runs. -/
structure SimSession (x : Redeclared) (forms : List Datum) (declared pending : List String)
    (st st' : Session (Decls × Q)) : Prop where
  translator : SimTranslator x forms declared pending st.translator st'.translator
  spec : (st.spec = none ∧ st'.spec = none) ∨
    ∃ s s', st.spec = some s ∧ st'.spec = some s' ∧ SameModel s s'
  model : st'.model = st.model
  xresults : st'.xresults = st.xresults
  lastCert : st'.lastCert = st.lastCert
  failures : st'.failures = st.failures
  files : st'.files = st.files
  out : st'.out = st.out

/-- The same output and exception, and related sessions unless something is thrown. -/
structure AnswerSim (R : Session (Decls × Q) → Session (Decls × Q) → Prop)
    (a b : Session.Answer (Decls × Q)) : Prop where
  out : b.1.out = a.1.out
  thrown : b.2 = a.2
  state : a.2 = none → R a.1 b.1

variable {declared pending : List String} {st st' : Session (Decls × Q)}

/-- How the whole sequence reads before and after the pass. -/
structure ReadsSame (x : Redeclared) (forms : List Datum) : Prop where
  same : ∃ s s', Spec.read forms = .ok s ∧ Spec.read (forms.map x.onForm) = .ok s' ∧ SameModel s s'

namespace SimSession

theorem raise (h : SimSession x forms declared pending st st') (e : Thrown) :
    AnswerSim (SimSession x forms declared pending) (st.raise e) (st'.raise e) :=
  ⟨h.out, rfl, nofun⟩

theorem print (h : SimSession x forms declared pending st st') (text : String) :
    SimSession x forms declared pending (st.print text) (st'.print text) :=
  ⟨h.translator, h.spec, h.model, h.xresults, h.lastCert, h.failures, h.files,
    congrArg (· ++ text) h.out⟩

theorem fail (h : SimSession x forms declared pending st st') (n : Nat) :
    SimSession x forms declared pending { st with failures := st.failures + n }
      { st' with failures := st'.failures + n } :=
  ⟨h.translator, h.spec, h.model, h.xresults, h.lastCert, congrArg (· + n) h.failures, h.files,
    h.out⟩

theorem done (h : SimSession x forms declared pending st st') :
    AnswerSim (SimSession x forms declared pending) (st, none) (st', none) :=
  ⟨h.out, rfl, fun _ => h⟩

theorem bindResult (h : SimSession x forms declared pending st st') (name : String)
    (res : ReachResult) : AnswerSim (SimSession x forms declared pending)
      (st.bindResult name res) (st'.bindResult name res) :=
  ⟨h.out, rfl, fun _ => ⟨h.translator, h.spec, h.model, congrArg (· ++ [(name, res)]) h.xresults,
    h.lastCert, h.failures, h.files, h.out⟩⟩

theorem withOk {α : Type} {y : Except Thrown α} {k k' : α → Session.Answer (Decls × Q)}
    (h : SimSession x forms declared pending st st')
    (hk : ∀ a, AnswerSim (SimSession x forms declared pending) (k a) (k' a)) :
    AnswerSim (SimSession x forms declared pending) (st.withOk y k) (st'.withOk y k') := by
  cases y with
  | error e => exact h.raise e
  | ok a => exact hk a

theorem modelSpec {k k' : Session (Decls × Q) → Spec → Session.Answer (Decls × Q)}
    (h : SimSession x forms declared pending st st') (hread : ReadsSame x forms)
    (hk : ∀ st st' s s', SimSession x forms declared pending st st' → SameModel s s' →
      AnswerSim (SimSession x forms declared pending) (k st s) (k' st' s')) :
    AnswerSim (SimSession x forms declared pending) (modelSpec forms st k)
      (Surface.modelSpec (forms.map x.onForm) st' k') := by
  unfold Surface.modelSpec
  rcases h.spec with ⟨h₁, h₂⟩ | ⟨s, s', h₁, h₂, hss⟩
  · obtain ⟨s, s', hs, hs', hss⟩ := hread.same
    rw [h₁, h₂, hs, hs']
    exact hk _ _ s s' ⟨h.translator, .inr ⟨s, s', rfl, rfl, hss⟩, h.model, h.xresults, h.lastCert,
      h.failures, h.files, h.out⟩ hss
  · rw [h₁, h₂]
    exact hk st st' s s' h hss

theorem withModel {k k' : Session (Decls × Q) → Xpl.Model → Session.Answer (Decls × Q)}
    (h : SimSession x forms declared pending st st') (hread : ReadsSame x forms)
    (hk : ∀ st st' m, SimSession x forms declared pending st st' →
      AnswerSim (SimSession x forms declared pending) (k st m) (k' st' m)) :
    AnswerSim (SimSession x forms declared pending) (Surface.model (P.engines base) forms st k)
      (Surface.model (P.engines base) (forms.map x.onForm) st' k') := by
  unfold Surface.model
  rw [h.model]
  cases st.model with
  | some m => exact hk st st' m h
  | none =>
    refine h.modelSpec hread fun st st' s s' hst hss => ?_
    rw [hss.xpl]
    exact hst.withOk fun m => hk _ _ m ⟨hst.translator, hst.spec, rfl, hst.xresults, hst.lastCert,
      hst.failures, hst.files, hst.out⟩

theorem reportReach (h : SimSession x forms declared pending st st') {s s' : Spec}
    (hss : SameModel s s') (name : String) (res : ReachResult) :
    SimSession x forms declared pending (reportReach st name s res)
      (Surface.reportReach st' name s' res) := by
  unfold Surface.reportReach wordText
  rw [hss.order]
  split
  · exact h.print _
  · exact h.print _
  · exact (h.print _).fail 1

theorem xreachFrom (h : SimSession x forms declared pending st st') (hread : ReadsSame x forms)
    (name : String) (cap : Nat) (seeds : List Xpl.Word) :
    AnswerSim (SimSession x forms declared pending)
      (xreachFrom (P.engines base) forms st name cap seeds)
      (Surface.xreachFrom (P.engines base) (forms.map x.onForm) st' name cap seeds) := by
  refine h.withModel P base hread fun st st' m hst => hst.withOk fun res => ?_
  exact hst.modelSpec hread fun st st' s s' hst hss =>
    (hst.reportReach hss name res).bindResult name res

theorem bound (h : SimSession x forms declared pending st st') (name : String) :
    bound (P.engines base) st' name = Surface.bound (P.engines base) st name := by
  unfold Surface.bound Queries.engines
  dsimp only
  rw [h.translator.queries, h.xresults]

theorem doXreach (h : SimSession x forms declared pending st st') (hread : ReadsSame x forms)
    (f : Datum) : AnswerSim (SimSession x forms declared pending)
      (doXreach (P.engines base) forms st f)
      (Surface.doXreach (P.engines base) (forms.map x.onForm) st' f) := by
  unfold Surface.doXreach
  dsimp only
  rw [h.bound P base]
  split
  · exact h.raise _
  · split
    · exact h.raise _
    · refine h.withOk fun opt => ?_
      have hwords : (P.engines base).wordsOf st'.translator =
        (P.engines base).wordsOf st.translator := by
        unfold Queries.engines
        dsimp only
        rw [h.translator.queries]
      rw [hwords]
      split
      · split
        · exact h.raise _
        · split
          · exact h.raise _
          · exact h.xreachFrom P base hread _ _ _
      · refine h.modelSpec hread fun st st' s s' hst hss => ?_
        rw [hss.seeds]
        exact hst.withOk fun seeds => hst.xreachFrom P base hread _ _ _

theorem doCertificate (h : SimSession x forms declared pending st st') (f : Datum) :
    AnswerSim (SimSession x forms declared pending) (doCertificate (P.engines base) st f)
      (Surface.doCertificate (P.engines base) st' f) := by
  unfold Surface.doCertificate
  rw [h.lastCert]
  split
  · exact h.raise _
  · dsimp only
    split
    · exact (h.print _).done
    · split
      · exact h.raise _
      · refine SimSession.done (SimSession.print ?_ _)
        exact ⟨h.translator, h.spec, h.model, h.xresults, h.lastCert, h.failures,
          congrArg ((_, _) :: ·) h.files, h.out⟩

theorem printWords (h : SimSession x forms declared pending st st') (hread : ReadsSame x forms)
    (ws : List Xpl.Word) : AnswerSim (SimSession x forms declared pending) (printWords forms st ws)
      (Surface.printWords (forms.map x.onForm) st' ws) := by
  unfold Surface.printWords
  split
  · exact h.done
  · refine h.modelSpec hread fun st st' s s' hst hss => ?_
    unfold wordText
    rw [hss.order]
    exact (hst.print _).done

theorem xfail (h : SimSession x forms declared pending st st') (text : String) :
    AnswerSim (SimSession x forms declared pending) (xfail st text) (Surface.xfail st' text) :=
  ((h.print text).fail 1).done

theorem xexpect (h : SimSession x forms declared pending st st') (f : Datum) (name : String)
    (res : ReachResult) : AnswerSim (SimSession x forms declared pending) (xexpect st f name res)
      (Surface.xexpect st' f name res) := by
  unfold Surface.xexpect
  split
  · exact h.raise _
  · split
    · exact h.raise _
    · dsimp only
      split
      · split
        · exact (h.print _).done
        · exact h.xfail _
      · exact h.xfail _
      · exact h.xfail _

/-- A form that goes to the translator. -/
theorem doForm (h : SimSession x forms declared pending st st') {f : Datum} {fs : List Datum}
    (hx : x.InRange) (hins : x.Insensitive forms) (hf : f ∈ forms) (hxreach : f.head ≠ "xreach")
    (hc : InitsCover (f :: fs) declared pending) :
    ∃ declared' pending', InitsCover fs declared' pending' ∧
      AnswerSim (SimSession x forms declared' pending') (doForm (P.engines base) st f)
        (Surface.doForm (P.engines base) st' (x.onForm f)) := by
  obtain ⟨declared', pending', hc', htext, hstep⟩ :=
    translate_sim P hx hins hf hxreach h.translator hc
  refine ⟨declared', pending', hc', ?_⟩
  unfold Surface.doForm Queries.engines
  dsimp only
  cases ht : translate P st.translator f with
  | mk t rest =>
    cases ht' : translate P st'.translator (x.onForm f) with
    | mk t' rest' =>
      rw [ht, ht'] at htext hstep
      dsimp only at htext hstep
      subst htext
      obtain ⟨text, e⟩ := rest
      refine ⟨congrArg (· ++ text) h.out, rfl, fun hn => ?_⟩
      exact ⟨hstep hn, h.spec, h.model, h.xresults, h.lastCert, h.failures, h.files,
        congrArg (· ++ text) h.out⟩

theorem overlay (h : SimSession x forms declared pending st st') (hread : ReadsSame x forms)
    {f : Datum} {fs : List Datum} (hx : x.InRange) (hins : x.Insensitive forms) (hf : f ∈ forms)
    (hxreach : f.head ≠ "xreach") (hleaf : f.head ≠ "leaf")
    (hc : InitsCover (f :: fs) declared pending) :
    ∃ declared' pending', InitsCover fs declared' pending' ∧
      AnswerSim (SimSession x forms declared' pending') (overlay (P.engines base) forms st f)
        (Surface.overlay (P.engines base) (forms.map x.onForm) st' f) := by
  have hform := h.doForm P base hx hins hf hxreach hc
  rw [show x.onForm f = f by rw [Redeclared.onForm, if_neg hleaf]] at hform
  unfold Surface.overlay
  dsimp only
  rw [h.xresults]
  split
  · split
    · exact hform
    · next res hres =>
      by_cases hinit : f.head = "init"
      · simpa [hinit, isStatistic] using hform
      · have hc' := initsCover_keeps hc hleaf hinit
        split
        · refine ⟨declared, pending, hc', ?_⟩
          unfold xcount
          split
          · exact (h.print _).done
          · exact h.xfail _
        · split
          · exact ⟨declared, pending, hc', h.xexpect f _ res⟩
          · split
            · refine ⟨declared, pending, hc', ?_⟩
              exact h.withOk fun limit => (h.print _).printWords hread _
            · split
              · refine ⟨declared, pending, hc', ?_⟩
                unfold xgetWitness
                dsimp only
                split
                · exact ((h.print _).print _).done
                · exact (h.print _).printWords hread _
              · split
                · exact ⟨declared, pending, hc', (h.print _).done⟩
                · exact hform
  · exact hform

end SimSession

/-- No query on a result is a leaf. -/
theorem overlay_leaf {E : Engines (Decls × Q)} {fs : List Datum} {f : Datum}
    (hleaf : f.head = "leaf") : overlay E fs st f = doForm E st f := by
  unfold overlay
  dsimp only
  split
  · split
    · rfl
    · simp [hleaf, isStatistic]
  · rfl

/-- The commands that ask for the domains themselves. -/
def asksDomains (f : Datum) : Bool :=
  ["xdomains", "print-spec", "cegar", "certcheck"].contains f.head

theorem route_sim (hread : ReadsSame x forms) {f : Datum} {fs : List Datum} (hx : x.InRange)
    (hins : x.Insensitive forms) (hf : f ∈ forms) (hask : asksDomains f = false)
    (h : SimSession x forms declared pending st st') (hc : InitsCover (f :: fs) declared pending) :
    ∃ declared' pending', InitsCover fs declared' pending' ∧
      AnswerSim (SimSession x forms declared' pending') (route (P.engines base) forms st f)
        (route (P.engines base) (forms.map x.onForm) st' (x.onForm f)) := by
  simp only [asksDomains, List.contains_cons, List.contains_nil, Bool.or_false,
    Bool.or_eq_false_iff, beq_eq_false_iff_ne] at hask
  obtain ⟨hxd, hps, hcg, hcc⟩ := hask
  have hempty : (x.onForm f).items.isEmpty = f.items.isEmpty := by
    unfold Redeclared.onForm
    split
    · next hleaf =>
      split
      · cases hi : f.items with
        | nil =>
          rw [Datum.head, hi] at hleaf
          simp at hleaf
        | cons a as => rfl
      · rfl
    · rfl
  unfold route
  rw [hempty, onForm_head]
  split
  · next he =>
    refine h.doForm P base hx hins hf ?_ hc
    intro hxr
    rw [Datum.head, List.isEmpty_iff.mp he] at hxr
    simp at hxr
  · split
    · next hxr =>
      have hleaf : f.head ≠ "leaf" := by simp [hxr]
      rw [show x.onForm f = f by rw [Redeclared.onForm, if_neg hleaf]]
      exact ⟨declared, pending, initsCover_keeps hc hleaf (by simp [hxr]),
          h.doXreach P base hread f⟩
    · next hxr =>
      split
      · next hct =>
        have hleaf : f.head ≠ "leaf" := by simp [hct]
        rw [show x.onForm f = f by rw [Redeclared.onForm, if_neg hleaf]]
        exact ⟨declared, pending, initsCover_keeps hc hleaf (by simp [hct]),
          h.doCertificate P base f⟩
      · by_cases hleaf : f.head = "leaf"
        · rw [overlay_leaf hleaf, overlay_leaf ((onForm_head x f).trans hleaf)]
          exact h.doForm P base hx hins hf hxr hc
        · rw [show x.onForm f = f by rw [Redeclared.onForm, if_neg hleaf]]
          exact h.overlay P base hread hx hins hf hxr hleaf hc

theorem routeAll_sim (hread : ReadsSame x forms) (hx : x.InRange) (hins : x.Insensitive forms)
    (hask : ∀ f ∈ forms, asksDomains f = false) : ∀ {fs : List Datum}
    {declared pending : List String} {st st' : Session (Decls × Q)}, (∀ f ∈ fs, f ∈ forms) →
    SimSession x forms declared pending st st' → InitsCover fs declared pending →
    AnswerSim (fun st st' => ∃ declared pending, SimSession x forms declared pending st st')
      (routeAll (P.engines base) forms fs st)
      (routeAll (P.engines base) (forms.map x.onForm) (fs.map x.onForm) st') := by
  intro fs
  induction fs with
  | nil => exact fun _ h _ => ⟨h.out, rfl, fun _ => ⟨_, _, h⟩⟩
  | cons f fs ih =>
    intro declared pending st st' hfs h hc
    have hf := hfs f List.mem_cons_self
    obtain ⟨declared', pending', hc', hsim⟩ :=
      route_sim P base hread hx hins hf (hask f hf) h hc
    rw [List.map_cons, routeAll, routeAll]
    cases hr : route (P.engines base) forms st f with
    | mk st₁ e =>
      cases hr' : route (P.engines base) (forms.map x.onForm) st' (x.onForm f) with
      | mk st₁' e' =>
        rw [hr, hr'] at hsim
        have he : e' = e := hsim.thrown
        subst he
        cases e' with
        | some e => exact ⟨hsim.out, rfl, fun he => by cases he⟩
        | none => exact ih (fun g hg => hfs g (List.mem_cons_of_mem _ hg)) (hsim.state rfl) hc'

end Run

/-! ## The pass -/

/-- Nothing in the forms depends on what the pass declares: no directive and no command
that asks for the domains, and the changed leaves listed wherever a default is read. -/
structure Redeclared.Unread (x : Redeclared) (forms : List Datum) : Prop where
  insensitive : x.Insensitive forms
  plain : ∀ f ∈ forms, isDirective f = false ∧ asksDomains f = false
  seeds : ∀ s, Spec.read forms = .ok s → ∀ a ∈ s.leaves, a.1 ∈ x.changed forms →
    a.2.pos ∈ s.initPairs.map Prod.fst

/-- The pass leaves every form as it is. -/
def Redeclared.Idle (x : Redeclared) (forms : List Datum) : Prop := ∀ f ∈ forms, x.onForm f = f

/-- The analysis finds nothing to declare, or nothing depends on the domains it finds. -/
def DomainsUnread (R : ExprIds) (fuel : Nat) (forms : List Datum) : Prop :=
  ∀ units, analyzeDomains R fuel forms = .ok (some units) →
    (Redeclared.ofUnits (arrayCellsOf forms) units).Idle forms ∨
      (Redeclared.ofUnits (arrayCellsOf forms) units).Unread forms

theorem onForm_of_empty {x : Redeclared} (hf : x.fresh = []) (ht : x.tighter = []) (f : Datum) :
    x.onForm f = f := by
  unfold Redeclared.onForm Redeclared.boundsOf
  rw [hf, ht]
  simp

/-- The pass maps the forms, also where it changes nothing. -/
theorem declareDomains_eq {R : ExprIds} {fuel : Nat} {forms : List Datum} {r : Rewritten}
    (h : declareDomains R fuel forms = .ok (some r)) :
    ∃ units, analyzeDomains R fuel forms = .ok (some units) ∧
      r.forms = forms.map (Redeclared.ofUnits (arrayCellsOf forms) units).onForm := by
  unfold declareDomains at h
  obtain ⟨a, ha, h⟩ := bind_eq_ok.mp h
  cases a with
  | none => cases h
  | some units =>
    refine ⟨units, ha, ?_⟩
    dsimp only at h
    split at h
    · next hempty =>
      cases h
      have hsame := onForm_of_empty (List.isEmpty_iff.mp hempty.1) (List.isEmpty_iff.mp hempty.2)
      rw [List.map_congr_left fun f _ => hsame f, List.map_id']
    · cases h
      rfl

/-- A translator that keeps no query. -/
def noQueries : Queries Unit where
  event _ _ _ := ((), "", none)
  other _ _ _ _ := ((), "", none)
  seeded _ := false
  bindWord _ _ _ := ()
  bindBox _ name _ := ((), name ++ " full\n")
  failures _ := 0
  hasResult _ _ := false
  wordsOf _ _ _ := none

/-- The seeds of the forms, and what a run of them prints. -/
def seedsAndOutput (forms : List Datum) : Option (List Xpl.Word) × String :=
  ((Spec.read forms >>= fun s => s.seeds silent.ids).toOption, (outcome (noQueries.engines silent)
      (feed (noQueries.engines silent) (.start (.empty, ()) []) forms)).1)

/-- A counter from 0 down to -3, over a bare leaf that no `init` lists. -/
def countdownForms : List Datum :=
  [.list [word "leaf", word "x"] 1, .list [word "shape", word "x"] 1,
   .list [word "event", word "down", .list [word "when", .list [word ">", word "x", word "-3"] 1] 1,
     .list [word "do", .list [word "-=", word "x", word "1"] 1] 1] 1,
   xreachForm]

/-- A counter from 0 up to 3 over a bare leaf: its least value is the default. -/
def countupForms : List Datum :=
  [.list [word "leaf", word "x"] 1, .list [word "shape", word "x"] 1,
   .list [word "event", word "up", .list [word "when", .list [word "<", word "x", word "3"] 1] 1,
     .list [word "do", .list [word "+=", word "x", word "1"] 1] 1] 1,
   xreachForm]

end LibHSC.Surface
