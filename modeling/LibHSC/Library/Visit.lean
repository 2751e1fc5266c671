import Mathlib.Data.Set.Insert

/-!
Visiting the nodes of an acyclic graph once each. A walk marks a node before its children, so
a marked node is either done or still under way; the walk below a node never meets one that is
under way. `Q k t` says that the state has all there is to collect below node `k`.
-/

namespace Visit

variable {K T : Type}

/-- What the walks below share: what holds of every state, when a state is a later one, which
nodes are marked, which are done. A later state has no less. -/
structure Walk (K T : Type) where
  wf : T → Prop
  le : T → T → Prop
  seen : T → K → Prop
  Q : K → T → Prop
  refl : ∀ t, le t t
  trans : ∀ {t t' t''}, le t t' → le t' t'' → le t t''
  keeps : ∀ {k t t'}, le t t' → Q k t → Q k t'

variable {W : Walk K T} {under : Set K} {A : Type}

/-- Every marked node that is not under way is done. -/
def Done (W : Walk K T) (under : Set K) (t : T) : Prop := ∀ k, W.seen t k → k ∉ under → W.Q k t

/-- A property of states that later states keep. -/
def Kept (W : Walk K T) (R : T → Prop) : Prop := ∀ t t', W.le t t' → R t → R t'

/-- What an action makes of a state. -/
structure Step (W : Walk K T) (under : Set K) (R : T → Prop) (t t' : T) : Prop where
  wf : W.wf t'
  done : Done W under t'
  brings : R t'
  later : W.le t t'

/-- The action undoes nothing, leaves done what it marks, and brings `R`. -/
def Does (W : Walk K T) (under : Set K) (R : T → Prop) (f : T → T) : Prop :=
  ∀ t, W.wf t → Done W under t → Step W under R t (f t)

theorem kept_Q (k : K) : Kept W (W.Q k) := fun _ _ => W.keeps

theorem does_id {R : T → Prop} (h : ∀ t, R t) : Does W under R id :=
  fun t hwf ht => ⟨hwf, ht, h t, W.refl t⟩

theorem Does.mono {R R' : T → Prop} {f : T → T} (h : Does W under R f) (hR : ∀ t, R t → R' t) :
    Does W under R' f := by
  intro t hwf ht
  have hf := h t hwf ht
  exact { hf with brings := hR _ hf.brings }

/-- One after the other. -/
theorem Does.comp {R R' : T → Prop} {f g : T → T} (hf : Does W under R f)
    (hg : Does W under R' g) (hR : Kept W R) :
    Does W under (fun t => R t ∧ R' t) fun t => g (f t) := by
  intro t hwf ht
  have h := hf t hwf ht
  have h' := hg _ h.wf h.done
  exact ⟨h'.wf, h'.done, ⟨hR _ _ h'.later h.brings, h'.brings⟩, W.trans h.later h'.later⟩

/-- A loop. -/
theorem does_foldl {R : A → T → Prop} {f : T → A → T} (hR : ∀ a, Kept W (R a)) :
    ∀ as : List A, (∀ a ∈ as, Does W under (R a) fun t => f t a) →
      Does W under (fun t => ∀ a ∈ as, R a t) fun t => as.foldl f t := by
  intro as
  induction as with
  | nil => exact fun _ => does_id fun _ _ ha => nomatch ha
  | cons a as ih =>
    intro h
    have hcomp := (h a List.mem_cons_self).comp
      (ih fun b hb => h b (List.mem_cons_of_mem a hb)) (hR a)
    exact hcomp.mono fun t ht => List.forall_mem_cons.mpr ht

/-- A visit: nothing for a marked node, else the mark and then the children, under which the
node itself is under way. -/
theorem does_visit {k : K} {f : T → T} (mark body : T → T) (hk : k ∉ under)
    (hseen : ∀ t, W.seen t k → f t = t) (hnew : ∀ t, ¬ W.seen t k → f t = body (mark t))
    (hmark : ∀ t k', W.seen (mark t) k' → k' = k ∨ W.seen t k') (hle : ∀ t, W.le t (mark t))
    (hwf : ∀ t, W.wf t → W.wf (mark t)) (hbody : Does W (insert k under) (W.Q k) body) :
    Does W under (W.Q k) f := by
  intro t ht hdone
  by_cases hs : W.seen t k
  · rw [hseen t hs]
    exact ⟨ht, hdone, hdone k hs hk, W.refl t⟩
  · rw [hnew t hs]
    have hstart : Done W (insert k under) (mark t) := by
      intro k' hk' hnot
      rcases hmark t k' hk' with rfl | hk'
      · exact absurd (Set.mem_insert _ _) hnot
      · exact W.keeps (hle t) (hdone k' hk' fun h => hnot (Set.mem_insert_of_mem _ h))
    have h := hbody _ (hwf t ht) hstart
    refine ⟨h.wf, fun k' hk' hnot => ?_, h.brings, W.trans (hle t) h.later⟩
    by_cases heq : k' = k
    · exact heq ▸ h.brings
    · exact h.done k' hk' fun hin => (Set.mem_insert_iff.mp hin).elim heq hnot

end Visit
