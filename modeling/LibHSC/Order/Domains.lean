import LibHSC.Library.Visit
import LibHSC.Places

/-!
The domain of every frontier position, read off a diagram: the union of the primes met there.
The position travels down the walk, and a node is visited once at each position. Only primes
are read, so a leaf that is the tail of a pair leaves no trace, and a pair whose head is the
unit sort has no span to look up.
-/

namespace LibHSC

namespace Shape

/-- The map of spans has entries for leaves and pairs. -/
def span : Shape → Option Nat
  | .unit => none
  | .leaf => some 1
  | .pair h t => some (h.width + t.width)

/-- No pair has the unit sort as its head. -/
def noUnitHead : Shape → Bool
  | .unit => true
  | .leaf => true
  | .pair h t => decide (h ≠ .unit) && h.noUnitHead && t.noUnitHead

/-- Every leaf is the head of a pair. -/
def headed : Shape → Bool
  | .unit => true
  | .leaf => false
  | .pair h t => (decide (h = .leaf) || h.headed) && t.headed

theorem span_eq {h : Shape} (hu : h ≠ .unit) : h.span = some h.width := by
  cases h with
  | unit => exact absurd rfl hu
  | leaf => rfl
  | pair _ _ => rfl

end Shape

namespace Order

/-! ## The walk -/

/-- The domains found so far and the nodes visited, with their positions. -/
structure DomainState where
  dom : Nat → IntSet
  seen : List Nat

def DomainState.record (st : DomainState) (first : Nat) (u : IntSet) : DomainState :=
  ⟨Function.update st.dom first
    (if st.dom first = [] then u else IntSet.join (st.dom first) u), st.seen⟩

def DomainState.mark (st : DomainState) (key : Nat) : DomainState := ⟨st.dom, key :: st.seen⟩

/-- A leaf in head position is recorded, another head is visited. -/
def visitHead : (h : Shape) → (Code h → Nat → Option DomainState → Option DomainState) →
    Code h → Nat → Option DomainState → Option DomainState
  | .leaf, _ => fun u first st => st.map fun st => st.record first u
  | .unit, visit => visit
  | .pair _ _, visit => visit

section Node

variable {C D : Type} (head : C → Nat → Option DomainState → Option DomainState)
  (tail : D → Nat → Option DomainState → Option DomainState)

def visitArcs (hw first : Nat) (c : List (Arc C D)) (st : Option DomainState) :
    Option DomainState :=
  c.foldl (fun st a => tail a.sub (first + hw) (head a.prime first st)) st

/-- A lookup that fails leaves the whole walk. -/
def visitNode (key : Nat) (span : Option Nat) (c : List (Arc C D)) (first : Nat)
    (st : Option DomainState) : Option DomainState :=
  st.bind fun st =>
    if c = [] ∨ key ∈ st.seen then some st
    else span.bind fun hw => visitArcs head tail hw first c (some (st.mark key))

end Node

def visitDomains (ids : NodeIds) :
    (s : Shape) → Code s → Nat → Option DomainState → Option DomainState
  | .unit, _, _, st => st
  | .leaf, _, _, st => st
  | .pair h t, c, first, st =>
    visitNode (visitHead h (visitDomains ids h)) (visitDomains ids t)
      (ids.placeKey (⟨.pair h t, c⟩, first)) h.span c first st

/-- The cardinal of the domain of every position, or nothing when a lookup failed. -/
def leafDomains (ids : NodeIds) (s : Shape) (c : Code s) : Option (List Nat) :=
  (visitDomains ids s c 0 (some ⟨fun _ => [], []⟩)).map fun st =>
    (List.range s.width).map fun p => if st.dom p = [] then 0 else IntSet.cardinal (st.dom p)

/-! ## What the walk records -/

def recordedLeaf (u : IntSet) (first p : Nat) : Set Int := {v | p = first ∧ v ∈ u}

def recordedHead : (h : Shape) → (Code h → Nat → Nat → Set Int) → Code h → Nat → Nat → Set Int
  | .leaf, _ => recordedLeaf
  | .unit, recorded => recorded
  | .pair _ _, recorded => recorded

def recordedArcs {C D : Type} (head : C → Nat → Nat → Set Int) (tail : D → Nat → Nat → Set Int)
    (hw : Nat) (c : List (Arc C D)) (first p : Nat) : Set Int :=
  {v | ∃ a ∈ c, v ∈ head a.prime first p ∨ v ∈ tail a.sub (first + hw) p}

/-- The values recorded for position `p` by the walk of a code that sits at `first`. -/
def recorded : (s : Shape) → Code s → Nat → Nat → Set Int
  | .unit, _, _, _ => ∅
  | .leaf, _, _, _ => ∅
  | .pair h t, c, first, p =>
    recordedArcs (recordedHead h (recorded h)) (recorded t) h.width c first p

/-- The values that position `p` takes in the words of a code that sits at `first`. -/
def valuesAt (s : Shape) (c : Code s) (first p : Nat) : Set Int :=
  {v | ∃ w ∈ den s c, first ≤ p ∧ (frontier s w)[p - first]? = some v}

theorem mem_recorded_pair {h t : Shape} {c : List (Arc (Code h) (Code t))} {first p : Nat}
    {v : Int} : v ∈ recorded (.pair h t) c first p ↔ ∃ a ∈ c,
      v ∈ recordedHead h (recorded h) a.prime first p ∨
        v ∈ recorded t a.sub (first + h.width) p := Iff.rfl

theorem recordedHead_range {h : Shape} (hh : ∀ c first p v, v ∈ recorded h c first p →
    first ≤ p ∧ p < first + h.width) {c : Code h} {first p : Nat} {v : Int}
    (hv : v ∈ recordedHead h (recorded h) c first p) : first ≤ p ∧ p < first + h.width := by
  cases h with
  | unit => exact hh c first p v hv
  | leaf =>
    obtain ⟨rfl, -⟩ := hv
    exact ⟨Nat.le_refl _, Nat.lt_succ_self _⟩
  | pair _ _ => exact hh c first p v hv

theorem recorded_range : {s : Shape} → {c : Code s} → {first p : Nat} → {v : Int} →
    v ∈ recorded s c first p → first ≤ p ∧ p < first + s.width
  | .unit, _, _, _, _, hv => nomatch hv
  | .leaf, _, _, _, _, hv => nomatch hv
  | .pair h t, c, first, p, v, hv => by
    rw [Shape.width]
    obtain ⟨a, -, hv | hv⟩ := hv
    · have := recordedHead_range (fun _ _ _ _ => recorded_range) hv
      omega
    · have := recorded_range hv
      omega

/-- A leaf that is no head of a pair is never recorded. -/
theorem exists_unrecorded : (s : Shape) → s.headed = false →
    ∃ i < s.width, ∀ c first, recorded s c first (first + i) = ∅
  | .unit, h => nomatch h
  | .leaf, _ => ⟨0, Nat.one_pos, fun _ _ => rfl⟩
  | .pair h t, hbad => by
    have hcases : (h ≠ .leaf ∧ h.headed = false) ∨ t.headed = false := by
      simp only [Shape.headed, Bool.and_eq_false_iff, Bool.or_eq_false_iff,
        decide_eq_false_iff_not] at hbad
      exact hbad
    rcases hcases with ⟨hleaf, hh⟩ | ht
    · obtain ⟨i, hi, hnone⟩ := exists_unrecorded h hh
      refine ⟨i, by rw [Shape.width]; omega, fun c first => ?_⟩
      refine Set.eq_empty_of_forall_notMem fun v hv => ?_
      obtain ⟨a, -, hv | hv⟩ := hv
      · have hv : v ∈ recorded h a.prime first (first + i) := by
          cases h with
          | leaf => exact absurd rfl hleaf
          | unit => exact hv
          | pair _ _ => exact hv
        rw [hnone] at hv
        exact hv
      · have := (recorded_range hv).1
        omega
    · obtain ⟨i, hi, hnone⟩ := exists_unrecorded t ht
      refine ⟨h.width + i, by rw [Shape.width]; omega, fun c first => ?_⟩
      refine Set.eq_empty_of_forall_notMem fun v hv => ?_
      obtain ⟨a, -, hv | hv⟩ := hv
      · have := (recordedHead_range (fun _ _ _ _ => recorded_range) hv).2
        omega
      · rw [← Nat.add_assoc, hnone] at hv
        exact hv

section Canonical

variable {N : Numbering}

theorem valuesAt_nonempty {s : Shape} {c : Code s} (hn : (den s c).Nonempty) {i : Nat}
    (hi : i < s.width) : (valuesAt s c 0 i).Nonempty := by
  obtain ⟨w, hw⟩ := hn
  have hlt : i < (frontier s w).length := frontier_length s w ▸ hi
  exact ⟨_, w, hw, Nat.zero_le i, List.getElem?_eq_getElem hlt⟩

theorem mem_valuesAt_pair {h t : Shape} {c : List (Arc (Code h) (Code t))}
    (hp : ∀ a ∈ c, (den h a.prime).Nonempty) (hs : ∀ a ∈ c, (den t a.sub).Nonempty)
    {first p : Nat} {v : Int} : v ∈ valuesAt (.pair h t) c first p ↔ ∃ a ∈ c,
      v ∈ valuesAt h a.prime first p ∨ v ∈ valuesAt t a.sub (first + h.width) p := by
  constructor
  · rintro ⟨w, hw, hle, hv⟩
    obtain ⟨a, ha, h1, h2⟩ := (mem_nodeDen (den h) (den t)).mp hw
    rw [frontier, List.getElem?_append, frontier_length] at hv
    split at hv
    · exact ⟨a, ha, .inl ⟨w.1, h1, hle, hv⟩⟩
    · refine ⟨a, ha, .inr ⟨w.2, h2, by omega, ?_⟩⟩
      rwa [Nat.sub_sub] at hv
  · rintro ⟨a, ha, ⟨u, hu, hle, hv⟩ | ⟨u, hu, hle, hv⟩⟩
    · obtain ⟨u', hu'⟩ := hs a ha
      refine ⟨(u, u'), (mem_nodeDen (den h) (den t)).mpr ⟨a, ha, hu, hu'⟩, hle, ?_⟩
      exact (List.getElem?_append_left (List.getElem?_eq_some_iff.mp hv).1).trans hv
    · obtain ⟨u', hu'⟩ := hp a ha
      refine ⟨(u', u), (mem_nodeDen (den h) (den t)).mpr ⟨a, ha, hu', hu⟩, by omega, ?_⟩
      have hlen := frontier_length h u'
      refine (List.getElem?_append_right (by rw [hlen]; omega)).trans ?_
      rw [hlen, Nat.sub_sub]
      exact hv

theorem recordedHead_eq {h : Shape} {c : Code h} {first p : Nat}
    (hh : h ≠ .leaf → recorded h c first p = valuesAt h c first p) :
    recordedHead h (recorded h) c first p = valuesAt h c first p := by
  cases h with
  | unit => exact hh nofun
  | pair _ _ => exact hh nofun
  | leaf =>
    ext v
    constructor
    · rintro ⟨rfl, hv⟩
      exact ⟨v, hv, Nat.le_refl _, by rw [Nat.sub_self]; rfl⟩
    · rintro ⟨w, hw, hle, hv⟩
      obtain ⟨hlt, rfl⟩ := List.getElem?_eq_some_iff.mp hv
      have hlt : p - first < 1 := hlt
      obtain rfl : p = first := by omega
      refine ⟨rfl, ?_⟩
      simp only [Nat.sub_self]
      exact hw

/-- When every leaf is a head, what is recorded is what the positions take. -/
theorem recorded_eq : (s : Shape) → s.headed = true → (c : Code s) → Canon N s c →
    ∀ first p, recorded s c first p = valuesAt s c first p
  | .unit, _, _, _, _, _ => by
    ext v
    constructor
    · exact fun hv => nomatch hv
    · rintro ⟨w, -, -, hv⟩
      cases hv
  | .leaf, h, _, _, _, _ => nomatch h
  | .pair h t, hhead, c, hc, first, p => by
    have hc : NodeCanon (algebra N h) (algebra N t) (den h) (Canon N h) (Canon N t) c := hc
    simp only [Shape.headed, Bool.and_eq_true, Bool.or_eq_true, decide_eq_true_eq] at hhead
    change List (Arc (Code h) (Code t)) at c
    have hp : ∀ a ∈ c, (den h a.prime).Nonempty := fun a ha =>
      (laws N h).nonempty_of_ne_none (hc.canon a ha).1 (hc.prime_ne a ha)
    have hs : ∀ a ∈ c, (den t a.sub).Nonempty := fun a ha =>
      (laws N t).nonempty_of_ne_none (hc.canon a ha).2 (hc.sub_ne a ha)
    ext v
    refine mem_recorded_pair.trans (Iff.trans ?_ (mem_valuesAt_pair hp hs).symm)
    refine exists_congr fun a => and_congr_right fun ha => ?_
    rw [recordedHead_eq fun hleaf => recorded_eq h (hhead.1.resolve_left hleaf) a.prime
      (hc.canon a ha).1 first p, recorded_eq t hhead.2 a.sub (hc.canon a ha).2]

end Canonical

/-! ## The walk is exact about what it records -/

section Walk

variable {N : Numbering} (ids : NodeIds) (bound : Nat → Set Int)

/-- A state holds nothing but what `bound` allows; a node is done when all it has to record is
there, and when no lookup below it can fail. A walk that has failed promises nothing. -/
def domainsWalk : Visit.Walk (NodeKey × Nat) (Option DomainState) where
  wf t := ∀ st, t = some st → ∀ p, IntSet.Canon (st.dom p) ∧ ∀ v ∈ st.dom p, v ∈ bound p
  le t t' := ∀ st', t' = some st' → ∃ st, t = some st ∧ ∀ p, ∀ v ∈ st.dom p, v ∈ st'.dom p
  seen t k := k.2 < 2 ^ 20 ∧ ∀ st, t = some st → ids.placeKey k ∈ st.seen
  Q k t := ∀ st, t = some st → k.1.1.noUnitHead = true ∧
    ∀ p, ∀ v ∈ recorded k.1.1 k.1.2 k.2 p, v ∈ st.dom p
  refl _ st' h := ⟨st', h, fun _ _ hv => hv⟩
  trans h h' st'' heq := by
    obtain ⟨st', heq', hsub'⟩ := h' st'' heq
    obtain ⟨st, heq, hsub⟩ := h st' heq'
    exact ⟨st, heq, fun p v hv => hsub' p v (hsub p v hv)⟩
  keeps h hq st' heq := by
    obtain ⟨st, heq', hsub⟩ := h st' heq
    obtain ⟨hspan, hall⟩ := hq st heq'
    exact ⟨hspan, fun p v hv => hsub p v (hall p v hv)⟩

variable {ids bound} {under : Set (NodeKey × Nat)}

/-- What a visit of a head brings. -/
def HeadDone (h : Shape) (prime : Code h) (first : Nat) (t : Option DomainState) : Prop :=
  ∀ st, t = some st → h.noUnitHead = true ∧
    ∀ p, ∀ v ∈ recordedHead h (recorded h) prime first p, v ∈ st.dom p

theorem mem_record {st : DomainState} {first : Nat} {u : IntSet} (hu : IntSet.Canon u)
    (hst : IntSet.Canon (st.dom first)) (p : Nat) (v : Int) :
    v ∈ (st.record first u).dom p ↔ v ∈ st.dom p ∨ (p = first ∧ v ∈ u) := by
  by_cases hp : p = first
  · subst hp
    simp only [DomainState.record, Function.update_self, true_and]
    split
    · next h => simp [h]
    · exact IntSet.mem_join hst hu v
  · simp [DomainState.record, hp]

theorem canon_record {st : DomainState} {first : Nat} {u : IntSet} (hu : IntSet.Canon u)
    (hst : ∀ p, IntSet.Canon (st.dom p)) (p : Nat) : IntSet.Canon ((st.record first u).dom p) := by
  by_cases hp : p = first
  · subst hp
    simp only [DomainState.record, Function.update_self]
    split
    · exact hu
    · exact IntSet.canon_join (hst p) hu
  · simpa [DomainState.record, hp] using hst p

theorem record_does {u : IntSet} {first : Nat} (hu : IntSet.Canon u)
    (hbound : ∀ v ∈ u, v ∈ bound first) :
    Visit.Does (domainsWalk ids bound) under (HeadDone .leaf u first)
      (fun t => t.map fun st => st.record first u) := by
  intro t hwf hdone
  cases t with
  | none =>
    exact ⟨nofun, fun k hk hnot => hdone k hk hnot, nofun, nofun⟩
  | some st =>
    have hst := hwf st rfl
    have hmem := fun p v => @mem_record st first u hu (hst first).1 p v
    refine ⟨?_, ?_, ?_, ?_⟩
    · rintro _ ⟨⟩ p
      refine ⟨canon_record hu (fun p => (hst p).1) p, fun v hv => ?_⟩
      rcases (hmem p v).mp hv with hold | ⟨rfl, hnew⟩
      · exact (hst p).2 v hold
      · exact hbound v hnew
    · rintro k ⟨hk, hseen⟩ hnot
      refine (domainsWalk ids bound).keeps (t := some st) ?_ (hdone k ⟨hk, ?_⟩ hnot)
      · rintro _ ⟨⟩
        exact ⟨st, rfl, fun p v hv => (hmem p v).mpr (.inl hv)⟩
      · rintro _ ⟨⟩
        exact hseen (st.record first u) rfl
    · rintro _ ⟨⟩
      exact ⟨rfl, fun p v hv => (hmem p v).mpr (.inr hv)⟩
    · rintro _ ⟨⟩
      exact ⟨st, rfl, fun p v hv => (hmem p v).mpr (.inl hv)⟩

theorem visitHead_does {h : Shape} {visit : Code h → Nat → Option DomainState → Option DomainState}
    {prime : Code h} {first : Nat} (hc : Canon N h prime)
    (hbound : ∀ p, recordedHead h (recorded h) prime first p ⊆ bound p)
    (hvisit : h ≠ .leaf → Visit.Does (domainsWalk ids bound) under
      ((domainsWalk ids bound).Q (⟨h, prime⟩, first)) (visit prime first)) :
    Visit.Does (domainsWalk ids bound) under (HeadDone h prime first)
      (visitHead h visit prime first) := by
  cases h with
  | unit => exact hvisit nofun
  | pair _ _ => exact hvisit nofun
  | leaf => exact record_does hc fun v hv => hbound first ⟨rfl, hv⟩

theorem kept_headDone (h : Shape) (prime : Code h) (first : Nat) :
    Visit.Kept (domainsWalk ids bound) (HeadDone h prime first) := by
  intro t t' hle hr st' heq
  obtain ⟨st, heq', hsub⟩ := hle st' heq
  obtain ⟨hspan, hall⟩ := hr st heq'
  exact ⟨hspan, fun p v hv => hsub p v (hall p v hv)⟩

/-- By induction on the sort: the nodes under way are larger than the one that is visited. -/
theorem visitDomains_does : (s : Shape) → (c : Code s) → Canon N s c → c ≠ (algebra N s).none →
    (first : Nat) → first + s.width < 2 ^ 20 → (∀ p, recorded s c first p ⊆ bound p) →
    (under : Set (NodeKey × Nat)) → (∀ k ∈ under, sizeOf s < sizeOf k.1.1) →
    Visit.Does (domainsWalk ids bound) under ((domainsWalk ids bound).Q (⟨s, c⟩, first))
      (visitDomains ids s c first)
  | .unit, _, _, _, _, _, _, _, _ => Visit.does_id fun _ _ _ => ⟨rfl, fun _ _ hv => nomatch hv⟩
  | .leaf, _, _, _, _, _, _, _, _ => Visit.does_id fun _ _ _ => ⟨rfl, fun _ _ hv => nomatch hv⟩
  | .pair h t, c, hc, hne, first, hsmall, hbound, under, hunder => by
    have hc : NodeCanon (algebra N h) (algebra N t) (den h) (Canon N h) (Canon N t) c := hc
    change List (Arc (Code h) (Code t)) at c
    have hne : c ≠ [] := hne
    rw [Shape.width] at hsmall
    have hsize : sizeOf (Shape.pair h t) = 1 + sizeOf h + sizeOf t := rfl
    have hdeeper : ∀ k ∈ insert ((⟨.pair h t, c⟩, first) : NodeKey × Nat) under,
        sizeOf h < sizeOf k.1.1 ∧ sizeOf t < sizeOf k.1.1 := by
      intro k hk
      rcases Set.mem_insert_iff.mp hk with rfl | hk
      · change sizeOf h < sizeOf (Shape.pair h t) ∧ sizeOf t < sizeOf (Shape.pair h t)
        omega
      · have := hunder k hk
        omega
    have hfresh : ((⟨.pair h t, c⟩, first) : NodeKey × Nat) ∉ under := fun hin =>
      Nat.lt_irrefl _ (hunder _ hin)
    refine Visit.does_visit
      (fun st => st.map fun st => st.mark (ids.placeKey (⟨.pair h t, c⟩, first)))
      (fun st => st.bind fun st => h.span.bind fun hw => visitArcs
        (visitHead h (visitDomains ids h)) (visitDomains ids t) hw first c (some st))
      hfresh ?_ ?_ ?_ ?_ ?_ ?_
    · rintro (_ | st) ⟨-, hseen⟩
      · rfl
      · exact if_pos (.inr (hseen st rfl))
    · rintro (_ | st) hnot
      · exact absurd ⟨by omega, nofun⟩ hnot
      · have hkey : ids.placeKey (⟨.pair h t, c⟩, first) ∉ st.seen := fun hin =>
          hnot ⟨by omega, by rintro _ ⟨⟩; exact hin⟩
        exact if_neg fun hor => hor.elim hne hkey
    · rintro (_ | st) k' ⟨hk', hseen⟩
      · exact .inr ⟨hk', nofun⟩
      · rcases List.mem_cons.mp (hseen _ rfl) with heq | hin
        · exact .inl (ids.placeKey_inj hk' (by omega) heq)
        · exact .inr ⟨hk', by rintro _ ⟨⟩; exact hin⟩
    · rintro (_ | st) _ ⟨⟩
      exact ⟨st, rfl, fun _ _ hv => hv⟩
    · rintro (_ | st) hwf _ ⟨⟩
      exact hwf st rfl
    · rintro (_ | st) hwf hdone
      · exact ⟨hwf, hdone, nofun, fun _ h => ⟨_, h, fun _ _ hv => hv⟩⟩
      · by_cases hu : h = .unit
        · subst hu
          exact ⟨nofun, fun _ _ _ => nofun, nofun, nofun⟩
        · have harcs : Visit.Does (domainsWalk ids bound)
              (insert ((⟨.pair h t, c⟩, first) : NodeKey × Nat) under)
              (fun st => ∀ a ∈ c, HeadDone h a.prime first st ∧
                (domainsWalk ids bound).Q (⟨t, a.sub⟩, first + h.width) st)
              (visitArcs (visitHead h (visitDomains ids h)) (visitDomains ids t) h.width
                first c) := by
            refine Visit.does_foldl (fun a t₁ t₂ hle hr => ⟨kept_headDone h a.prime first _ _ hle
              hr.1, Visit.kept_Q _ _ _ hle hr.2⟩) c fun a ha => ?_
            refine Visit.Does.comp ?_ ?_ (kept_headDone h a.prime first)
            · refine visitHead_does (hc.canon a ha).1
                (fun p v hv => hbound p ⟨a, ha, .inl hv⟩) fun hleaf => ?_
              refine visitDomains_does h a.prime (hc.canon a ha).1 (hc.prime_ne a ha) first
                (by omega) (fun p v hv => hbound p ⟨a, ha, .inl ?_⟩) _
                fun k hk => (hdeeper k hk).1
              cases h with
              | leaf => exact absurd rfl hleaf
              | unit => exact hv
              | pair _ _ => exact hv
            · exact visitDomains_does t a.sub (hc.canon a ha).2 (hc.sub_ne a ha) _ (by omega)
                (fun p v hv => hbound p ⟨a, ha, .inr hv⟩) _ fun k hk => (hdeeper k hk).2
          have hstep := harcs (some st) hwf hdone
          have hbody : (some st).bind (fun st => h.span.bind fun hw => visitArcs
              (visitHead h (visitDomains ids h)) (visitDomains ids t) hw first c (some st)) =
              visitArcs (visitHead h (visitDomains ids h)) (visitDomains ids t) h.width first c
                (some st) := by
            rw [Shape.span_eq hu]
            rfl
          refine Eq.mpr (congrArg (Visit.Step _ _ _ (some st)) hbody) ?_
          refine { hstep with brings := fun st' heq => ?_ }
          obtain ⟨a, ha⟩ := List.exists_mem_of_ne_nil c hne
          have hall := fun a ha => hstep.brings a ha
          refine ⟨?_, fun p v hv => ?_⟩
          · simp only [Shape.noUnitHead, Bool.and_eq_true, decide_eq_true_eq]
            exact ⟨⟨hu, ((hall a ha).1 st' heq).1⟩, ((hall a ha).2 st' heq).1⟩
          · obtain ⟨b, hb, hv | hv⟩ := mem_recorded_pair.mp hv
            · exact ((hall b hb).1 st' heq).2 p v hv
            · exact ((hall b hb).2 st' heq).2 p v hv

end Walk

/-! ## Every lookup succeeds -/

theorem visitArcs_isSome {C D : Type} {head : C → Nat → Option DomainState → Option DomainState}
    {tail : D → Nat → Option DomainState → Option DomainState}
    (hh : ∀ p first st, st.isSome → (head p first st).isSome)
    (ht : ∀ q first st, st.isSome → (tail q first st).isSome) (hw first : Nat)
    (c : List (Arc C D)) : ∀ st : Option DomainState, st.isSome →
      (visitArcs head tail hw first c st).isSome := by
  induction c with
  | nil => exact fun _ h => h
  | cons a c ih => exact fun st h => ih _ (ht _ _ _ (hh _ _ _ h))

theorem visitDomains_isSome (ids : NodeIds) : (s : Shape) → s.noUnitHead = true → ∀ (c : Code s)
    (first : Nat) (st : Option DomainState), st.isSome → (visitDomains ids s c first st).isSome
  | .unit, _, _, _, _, h => h
  | .leaf, _, _, _, _, h => h
  | .pair h t, hspan, c, first, st, hst => by
    simp only [Shape.noUnitHead, Bool.and_eq_true, decide_eq_true_eq] at hspan
    obtain ⟨st, rfl⟩ := Option.isSome_iff_exists.mp hst
    have hhead : ∀ p first st, st.isSome →
        (visitHead h (visitDomains ids h) p first st).isSome := by
      intro p first st hst
      cases h with
      | leaf => rwa [visitHead, Option.isSome_map]
      | unit => exact hst
      | pair _ _ => exact visitDomains_isSome ids _ hspan.1.2 p first st hst
    have hnode : ∀ c : List (Arc (Code h) (Code t)), (visitNode
        (visitHead h (visitDomains ids h)) (visitDomains ids t)
        (ids.placeKey (⟨.pair h t, c⟩, first)) h.span c first (some st)).isSome := by
      intro c
      simp only [visitNode, Option.bind_some, Shape.span_eq hspan.1.1]
      split
      · rfl
      · exact visitArcs_isSome hhead (visitDomains_isSome ids t hspan.2) _ _ _ _ rfl
    exact hnode c

section Exact

variable {N : Numbering} {s : Shape} {c : Code s}

/-- What a position takes over the words. -/
def positionValues (s : Shape) (c : Code s) (p : Nat) : Set Int :=
  {v | ∃ w ∈ den s c, (frontier s w)[p]? = some v}

theorem valuesAt_zero (s : Shape) (c : Code s) (p : Nat) :
    valuesAt s c 0 p = positionValues s c p := by
  ext v
  simp [valuesAt, positionValues]

theorem finite_positionValues (p : Nat) : (positionValues s c p).Finite := by
  have hset : positionValues s c p ⊆
      ↑((wordList s c).filterMap fun w => (frontier s w)[p]?).toFinset := by
    rintro v ⟨w, hw, hv⟩
    rw [List.coe_toFinset]
    exact List.mem_filterMap.mpr ⟨w, (mem_wordList s c w).mpr hw, hv⟩
  exact (Finset.finite_toSet _).subset hset

/-- The walk from the top: nothing fails only when no pair has the head unit, and each domain
is then what is recorded at its position. -/
theorem visitDomains_top {ids : NodeIds} (hc : Canon N s c) (hne : c ≠ (algebra N s).none)
    (hwidth : s.width < 2 ^ 20) {st : DomainState}
    (h : visitDomains ids s c 0 (some ⟨fun _ => [], []⟩) = some st) :
    s.noUnitHead = true ∧ ∀ p, IntSet.Canon (st.dom p) ∧
      ∀ v, v ∈ st.dom p ↔ v ∈ recorded s c 0 p := by
  have hdoes := @visitDomains_does N ids (recorded s c 0) s c hc hne 0 (by omega)
    (fun _ => subset_rfl) ∅ nofun
  have hstart : (domainsWalk ids (recorded s c 0)).wf (some ⟨fun _ => [], []⟩) := by
    rintro _ ⟨⟩ p
    exact ⟨IntSet.canon_nil, nofun⟩
  have hstep := hdoes _ hstart fun k hk _ => absurd (hk.2 _ rfl) (List.not_mem_nil)
  have hwf := hstep.wf st h
  obtain ⟨hspan, hall⟩ := hstep.brings st h
  exact ⟨hspan, fun p => ⟨(hwf p).1, fun v => ⟨(hwf p).2 v, hall p v⟩⟩⟩

/-- The domains are exact exactly when every leaf is the head of a pair and no pair has the
unit sort as its head. -/
theorem leafDomains_exact_iff (ids : NodeIds) (hc : Canon N s c) (hne : c ≠ (algebra N s).none)
    (hwidth : s.width < 2 ^ 20) :
    leafDomains ids s c = some ((List.range s.width).map fun p => (positionValues s c p).ncard) ↔
      (s.headed = true ∧ s.noUnitHead = true) := by
  constructor
  · intro h
    obtain ⟨st, hst, hlist⟩ := Option.map_eq_some_iff.mp h
    obtain ⟨hspan, hdom⟩ := visitDomains_top hc hne hwidth hst
    refine ⟨?_, hspan⟩
    by_contra hbad
    obtain ⟨i, hi, hnone⟩ := exists_unrecorded s (Bool.eq_false_iff.mpr hbad)
    have hcard := List.map_inj_left.mp hlist i (List.mem_range.mpr hi)
    have hempty : st.dom i = [] := by
      refine List.eq_nil_iff_forall_not_mem.mpr fun v hv => ?_
      have hv := (hdom i).2 v |>.mp hv
      rw [← Nat.zero_add i, hnone] at hv
      exact hv
    rw [if_pos hempty] at hcard
    have hsome := valuesAt_nonempty ((laws N s).nonempty_of_ne_none hc hne) hi
    rw [valuesAt_zero] at hsome
    have := (Set.ncard_pos (finite_positionValues i)).mpr hsome
    omega
  · rintro ⟨hhead, hspan⟩
    obtain ⟨st, hst⟩ := Option.isSome_iff_exists.mp
      (visitDomains_isSome ids s hspan c 0 (some ⟨fun _ => [], []⟩) rfl)
    obtain ⟨-, hdom⟩ := visitDomains_top hc hne hwidth hst
    rw [leafDomains, hst, Option.map_some]
    refine congrArg some (List.map_congr_left fun p _ => ?_)
    have hset : positionValues s c p = ↑(st.dom p).toFinset := by
      ext v
      rw [← valuesAt_zero, ← recorded_eq s hhead c hc, ← (hdom p).2 v]
      simp
    have hnodup : (st.dom p).Nodup := (hdom p).1.1.imp fun hlt => Int.ne_of_lt hlt
    rw [hset, Set.ncard_coe_finset, List.toFinset_card_of_nodup hnodup]
    split
    · next hnil => rw [hnil]; rfl
    · rfl

end Exact

end Order

end LibHSC
