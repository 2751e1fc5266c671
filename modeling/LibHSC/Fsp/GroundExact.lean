import LibHSC.Fsp.Operational
import Mathlib.Data.List.Perm.Subperm

/-!
Grounding gives the operational LTS. Every number stands for a configuration, an edge is
added for a step of its source, and a state is queued until every step of it has an edge;
the states inside a chain are settled before the walk leaves them.

A named state has its arguments in the declared ranges, so there are finitely many, and
each is queued once: the loop ends.
-/

namespace LibHSC.Fsp

/-! ## Edges and states -/

theorem edge_cons {k a : GLabel} {es : List (Int × Int)} {rel : List (GLabel × List (Int × Int))}
    {s t : Int} : Edge ((k, es) :: rel) a s t ↔ (a = k ∧ (s, t) ∈ es) ∨ Edge rel a s t := by
  constructor
  · rintro ⟨es', hmem, he⟩
    rcases List.mem_cons.mp hmem with heq | hmem
    · cases heq
      exact .inl ⟨rfl, he⟩
    · exact .inr ⟨es', hmem, he⟩
  · rintro (⟨rfl, he⟩ | ⟨es', hmem, he⟩)
    · exact ⟨es, List.mem_cons_self, he⟩
    · exact ⟨es', List.mem_cons_of_mem _ hmem, he⟩

theorem edge_relInsert {l a : GLabel} {e : Int × Int} {s t : Int} :
    ∀ rel : List (GLabel × List (Int × Int)),
      Edge (relInsert l e rel) a s t ↔ Edge rel a s t ∨ a = l ∧ (s, t) = e
  | [] => by
    rw [relInsert, edge_cons, List.mem_singleton]
    exact or_comm
  | (k, es) :: rest => by
    rw [relInsert]
    split
    · next hk =>
      rw [edge_cons, edge_cons, List.mem_append, List.mem_singleton, hk]
      tauto
    · split
      · rw [edge_cons, List.mem_singleton]
        exact or_comm
      · rw [edge_cons, edge_cons, edge_relInsert rest, or_assoc]

theorem relInsert_fires (l : GLabel) (e : Int × Int) :
    ∀ {rel : List (GLabel × List (Int × Int))}, (∀ x ∈ rel, x.2 ≠ []) →
      ∀ x ∈ relInsert l e rel, x.2 ≠ []
  | [], _, x, hx => by
    rw [List.mem_singleton.mp hx]
    exact List.cons_ne_nil _ _
  | (k, es) :: rest, h, x, hx => by
    obtain ⟨hes, hrest⟩ := List.forall_mem_cons.mp h
    rw [relInsert] at hx
    split at hx
    · rcases List.mem_cons.mp hx with rfl | hx
      · exact List.append_ne_nil_of_right_ne_nil _ (List.cons_ne_nil _ _)
      · exact hrest x hx
    · split at hx
      · rcases List.mem_cons.mp hx with rfl | hx
        · exact List.cons_ne_nil _ _
        · exact h x hx
      · rcases List.mem_cons.mp hx with rfl | hx
        · exact hes
        · exact relInsert_fires l e hrest x hx

theorem stateAt_nat (conf : List Config) (n : Nat) : stateAt conf n = conf[n]? := by
  rw [stateAt, if_neg (by omega), if_neg (by omega), Int.toNat_natCast]

theorem stateAt_extends {conf conf' : List Config} (h : conf <+: conf') {t : Int} {c : Config}
    (hc : stateAt conf t = some c) : stateAt conf' t = some c := by
  unfold stateAt at hc ⊢
  split
  · next ht => rwa [if_pos ht] at hc
  · next ht =>
    rw [if_neg ht] at hc
    split
    · next ht => rw [if_pos ht] at hc; exact hc
    · next ht =>
      rw [if_neg ht] at hc
      exact getElem?_extends h hc

/-! ## References -/

section References

variable {consts : Env} {ranges : Ranges} {p : Process}

theorem Refers.unique {r : StateRef} {env : Env} {i j : Nat} {d e : StateDef}
    {args args' : List Int} (h : Refers p r env i d args) (h' : Refers p r env j e args') :
    i = j ∧ d = e ∧ args = args' := by
  cases h.index.symm.trans h'.index
  cases h.state.symm.trans h'.state
  cases h.given.symm.trans h'.given
  exact ⟨rfl, rfl, rfl⟩

theorem IsInitial.unique {c c' : Config} (h : IsInitial consts ranges p c)
    (h' : IsInitial consts ranges p c') : c = c' := by
  cases h with
  | start hr =>
    cases h' with
    | start => rfl
    | named hr' => rw [hr] at hr'; cases hr'
  | named hr href =>
    cases h' with
    | start hr' => rw [hr] at hr'; cases hr'
    | named hr' href' =>
      cases hr.symm.trans hr'
      obtain ⟨rfl, -, rfl⟩ := href.unique href'
      rfl

/-- A target leads to one configuration. -/
theorem Resolves.unique {r : StateRef} {env : Env} {c c' : Config}
    (h : Resolves consts ranges p r env c) (h' : Resolves consts ranges p r env c') : c = c' := by
  cases h with
  | error he =>
    cases h' with
    | error => rfl
    | outside => rfl
    | named he' => rw [he] at he'; cases he'
    | self he' => rw [he] at he'; cases he'
  | outside he href hout =>
    cases h' with
    | error => rfl
    | outside => rfl
    | named _ href' hin =>
      obtain ⟨-, rfl, rfl⟩ := href.unique href'
      rw [hout] at hin
      cases hin
    | self _ hnone => rw [href.index] at hnone; cases hnone
  | named he href hin =>
    cases h' with
    | error he' => rw [he] at he'; cases he'
    | outside _ href' hout =>
      obtain ⟨-, rfl, rfl⟩ := href.unique href'
      rw [hin] at hout
      cases hout
    | named _ href' =>
      obtain ⟨rfl, -, rfl⟩ := href.unique href'
      rfl
    | self _ hnone => rw [href.index] at hnone; cases hnone
  | self he hnone _ _ hc =>
    cases h' with
    | error he' => rw [he] at he'; cases he'
    | outside _ href => rw [href.index] at hnone; cases hnone
    | named _ href => rw [href.index] at hnone; cases hnone
    | self _ _ _ _ hc' => exact hc.unique hc'

end References

/-! ## The named states -/

section Domain

variable {ranges : Ranges}

/-- The line of a reference only names its errors. -/
theorem applyUnary_line {op : String} {a v : Int} {l : Int} (l' : Int)
    (h : applyUnary op a l = .ok v) : applyUnary op a l' = .ok v := by
  unfold applyUnary at h ⊢
  refine ite_le id (ite_le id ?_) h
  exact fun h => nomatch h

theorem divide_line {op : String} {a b v : Int} {l : Int} (l' : Int)
    (h : divide op a b l = .ok v) : divide op a b l' = .ok v := by
  unfold divide at h ⊢
  refine ite_le ?_ id h
  exact fun h => nomatch h

theorem applyBinary_line {op : String} {a b v : Int} {l : Int} (l' : Int)
    (h : applyBinary op a b l = .ok v) : applyBinary op a b l' = .ok v := by
  refine ite_le id (ite_le id (ite_le id (ite_le (divide_line l') ?_))) h
  iterate 8 refine ite_le id ?_
  exact fun h => nomatch h

theorem eval_line (env : Env) {l : Int} (l' : Int) :
    ∀ (e : Expr) {v : Int}, eval e env l = .ok v → eval e env l' = .ok v
  | .integer n, v, h => by rwa [eval] at h ⊢
  | .name n, v, h => by
    rw [eval] at h ⊢
    split at h
    · cases h
    · exact h
  | .unary op a, v, h => by
    rw [eval] at h ⊢
    exact bind_le (fun x hx => eval_line env l' a hx) (fun x => applyUnary_line l') h
  | .binary op a b, v, h => by
    rw [eval] at h ⊢
    have hb : ∀ y, eval b env l = .ok y → eval b env l' = .ok y :=
      fun y hy => eval_line env l' b hy
    refine bind_le (fun x hx => eval_line env l' a hx) (fun x => ?_) h
    exact ite_le (ite_le id (bind_le hb fun _ => id))
      (ite_le (ite_le id (bind_le hb fun _ => id)) (bind_le hb fun y => applyBinary_line l'))

theorem bounds_line (env : Env) {l : Int} (l' : Int) (r : Rng) {b : Int × Int}
    (h : bounds ranges r env l = .ok b) : bounds ranges r env l' = .ok b := by
  cases r with
  | named n =>
    rw [bounds] at h ⊢
    split at h
    · cases h
    · exact h
  | inline lo hi =>
    rw [bounds] at h ⊢
    exact bind_le (fun y hy => eval_line env l' lo hy)
      (fun x => bind_le (fun y hy => eval_line env l' hi hy) fun y hy => hy) h

/-- The argument argTuples in the ranges of the parameters. -/
def argTuples (ranges : Ranges) : List (String × Rng) → Env → List (List Int)
  | [], _ => [[]]
  | (v, r) :: params, env =>
    match bounds ranges r env 0 with
    | .error _ => []
    | .ok b => (intRange b.1 b.2).flatMap fun x =>
      (argTuples ranges params ((v, x) :: env)).map fun xs => x :: xs

theorem mem_argTuples {line : Int} : ∀ {params : List (String × Rng)} {args : List Int} {env : Env},
    args.length = params.length → inBoundsFrom ranges line params args env = .ok true →
    args ∈ argTuples ranges params env
  | [], [], _, _, _ => List.mem_singleton.mpr rfl
  | (v, r) :: params, a :: args, env, hlen, h => by
    rw [inBoundsFrom] at h
    obtain ⟨b, hb, h⟩ := bind_eq_ok.mp h
    split at h
    · cases h
    · next hin =>
      rw [argTuples, bounds_line env 0 r hb]
      refine List.mem_flatMap.mpr ⟨a, mem_intRange.mpr (by omega), ?_⟩
      exact List.mem_map.mpr ⟨args, mem_argTuples (Nat.succ.inj hlen) h, rfl⟩

/-- The named states within the declared ranges. -/
def domain (consts : Env) (ranges : Ranges) (p : Process) : List (Nat × List Int) :=
  p.states.zipIdx.flatMap fun x => (argTuples ranges x.1.params consts).map fun args => (x.2, args)

theorem mem_domain {consts : Env} {p : Process} {i : Nat} {d : StateDef} {args : List Int}
    {line : Int} (hd : p.states[i]? = some d) (hlen : args.length = d.params.length)
    (h : inBounds consts ranges d args line = .ok true) : (i, args) ∈ domain consts ranges p :=
  List.mem_flatMap.mpr ⟨(d, i), List.mem_zipIdx_iff_getElem?.mpr hd,
    List.mem_map.mpr ⟨args, mem_argTuples hlen h, rfl⟩⟩

end Domain

/-! ## The invariant -/

/-- The named state of a configuration. -/
def Config.meaning : Config → Option (Nat × List Int)
  | .named i args => some (i, args)
  | _ => none

section Invariant

variable (consts : Env) (ranges : Ranges) (p : Process)

/-- The numbers are those of the configurations, a named state has one, and the queue holds
named states. -/
structure Numbered (conf : List Config) (g : Grounder) : Prop where
  size : g.size = conf.length
  means : g.meaning = conf.map Config.meaning
  ids : ∀ (k : Nat) (args : List Int) (i : Nat),
    g.ids.lookup (k, args) = some i ↔ conf[i]? = some (.named k args)
  unique : (g.ids.map Prod.fst).Nodup
  inside : ∀ x ∈ g.ids, x.1 ∈ domain consts ranges p
  queued : ∀ i ∈ g.queue, ∃ k args, conf[i]? = some (.named k args)
  plain : g.out.tau = [] ∧ g.out.alphabet = []

/-- The edges are steps, and every state but the first was entered from an earlier one. -/
structure Founded (conf : List Config) (rel : List (GLabel × List (Int × Int))) : Prop where
  proper : Config.error ∉ conf
  initial : ∃ c, conf[0]? = some c ∧ IsInitial consts ranges p c
  edges : ∀ a s t, Edge rel a s t → ∃ (i : Nat) (c c' : Config), s = i ∧ conf[i]? = some c ∧
    stateAt conf t = some c' ∧ Moves consts ranges p c a c'
  entered : ∀ i, 0 < i → i < conf.length → ∃ a, ∃ j < i, Edge rel a j i
  fires : ∀ x ∈ rel, x.2 ≠ []

structure Sound (conf : List Config) (g : Grounder) : Prop where
  numbered : Numbered consts ranges p conf g
  founded : Founded consts ranges p conf g.out.rel

/-- What a walk keeps: states, edges and the queue; a named state that is new is queued. -/
structure Grows (conf : List Config) (g : Grounder) (conf' : List Config) (g' : Grounder) :
    Prop where
  conf : conf <+: conf'
  edges : ∀ a s t, Edge g.out.rel a s t → Edge g'.out.rel a s t
  queue : ∀ i ∈ g.queue, i ∈ g'.queue
  count : g'.queue.length + g.ids.length = g.queue.length + g'.ids.length

/-- Every step of the state has its edge. -/
def Complete (conf : List Config) (g : Grounder) (i : Nat) : Prop :=
  ∀ c, conf[i]? = some c → ∀ a c', Moves consts ranges p c a c' →
    ∃ t, stateAt conf t = some c' ∧ Edge g.out.rel a i t

/-- From number `n` on, every state is complete or in the queue. -/
def Finished (n : Nat) (conf : List Config) (g : Grounder) : Prop :=
  ∀ i, n ≤ i → i < conf.length → i ∈ g.queue ∨ Complete consts ranges p conf g i

/-- A part of the walk: what it adds is settled. -/
structure Advances (conf : List Config) (g : Grounder) (conf' : List Config) (g' : Grounder) :
    Prop where
  sound : Sound consts ranges p conf' g'
  grows : Grows conf g conf' g'
  settled : Finished consts ranges p conf.length conf' g'

/-- Every step along the chain has its edge. -/
def Covers (conf : List Config) (g : Grounder) (src : Nat) (target : StateRef)
    (labels : List LabelPattern) (env : Env) : Prop :=
  ∀ a c', Takes consts ranges p target labels env a c' →
    ∃ t, stateAt conf t = some c' ∧ Edge g.out.rel a src t

/-- Every configuration behind a ground label has its edge. -/
def Arrives (conf : List Config) (g : Grounder) (src : Nat) (target : StateRef)
    (rest : List LabelPattern) (x : GLabel × Env) : Prop :=
  ∀ c', Continues consts ranges p target rest x.2 c' →
    ∃ t, stateAt conf t = some c' ∧ Edge g.out.rel x.1 src t

end Invariant

section Walk

variable {consts : Env} {ranges : Ranges} {p : Process} {conf conf' conf'' : List Config}
  {g g' g'' : Grounder}

theorem Grows.refl : Grows conf g conf g := ⟨List.prefix_rfl, fun _ _ _ h => h, fun _ h => h, rfl⟩

theorem Grows.trans (h : Grows conf g conf' g') (h' : Grows conf' g' conf'' g'') :
    Grows conf g conf'' g'' where
  conf := h.conf.trans h'.conf
  edges a s t he := h'.edges a s t (h.edges a s t he)
  queue i hi := h'.queue i (h.queue i hi)
  count := by
    have := h.count
    have := h'.count
    omega

theorem Grows.target (h : Grows conf g conf' g') {a : GLabel} {s : Int} {c : Config}
    (ht : ∃ t, stateAt conf t = some c ∧ Edge g.out.rel a s t) :
    ∃ t, stateAt conf' t = some c ∧ Edge g'.out.rel a s t := by
  obtain ⟨t, hc, he⟩ := ht
  exact ⟨t, stateAt_extends h.conf hc, h.edges a s t he⟩

theorem Complete.mono {i : Nat} (hi : i < conf.length) (h : Complete consts ranges p conf g i)
    (hg : Grows conf g conf' g') : Complete consts ranges p conf' g' i := by
  intro c hc a c' hmove
  have hold : conf[i]? = some conf[i] := List.getElem?_eq_getElem hi
  cases (getElem?_extends hg.conf hold).symm.trans hc
  exact hg.target (h _ hold a c' hmove)

theorem Covers.mono {src : Nat} {target : StateRef} {labels : List LabelPattern} {env : Env}
    (h : Covers consts ranges p conf g src target labels env) (hg : Grows conf g conf' g') :
    Covers consts ranges p conf' g' src target labels env :=
  fun a c' ht => hg.target (h a c' ht)

theorem Arrives.mono {src : Nat} {target : StateRef} {rest : List LabelPattern}
    {x : GLabel × Env} (h : Arrives consts ranges p conf g src target rest x)
    (hg : Grows conf g conf' g') : Arrives consts ranges p conf' g' src target rest x :=
  fun c' hc => hg.target (h c' hc)

theorem Finished.mono {n : Nat} (h : Finished consts ranges p n conf g)
    (hg : Grows conf g conf' g') (hnew : Finished consts ranges p conf.length conf' g') :
    Finished consts ranges p n conf' g' := by
  intro i hn hi
  by_cases hold : i < conf.length
  · rcases h i hn hold with hq | hc
    · exact .inl (hg.queue i hq)
    · exact .inr (hc.mono hold hg)
  · exact hnew i (Nat.le_of_not_lt hold) hi

theorem Advances.refl (h : Sound consts ranges p conf g) : Advances consts ranges p conf g conf g :=
  ⟨h, .refl, fun _ hn hi => absurd hi (Nat.not_lt_of_le hn)⟩

theorem Advances.trans (h : Advances consts ranges p conf g conf' g')
    (h' : Advances consts ranges p conf' g' conf'' g'') :
    Advances consts ranges p conf g conf'' g'' :=
  ⟨h'.sound, h.grows.trans h'.grows, h.settled.mono h'.grows h'.settled⟩

/-- A loop of advances: what each turn establishes and growth keeps holds at the end. -/
theorem foldlM_advances {X : Type} {f : Grounder → X → Except Stop Grounder}
    {Q : X → List Config → Grounder → Prop} {B : List Config}
    (hmono : ∀ x {conf g conf' g'}, Q x conf g → Grows conf g conf' g' → Q x conf' g') :
    ∀ (xs : List X) {conf : List Config} {g g' : Grounder},
      (∀ x ∈ xs, ∀ {conf g g'}, Sound consts ranges p conf g → B <+: conf → f g x = .ok g' →
        ∃ conf', Advances consts ranges p conf g conf' g' ∧ Q x conf' g') →
      Sound consts ranges p conf g → B <+: conf → xs.foldlM f g = .ok g' →
      ∃ conf', Advances consts ranges p conf g conf' g' ∧ ∀ x ∈ xs, Q x conf' g'
  | [], conf, g, g', _, hs, _, h => by
    cases h
    exact ⟨conf, .refl hs, fun _ hx => nomatch hx⟩
  | x :: xs, conf, g, g', hstep, hs, hb, h => by
    rw [List.foldlM_cons] at h
    obtain ⟨g1, h1, h⟩ := bind_eq_ok.mp h
    obtain ⟨conf1, ha1, hq1⟩ := hstep x List.mem_cons_self hs hb h1
    obtain ⟨conf2, ha2, hq2⟩ := foldlM_advances hmono xs
      (fun y hy => hstep y (List.mem_cons_of_mem _ hy)) ha1.sound (hb.trans ha1.grows.conf) h
    refine ⟨conf2, ha1.trans ha2, List.forall_mem_cons.mpr ⟨?_, hq2⟩⟩
    exact hmono x hq1 ha2.grows

/-! ## One edge -/

theorem lookup_ids (x y : Nat × List Int) (n : Nat) (ids : List ((Nat × List Int) × Nat)) :
    ((x, n) :: ids).lookup y = if y = x then some n else ids.lookup y := by
  rw [List.lookup_cons]
  by_cases h : y = x
  · simp [h]
  · have hb : (y == x) = false := by simpa using h
    rw [hb, if_neg h]

theorem Numbered.addEdge (h : Numbered consts ranges p conf g) (a : GLabel) (e : Int × Int) :
    Numbered consts ranges p conf (g.addEdge a e) :=
  ⟨h.size, h.means, h.ids, h.unique, h.inside, h.queued, h.plain⟩

/-- An anonymous state is numbered. -/
theorem Numbered.newState (h : Numbered consts ranges p conf g) {c : Config}
    (hc : c.meaning = none) (name : String) :
    Numbered consts ranges p (conf ++ [c]) (g.newState name) where
  size := by
    have := h.size
    simp only [Grounder.size, Grounder.newState, List.length_append] at this ⊢
    rw [this]
    rfl
  means := by
    rw [Grounder.newState, List.map_append, ← h.means]
    simp [hc]
  ids k args i := by
    rw [getElem?_snoc_eq_some]
    refine (h.ids k args i).trans ⟨.inl, ?_⟩
    rintro (hi | ⟨-, rfl⟩)
    · exact hi
    · cases hc
  unique := h.unique
  inside := h.inside
  queued i hi := by
    obtain ⟨k, args, hk⟩ := h.queued i hi
    exact ⟨k, args, getElem?_snoc_eq_some.mpr (.inl hk)⟩
  plain := h.plain

/-- A named state first met is numbered. -/
theorem Numbered.enter (h : Numbered consts ranges p conf g) {k : Nat} {d : StateDef}
    {args : List Int} (hnew : g.ids.lookup (k, args) = none)
    (hin : (k, args) ∈ domain consts ranges p) :
    Numbered consts ranges p (conf ++ [.named k args]) (g.enter k d args).1 := by
  have hsize := h.size
  rw [Grounder.enter, hnew]
  refine ⟨?_, ?_, fun k' args' i => ?_, ?_, ?_, fun i hi => ?_, h.plain⟩
  · simp only [Grounder.size, List.length_append] at hsize ⊢
    rw [hsize]
    rfl
  · rw [List.map_append, ← h.means]
    rfl
  · rw [lookup_ids, getElem?_snoc_eq_some]
    split
    · next heq =>
      cases heq
      rw [← hsize]
      constructor
      · intro hi
        cases hi
        exact .inr ⟨rfl, rfl⟩
      · rintro (hi | ⟨rfl, -⟩)
        · rw [(h.ids _ _ i).mpr hi] at hnew
          cases hnew
        · rfl
    · next hne =>
      refine (h.ids k' args' i).trans ⟨.inl, ?_⟩
      rintro (hi | ⟨-, heq⟩)
      · exact hi
      · cases heq
        exact absurd rfl hne
  · rw [List.map_cons, List.nodup_cons]
    refine ⟨fun hmem => ?_, h.unique⟩
    obtain ⟨x, hx, heq⟩ := List.mem_map.mp hmem
    exact (bne_iff_ne.mp (List.lookup_eq_none_iff.mp hnew x hx)) heq.symm
  · exact List.forall_mem_cons.mpr ⟨hin, h.inside⟩
  · rcases List.mem_append.mp hi with hi | hi
    · obtain ⟨k', args', hk⟩ := h.queued i hi
      exact ⟨k', args', getElem?_snoc_eq_some.mpr (.inl hk)⟩
    · rw [List.mem_singleton.mp hi, hsize]
      exact ⟨k, args, List.getElem?_concat_length⟩

/-- An edge between two states. -/
theorem Founded.edge {rel : List (GLabel × List (Int × Int))}
    (h : Founded consts ranges p conf rel) {i : Nat} {t : Int} {a : GLabel} {c c' : Config}
    (hi : conf[i]? = some c) (ht : stateAt conf t = some c') (hm : Moves consts ranges p c a c') :
    Founded consts ranges p conf (relInsert a (i, t) rel) where
  proper := h.proper
  initial := h.initial
  edges b s u he := by
    rcases (edge_relInsert rel).mp he with he | ⟨rfl, heq⟩
    · exact h.edges b s u he
    · cases heq
      exact ⟨i, c, c', rfl, hi, ht, hm⟩
  entered j h0 hj := by
    obtain ⟨b, k, hk, he⟩ := h.entered j h0 hj
    exact ⟨b, k, hk, (edge_relInsert rel).mpr (.inl he)⟩
  fires := relInsert_fires a _ h.fires

/-- An edge to a new state. -/
theorem Founded.snoc {rel : List (GLabel × List (Int × Int))}
    (h : Founded consts ranges p conf rel) {i : Nat} {a : GLabel} {c c' : Config}
    (hi : conf[i]? = some c) (hc' : c' ≠ .error) (hm : Moves consts ranges p c a c') :
    Founded consts ranges p (conf ++ [c']) (relInsert a (i, conf.length) rel) := by
  have hpre : conf <+: conf ++ [c'] := List.prefix_append _ _
  have hnew : stateAt (conf ++ [c']) conf.length = some c' := by
    rw [stateAt_nat]
    exact List.getElem?_concat_length
  refine ⟨?_, ?_, fun b s u he => ?_, fun j h0 hj => ?_, relInsert_fires a _ h.fires⟩
  · rw [List.mem_append, List.mem_singleton]
    exact not_or.mpr ⟨h.proper, fun heq => hc' heq.symm⟩
  · obtain ⟨c0, h0, hc0⟩ := h.initial
    exact ⟨c0, getElem?_extends hpre h0, hc0⟩
  · rcases (edge_relInsert rel).mp he with he | ⟨rfl, heq⟩
    · obtain ⟨j, c1, c2, hs, hj, hu, hm⟩ := h.edges b s u he
      exact ⟨j, c1, c2, hs, getElem?_extends hpre hj, stateAt_extends hpre hu, hm⟩
    · cases heq
      exact ⟨i, c, c', rfl, getElem?_extends hpre hi, hnew, hm⟩
  · rw [List.length_append, List.length_singleton] at hj
    by_cases hold : j < conf.length
    · obtain ⟨b, k, hk, he⟩ := h.entered j h0 hold
      exact ⟨b, k, hk, (edge_relInsert rel).mpr (.inl he)⟩
    · have hj : j = conf.length := by omega
      subst hj
      exact ⟨a, i, (List.getElem?_eq_some_iff.mp hi).1, (edge_relInsert rel).mpr (.inr ⟨rfl, rfl⟩)⟩

end Walk

/-! ## The walk -/

section Walk

variable {consts : Env} {ranges : Ranges} {p : Process}

theorem intern_ok {g : Grounder} {k : Nat} {d : StateDef} {args : List Int} {line : Int}
    {r : Grounder × Int} (h : intern consts ranges k d args line g = .ok r) :
    args.length = d.params.length ∧ inBounds consts ranges d args line = .ok true ∧
      r = g.enter k d args := by
  unfold intern at h
  simp only at h
  split at h
  · cases h
  · next hlen =>
    obtain ⟨b, hb, h⟩ := bind_eq_ok.mp h
    cases b with
    | false => cases h
    | true =>
      cases h
      exact ⟨not_not.mp hlen, hb, rfl⟩

theorem enter_cases {conf : List Config} {g g' : Grounder} {t : Int} {r : StateRef} {env : Env}
    {k : Nat} {d : StateDef} {args : List Int} (hs : Sound consts ranges p conf g)
    (herr : r.isError = false) (hk : defIndex p r.name = some k) (hd : p.states[k]? = some d)
    (hargs : evalAll env r.line r.args = .ok args)
    (h : intern consts ranges k d args r.line g = .ok (g', t)) :
    (g' = g ∧ ∃ c, stateAt conf t = some c ∧ Resolves consts ranges p r env c) ∨
      ∃ k d args, g.ids.lookup (k, args) = none ∧ (k, args) ∈ domain consts ranges p ∧
        g' = (g.enter k d args).1 ∧ t = conf.length ∧
        Resolves consts ranges p r env (.named k args) := by
  obtain ⟨hlen, hin, heq⟩ := intern_ok h
  have hres : Resolves consts ranges p r env (.named k args) :=
    .named herr ⟨hk, hd, hargs, hlen⟩ hin
  cases hl : g.ids.lookup (k, args) with
  | some n =>
    rw [Grounder.enter, hl] at heq
    cases heq
    refine .inl ⟨rfl, _, ?_, hres⟩
    rw [stateAt_nat]
    exact (hs.numbered.ids k args n).mp hl
  | none =>
    refine .inr ⟨k, d, args, hl, mem_domain hd hlen hin, congrArg Prod.fst heq, ?_, hres⟩
    rw [← hs.numbered.size, show t = (g.enter k d args).2 from congrArg Prod.snd heq,
      Grounder.enter, hl]

/-- The target is a state numbered before, or ERROR, or a named state first met. -/
theorem resolveTarget_cases {conf : List Config} {g g' : Grounder} {t : Int} {r : StateRef}
    {env : Env} (hs : Sound consts ranges p conf g)
    (h : resolveTarget consts ranges p r env g = .ok (g', t)) :
    (g' = g ∧ ∃ c, stateAt conf t = some c ∧ Resolves consts ranges p r env c) ∨
      ∃ k d args, g.ids.lookup (k, args) = none ∧ (k, args) ∈ domain consts ranges p ∧
        g' = (g.enter k d args).1 ∧ t = conf.length ∧
        Resolves consts ranges p r env (.named k args) := by
  unfold resolveTarget at h
  split at h
  · next herr =>
    cases h
    exact .inl ⟨rfl, .error, rfl, .error herr⟩
  · next herr =>
    have herr : r.isError = false := by simpa using herr
    split at h
    · next k hk =>
      split at h
      · cases h
      · next d hd =>
        obtain ⟨args, hargs, h⟩ := bind_eq_ok.mp h
        simp only at h
        split at h
        · next hlen =>
          obtain ⟨b, hb, h⟩ := bind_eq_ok.mp h
          cases b with
          | false =>
            cases h
            exact .inl ⟨rfl, .error, rfl, .outside herr ⟨hk, hd, hargs, hlen⟩ hb⟩
          | true => exact enter_cases hs herr hk hd hargs h
        · exact enter_cases hs herr hk hd hargs h
    · next hnone =>
      split at h
      · next hself =>
        cases h
        obtain ⟨c, h0, hc⟩ := hs.founded.initial
        refine .inl ⟨rfl, c, ?_, .self herr hnone hself.1 hself.2 hc⟩
        rw [← h0]
        exact stateAt_nat conf 0
      · cases h

variable {conf conf' : List Config} {g g' : Grounder} {src : Nat} {c : Config}

/-- An edge to a state numbered before. -/
theorem Sound.edge (hs : Sound consts ranges p conf g) {t : Int} {a : GLabel} {c' : Config}
    (hsrc : conf[src]? = some c) (ht : stateAt conf t = some c')
    (hm : Moves consts ranges p c a c') :
    Advances consts ranges p conf g conf (g.addEdge a (src, t)) where
  sound := ⟨hs.numbered.addEdge a _, hs.founded.edge hsrc ht hm⟩
  grows := ⟨List.prefix_rfl, fun _ _ _ he => (edge_relInsert _).mpr (.inl he), fun _ h => h, rfl⟩
  settled _ hn hi := absurd hi (Nat.not_lt_of_le hn)

/-- An edge to a named state first met, which waits in the queue. -/
theorem Sound.enter (hs : Sound consts ranges p conf g) {a : GLabel} {k : Nat} {d : StateDef}
    {args : List Int} (hsrc : conf[src]? = some c) (hnew : g.ids.lookup (k, args) = none)
    (hin : (k, args) ∈ domain consts ranges p) (hm : Moves consts ranges p c a (.named k args)) :
    Advances consts ranges p conf g (conf ++ [.named k args])
      ((g.enter k d args).1.addEdge a (src, conf.length)) := by
  have hnum := (hs.numbered.enter (d := d) hnew hin).addEdge a (src, conf.length)
  have hne : Config.named k args ≠ .error := fun h => nomatch h
  have hfound := hs.founded.snoc hsrc hne hm
  have hsize := hs.numbered.size
  rw [Grounder.enter, hnew] at hnum ⊢
  refine ⟨⟨hnum, hfound⟩, ⟨List.prefix_append _ _, fun b s u he => ?_, fun i hi => ?_, ?_⟩,
    fun i hn hi => .inl ?_⟩
  · exact (edge_relInsert _).mpr (.inl he)
  · exact List.mem_append_left _ hi
  · simp only [Grounder.addEdge, List.length_append, List.length_cons, List.length_nil]
    omega
  · rw [List.length_append, List.length_singleton] at hi
    have hi : i = g.size := by omega
    exact List.mem_append_right _ (List.mem_singleton.mpr hi)

/-- An edge to a fresh anonymous state. -/
theorem Sound.newState (hs : Sound consts ranges p conf g) {a : GLabel} {c' : Config}
    (hsrc : conf[src]? = some c) (hnone : c'.meaning = none) (hne : c' ≠ .error)
    (hm : Moves consts ranges p c a c') (name : String) :
    Sound consts ranges p (conf ++ [c']) ((g.newState name).addEdge a (src, conf.length)) ∧
      Grows conf g (conf ++ [c']) ((g.newState name).addEdge a (src, conf.length)) := by
  refine ⟨⟨(hs.numbered.newState hnone name).addEdge a _, hs.founded.snoc hsrc hne hm⟩,
    ⟨List.prefix_append _ _, fun b s u he => ?_, fun _ h => h, rfl⟩⟩
  exact (edge_relInsert _).mpr (.inl he)

/-- The chain from a label on is walked in full: the state it starts from gets the edges of
the chain, and what is new is settled. -/
theorem expandChain_spec (target : StateRef) : ∀ (labels : List LabelPattern) (pos : Nat)
    {src : Nat} {env : Env} {conf : List Config} {g g' : Grounder} {c : Config},
    Sound consts ranges p conf g → conf[src]? = some c →
    (∀ a c', Takes consts ranges p target labels env a c' → Moves consts ranges p c a c') →
    expandChain consts ranges p target labels pos src env g = .ok g' →
    ∃ conf', Advances consts ranges p conf g conf' g' ∧
      Covers consts ranges p conf' g' src target labels env
  | [], pos, src, env, conf, g, g', c, hs, hsrc, hm, h => by
    rw [expandChain] at h
    cases h
    exact ⟨conf, .refl hs, fun _ _ ht => nomatch ht⟩
  | label :: rest, pos, src, env, conf, g, g', c, hs, hsrc, hm, h => by
    rw [expandChain] at h
    obtain ⟨grounds, hgrounds, h⟩ := bind_eq_ok.mp h
    have hlabel := mem_expandPattern hgrounds
    have hloop := fun hturn => foldlM_advances (B := conf)
      (Q := fun x conf g => Arrives consts ranges p conf g src target rest x)
      (fun _ {_ _ _ _} hQ hg => hQ.mono hg) grounds hturn hs List.prefix_rfl h
    refine (hloop ?_).elim fun conf' hend => ?_
    · intro x hx conf1 g1 g2 hs1 hpre hstep
      have hsrc1 := getElem?_extends hpre hsrc
      have hmoves : ∀ c', Continues consts ranges p target rest x.2 c' →
          Moves consts ranges p c x.1 c' :=
        fun c' hc' => hm x.1 c' (.label ((hlabel _ _).mp hx) hc')
      split at hstep
      · next hrest =>
        subst hrest
        obtain ⟨⟨g3, t⟩, hres, hstep⟩ := bind_eq_ok.mp hstep
        cases hstep
        rcases resolveTarget_cases hs1 hres with
          ⟨rfl, c1, ht, hc1⟩ | ⟨k, d, args, hnew, hin, rfl, rfl, hc1⟩
        · refine ⟨conf1, hs1.edge hsrc1 ht (hmoves c1 (.target hc1)), fun c' hc' => ?_⟩
          cases hc' with
          | target hc' =>
            rw [hc'.unique hc1]
            exact ⟨t, ht, (edge_relInsert _).mpr (.inr ⟨rfl, rfl⟩)⟩
        · refine ⟨_, hs1.enter hsrc1 hnew hin (hmoves _ (.target hc1)), fun c' hc' => ?_⟩
          cases hc' with
          | target hc' =>
            rw [hc'.unique hc1]
            refine ⟨conf1.length, ?_, (edge_relInsert _).mpr (.inr ⟨rfl, rfl⟩)⟩
            rw [stateAt_nat]
            exact List.getElem?_concat_length
      · next hrest =>
        have hsize := hs1.numbered.size
        have hc' : Continues consts ranges p target rest x.2 (.chain rest target x.2) := by
          cases rest with
          | nil => exact absurd rfl hrest
          | cons => exact .chain
        rw [hsize] at hstep
        have hne : Config.chain rest target x.2 ≠ .error := fun h => nomatch h
        obtain ⟨hs2, hg2⟩ := hs1.newState hsrc1 rfl hne (hmoves _ hc')
          (g1.out.stateNames.getD src "" ++ "@" ++ toString (pos + 1))
        have hnew : (conf1 ++ [.chain rest target x.2])[conf1.length]? =
            some (.chain rest target x.2) := List.getElem?_concat_length
        obtain ⟨conf2, hadv2, hcov⟩ := expandChain_spec target rest (pos + 1) hs2 hnew
          (fun a c' ht => .chain ht) hstep
        have hpre2 := hadv2.grows.conf
        refine ⟨conf2, ⟨hadv2.sound, hg2.trans hadv2.grows, fun i hn hi => ?_⟩, fun c'' hc'' => ?_⟩
        · by_cases hi' : i = conf1.length
          · -- the fresh state: what moves it is the rest of the chain
            subst hi'
            refine .inr fun c1 hc1 a c2 hm2 => ?_
            cases (getElem?_extends hpre2 hnew).symm.trans hc1
            cases hm2 with
            | branch hopen => cases hopen
            | chain ht => exact hcov a c2 ht
          · refine hadv2.settled i ?_ hi
            rw [List.length_append, List.length_singleton]
            omega
        · cases hc'' with
          | target => exact absurd rfl hrest
          | chain =>
            refine (hadv2.grows).target ⟨conf1.length, ?_, (edge_relInsert _).mpr (.inr ⟨rfl, rfl⟩)⟩
            rw [stateAt_nat]
            exact hnew
    · obtain ⟨hadv, hall⟩ := hend
      refine ⟨conf', hadv, fun a c' ht => ?_⟩
      cases ht with
      | label hl hc => exact hall _ ((hlabel _ _).mpr hl) c' hc

theorem expandBranch_spec {body : List Branch} {b : Branch} {env : Env}
    (hs : Sound consts ranges p conf g) (hsrc : conf[src]? = some c)
    (hopen : Opens consts p c body env) (hb : b ∈ body)
    (h : expandBranch consts ranges p src env g b = .ok g') :
    ∃ conf', Advances consts ranges p conf g conf' g' ∧
      (b.Enabled env → Covers consts ranges p conf' g' src b.target b.labels env) := by
  unfold expandBranch at h
  split at h
  · next hguard =>
    have hen : b.Enabled env := fun e he => by rw [hguard] at he; cases he
    obtain ⟨conf', hadv, hcov⟩ := expandChain_spec b.target b.labels 0 hs hsrc
      (fun a c' ht => .branch hopen hb hen ht) h
    exact ⟨conf', hadv, fun _ => hcov⟩
  · next e hguard =>
    obtain ⟨v, hv, h⟩ := bind_eq_ok.mp h
    split at h
    · next hzero =>
      cases h
      refine ⟨conf, .refl hs, fun hen => ?_⟩
      obtain ⟨w, hw, hne⟩ := hen e hguard
      cases hv.symm.trans hw
      exact absurd hzero hne
    · next hne =>
      have hen : b.Enabled env := by
        intro e' he'
        cases hguard.symm.trans he'
        exact ⟨v, hv, hne⟩
      obtain ⟨conf', hadv, hcov⟩ := expandChain_spec b.target b.labels 0 hs hsrc
        (fun a c' ht => .branch hopen hb hen ht) h
      exact ⟨conf', hadv, fun _ => hcov⟩

theorem Opens.unique {body body' : List Branch} {env env' : Env}
    (h : Opens consts p c body env) (h' : Opens consts p c body' env') :
    body = body' ∧ env = env' := by
  cases h with
  | start =>
    cases h'
    exact ⟨rfl, rfl⟩
  | named hd =>
    cases h' with
    | named hd' =>
      cases hd.symm.trans hd'
      exact ⟨rfl, rfl⟩

/-- A body expanded in full: its state is complete. -/
theorem expandBody_spec {body : List Branch} {env : Env} (hs : Sound consts ranges p conf g)
    (hsrc : conf[src]? = some c) (hopen : Opens consts p c body env)
    (h : expandBody consts ranges p src body env g = .ok g') :
    ∃ conf', Advances consts ranges p conf g conf' g' ∧ Complete consts ranges p conf' g' src := by
  have hloop := fun hturn => foldlM_advances (B := conf)
    (Q := fun (b : Branch) conf g => b.Enabled env →
      Covers consts ranges p conf g src b.target b.labels env)
    (fun _ {_ _ _ _} hQ hg hen => (hQ hen).mono hg) body hturn hs List.prefix_rfl h
  refine (hloop ?_).elim fun conf' hend => ?_
  · intro b hb conf1 g1 g2 hs1 hpre hstep
    exact expandBranch_spec hs1 (getElem?_extends hpre hsrc) hopen hb hstep
  · obtain ⟨hadv, hall⟩ := hend
    refine ⟨conf', hadv, fun c1 hc1 a c' hm => ?_⟩
    cases (getElem?_extends hadv.grows.conf hsrc).symm.trans hc1
    cases hm with
    | branch hopen' hb hen ht =>
      obtain ⟨rfl, rfl⟩ := hopen.unique hopen'
      exact hall _ hb hen a c' ht
    | chain => cases hopen

theorem exists_state_of_mem_domain {x : Nat × List Int} (h : x ∈ domain consts ranges p) :
    ∃ d, p.states[x.1]? = some d := by
  obtain ⟨⟨d, i⟩, hd, hx⟩ := List.mem_flatMap.mp h
  obtain ⟨args, -, rfl⟩ := List.mem_map.mp hx
  exact ⟨d, List.mem_zipIdx_iff_getElem?.mp hd⟩

theorem Numbered.state (h : Numbered consts ranges p conf g) {i k : Nat} {args : List Int}
    (hi : conf[i]? = some (.named k args)) : ∃ d, p.states[k]? = some d := by
  have hl := (h.ids k args i).mpr hi
  obtain ⟨l, l', heq, -⟩ := List.lookup_eq_some_iff.mp hl
  refine exists_state_of_mem_domain (h.inside ((k, args), i) ?_)
  rw [heq]
  exact List.mem_append_right _ List.mem_cons_self

/-- One turn of the loop completes its state. -/
theorem turn_spec {k : Nat} {args : List Int} (hs : Sound consts ranges p conf g)
    (hsrc : conf[src]? = some (.named k args)) (h : turn consts ranges p src g = .ok g') :
    ∃ conf', Advances consts ranges p conf g conf' g' ∧ Complete consts ranges p conf' g' src := by
  obtain ⟨d, hd⟩ := hs.numbered.state hsrc
  have hmeaning : g.meaning[src]? = some (some (k, args)) := by
    rw [hs.numbered.means, List.getElem?_map, hsrc]
    rfl
  unfold turn at h
  simp only [hmeaning, hd] at h
  exact expandBody_spec hs hsrc (.named hd) h

theorem Numbered.ids_le (h : Numbered consts ranges p conf g) :
    g.ids.length ≤ (domain consts ranges p).length := by
  have hsub : g.ids.map Prod.fst ⊆ domain consts ranges p := by
    intro x hx
    obtain ⟨y, hy, rfl⟩ := List.mem_map.mp hx
    exact h.inside y hy
  have := (List.subperm_of_subset h.unique hsub).length_le
  rwa [List.length_map] at this

/-- The loop ends within one turn for every named state, with every state complete. -/
theorem runQueue_spec : ∀ (fuel : Nat) {conf : List Config} {g : Grounder},
    Sound consts ranges p conf g → Finished consts ranges p 0 conf g →
    g.queue.length + ((domain consts ranges p).length - g.ids.length) < fuel →
    ∃ r, runQueue consts ranges p fuel g = some r ∧ ∀ g', r = .ok g' →
      ∃ conf', Sound consts ranges p conf' g' ∧
        ∀ i < conf'.length, Complete consts ranges p conf' g' i
  | 0, _, _, _, _, hfuel => absurd hfuel (Nat.not_lt_zero _)
  | fuel + 1, conf, g, hs, hset, hfuel => by
    rw [runQueue]
    split
    · next hq =>
      refine ⟨_, rfl, fun g' hg' => ?_⟩
      cases hg'
      refine ⟨conf, hs, fun i hi => (hset i (Nat.zero_le i) hi).resolve_left ?_⟩
      rw [hq]
      exact List.not_mem_nil
    · next s queue hq =>
      obtain ⟨k, args, hk⟩ := hs.numbered.queued s (by rw [hq]; exact List.mem_cons_self)
      have hs1 : Sound consts ranges p conf { g with queue := queue } :=
        ⟨⟨hs.numbered.size, hs.numbered.means, hs.numbered.ids, hs.numbered.unique,
          hs.numbered.inside, fun i hi => hs.numbered.queued i
            (by rw [hq]; exact List.mem_cons_of_mem _ hi), hs.numbered.plain⟩, hs.founded⟩
      split
      · next e he => exact ⟨_, rfl, fun g' hg' => nomatch hg'⟩
      · next g2 hg2 =>
        obtain ⟨conf2, hadv, hcomp⟩ := turn_spec hs1 hk hg2
        refine runQueue_spec fuel hadv.sound (fun i _ hi => ?_) ?_
        · by_cases hold : i < conf.length
          · rcases hset i (Nat.zero_le i) hold with hi | hi
            · rw [hq] at hi
              rcases List.mem_cons.mp hi with rfl | hi
              · exact .inr hcomp
              · exact .inl (hadv.grows.queue i hi)
            · exact .inr (Complete.mono (g := { g with queue := queue }) hold hi hadv.grows)
          · exact hadv.settled i (Nat.le_of_not_lt hold) hi
        · have hcount := hadv.grows.count
          have hle := hadv.sound.numbered.ids_le
          rw [hq, List.length_cons] at hfuel
          simp only at hcount
          omega

theorem runQueue_mono : ∀ {fuel n : Nat} {g : Grounder} {r : Except Stop Grounder},
    runQueue consts ranges p fuel g = some r → fuel ≤ n → runQueue consts ranges p n g = some r
  | 0, _, _, _, h, _ => nomatch h
  | fuel + 1, 0, _, _, _, hle => absurd hle (Nat.not_succ_le_zero _)
  | fuel + 1, n + 1, g, r, h, hle => by
    rw [runQueue] at h ⊢
    split at h
    · exact h
    · split at h
      · exact h
      · exact runQueue_mono h (Nat.le_of_succ_le_succ hle)

/-! ## The start -/

theorem fresh_numbered : Numbered consts ranges p [] (Grounder.fresh p) where
  size := rfl
  means := rfl
  ids _ _ _ := ⟨(fun h => nomatch h), (fun h => nomatch h)⟩
  unique := List.nodup_nil
  inside _ h := nomatch h
  queued _ h := nomatch h
  plain := ⟨rfl, rfl⟩

/-- One state and no edge. -/
theorem founded_singleton (hc : IsInitial consts ranges p c) (hne : c ≠ .error) :
    Founded consts ranges p [c] [] where
  proper h := hne (List.mem_singleton.mp h).symm
  initial := ⟨c, rfl, hc⟩
  edges a s t := by
    rintro ⟨es, hes, -⟩
    cases hes
  entered i h0 hi := absurd hi (by rw [List.length_singleton]; omega)
  fires _ h := nomatch h

theorem seed_spec (h : seed consts ranges p = .ok g) :
    ∃ conf, Sound consts ranges p conf g ∧ Finished consts ranges p 0 conf g ∧
      g.queue.length = g.ids.length := by
  unfold seed at h
  split at h
  · next r hr =>
    simp only at h
    split at h
    · cases h
    · obtain ⟨args, hargs, h⟩ := bind_eq_ok.mp h
      split at h
      · cases h
      · next k hk =>
        split at h
        · cases h
        · next d hd =>
          obtain ⟨⟨g1, t⟩, hin, h⟩ := bind_eq_ok.mp h
          cases h
          obtain ⟨hlen, hbound, heq⟩ := intern_ok hin
          have hnum := fresh_numbered.enter (d := d) rfl (mem_domain hd hlen hbound)
          have hinit : IsInitial consts ranges p (.named k args) :=
            .named hr ⟨hk, hd, hargs, hlen⟩ hbound
          have hfound := founded_singleton hinit fun h => nomatch h
          rw [show g1 = ((Grounder.fresh p).enter k d args).1 from congrArg Prod.fst heq]
          refine ⟨[.named k args], ⟨hnum, hfound⟩, fun i _ hi => .inl ?_, rfl⟩
          exact List.mem_singleton.mpr (Nat.lt_one_iff.mp hi)
  · next hr =>
    have hs : Sound consts ranges p [.start] ((Grounder.fresh p).newState (p.name ++ ".0")) :=
      ⟨fresh_numbered.newState rfl _, founded_singleton (.start hr) fun h => nomatch h⟩
    obtain ⟨conf, hadv, hcomp⟩ := expandBody_spec hs rfl .start h
    refine ⟨conf, hadv.sound, fun i _ hi => ?_, hadv.grows.count.trans (Nat.zero_add _)⟩
    by_cases h0 : i = 0
    · subst h0
      exact .inr hcomp
    · refine hadv.settled i ?_ hi
      rw [List.length_singleton]
      omega

/-! ## Hiding -/

theorem mem_groundLabels {pats : List LabelPattern} {out : List GLabel}
    (h : groundLabels consts ranges pats = .ok out) (a : GLabel) :
    a ∈ out ↔ ∃ pat ∈ pats, ∃ env, pat.Label ranges consts a env := by
  rw [mem_collect h a]
  constructor
  · rintro ⟨pat, hpat, here, hhere, ha⟩
    obtain ⟨grounds, hgrounds, hhere⟩ := bind_eq_ok.mp hhere
    cases hhere
    obtain ⟨x, hx, rfl⟩ := List.mem_map.mp ha
    exact ⟨pat, hpat, x.2, (mem_expandPattern hgrounds _ _).mp hx⟩
  · rintro ⟨pat, hpat, env, ha⟩
    obtain ⟨here, hhere⟩ := collect_ok h pat hpat
    obtain ⟨grounds, hgrounds, heq⟩ := bind_eq_ok.mp hhere
    cases heq
    exact ⟨pat, hpat, _, hhere, List.mem_map.mpr ⟨_, (mem_expandPattern hgrounds a env).mpr ha,
      rfl⟩⟩

/-- A label matched by one of the prefixes. -/
def matched (prefixes : List GLabel) (a : GLabel) : Bool := prefixes.any fun l => l.isPrefixOf a

theorem matched_iff {prefixes : List GLabel}
    (h : groundLabels consts ranges p.hidden = .ok prefixes) (a : GLabel) :
    matched prefixes a = true ↔ Hidden consts ranges p a := by
  rw [matched, List.any_eq_true, Hidden]
  constructor
  · rintro ⟨l, hl, hpre⟩
    obtain ⟨pat, hpat, env, hlab⟩ := (mem_groundLabels h l).mp hl
    exact ⟨pat, hpat, l, env, hlab, List.isPrefixOf_iff_prefix.mp hpre⟩
  · rintro ⟨pat, hpat, l, env, hlab, hpre⟩
    exact ⟨l, (mem_groundLabels h l).mpr ⟨pat, hpat, env, hlab⟩,
      List.isPrefixOf_iff_prefix.mpr hpre⟩

variable {out : GroundLts} {extension prefixes : List GLabel}

/-- Without prefixes nothing is matched, and the two branches of the source agree. -/
theorem finish_eq (out : GroundLts) (extension prefixes : List GLabel) :
    let lts := finishAlphabetAndHiding out extension prefixes
    lts.rel = out.rel.filter (fun x => !matched prefixes x.1) ∧
      lts.tau = out.tau ++ (out.rel.filter fun x => matched prefixes x.1).flatMap Prod.snd ∧
      (∀ a, a ∈ lts.alphabet ↔ ((∃ x ∈ out.rel, a = x.1) ∨ a ∈ extension ∨ a ∈ out.alphabet) ∧
        ¬matched prefixes a) ∧
      lts.stateNames = out.stateNames := by
  have hall : ∀ a, a ∈ extension.foldl (fun set l => setInsert l set)
      (out.rel.foldl (fun set x => setInsert x.1 set) out.alphabet) ↔
      (∃ x ∈ out.rel, a = x.1) ∨ a ∈ extension ∨ a ∈ out.alphabet := by
    intro a
    refine (mem_foldl_setInsert id extension _).trans ?_
    rw [mem_foldl_setInsert Prod.fst out.rel]
    simp only [id, exists_eq_right']
    exact or_left_comm
  simp only [finishAlphabetAndHiding]
  split
  · next hnil =>
    subst hnil
    refine ⟨?_, ?_, fun a => ?_, rfl⟩
    · simp [matched]
    · simp [matched]
    · rw [hall]
      simp [matched]
  · refine ⟨rfl, rfl, fun a => ?_, rfl⟩
    rw [List.mem_filter, hall]
    simp [matched]

theorem Founded.reached {rel : List (GLabel × List (Int × Int))}
    (h : Founded consts ranges p conf rel) (i : Nat) (hi : i < conf.length) :
    Relation.ReflTransGen (fun i j : Nat => ∃ a, Edge rel a i j) 0 i := by
  induction i using Nat.strong_induction_on with
  | h i ih =>
    rcases Nat.eq_zero_or_pos i with rfl | h0
    · exact .refl
    · obtain ⟨a, j, hj, he⟩ := h.entered i h0 hi
      exact (ih j hj (hj.trans hi)).tail ⟨a, he⟩

/-- What the loop leaves, after hiding, is the operational LTS. -/
theorem finish_presents {lts : GroundLts} (hs : Sound consts ranges p conf g)
    (hcomp : ∀ i < conf.length, Complete consts ranges p conf g i)
    (h : finish consts ranges p g = .ok lts) :
    Presents consts ranges p lts conf g.out.rel := by
  obtain ⟨extension, hext, h⟩ := bind_eq_ok.mp h
  obtain ⟨prefixes, hpre, h⟩ := bind_eq_ok.mp h
  cases h
  obtain ⟨hrel, htau, halpha, hnames⟩ := finish_eq g.out extension prefixes
  have hm := matched_iff hpre
  refine ⟨?_, hs.founded.initial, hs.founded.proper, ?_, ?_, ?_, hs.founded.reached, ?_, ?_, ?_, ?_⟩
  · rw [hnames]
    exact hs.numbered.size.symm
  · intro i j k args hi hj
    have := ((hs.numbered.ids k args i).mpr hi).symm.trans ((hs.numbered.ids k args j).mpr hj)
    exact Option.some.inj this
  · intro i c hi a c'
    constructor
    · exact hcomp i (List.getElem?_eq_some_iff.mp hi).1 c hi a c'
    · rintro ⟨t, ht, he⟩
      obtain ⟨j, c1, c2, hj, hc1, hc2, hmove⟩ := hs.founded.edges a i t he
      cases Int.ofNat.inj hj
      cases hi.symm.trans hc1
      cases ht.symm.trans hc2
      exact hmove
  · intro a s t he
    obtain ⟨i, c, c', hi, hc, hc', -⟩ := hs.founded.edges a s t he
    exact ⟨⟨i, hi, (List.getElem?_eq_some_iff.mp hc).1⟩, c', hc'⟩
  · intro a s t
    rw [hrel, ← hm]
    constructor
    · rintro ⟨es, hes, he⟩
      obtain ⟨hes, hshown⟩ := List.mem_filter.mp hes
      exact ⟨⟨es, hes, he⟩, by simpa using hshown⟩
    · rintro ⟨⟨es, hes, he⟩, hshown⟩
      exact ⟨es, List.mem_filter.mpr ⟨hes, by simpa using hshown⟩, he⟩
  · intro x hx
    rw [hrel] at hx
    rw [← hm]
    simpa using (List.mem_filter.mp hx).2
  · intro s t
    rw [htau, hs.numbered.plain.1, List.nil_append]
    constructor
    · intro he
      obtain ⟨x, hx, he⟩ := List.mem_flatMap.mp he
      obtain ⟨hx, hhid⟩ := List.mem_filter.mp hx
      exact ⟨x.1, (hm _).mp hhid, x.2, hx, he⟩
    · rintro ⟨a, hhid, es, hes, he⟩
      exact List.mem_flatMap.mpr ⟨(a, es), List.mem_filter.mpr ⟨hes, (hm a).mpr hhid⟩, he⟩
  · intro a
    rw [halpha, hm, hs.numbered.plain.2, mem_groundLabels hext]
    refine and_congr_left fun _ => or_congr ⟨?_, ?_⟩ (or_iff_left List.not_mem_nil)
    · rintro ⟨x, hx, rfl⟩
      obtain ⟨e, he⟩ := List.exists_mem_of_ne_nil _ (hs.founded.fires x hx)
      exact ⟨e.1, e.2, x.2, hx, he⟩
    · rintro ⟨s, t, es, hes, -⟩
      exact ⟨(a, es), hes, rfl⟩

end Walk

/-- Grounding ends, for every model and process, and what it returns is the operational LTS
of the process. -/
theorem ground_ends (m : Model) (p : Process) :
    ∃ fuel r, (∀ n ≥ fuel, ground n m p = some r) ∧ ∀ lts, r = .ok lts → IsOperational m p lts := by
  cases hsetup : setup m p with
  | error e =>
    refine ⟨0, .error e, fun n _ => ?_, fun lts h => nomatch h⟩
    rw [ground, hsetup]
  | ok context =>
    obtain ⟨consts, ranges⟩ := context
    cases hseed : seed consts ranges p with
    | error e =>
      refine ⟨0, .error e, fun n _ => ?_, fun lts h => nomatch h⟩
      simp only [ground, hsetup, hseed]
    | ok g =>
      obtain ⟨conf, hs, hset, hcount⟩ := seed_spec hseed
      obtain ⟨r, hr, hend⟩ := runQueue_spec ((domain consts ranges p).length + 1) hs hset (by
        have := hs.numbered.ids_le
        omega)
      refine ⟨(domain consts ranges p).length + 1, r >>= finish consts ranges p,
        fun n hn => ?_, fun lts hlts => ?_⟩
      · simp only [ground, hsetup, hseed, runQueue_mono hr hn]
        rfl
      · obtain ⟨g', hg', hlts⟩ := bind_eq_ok.mp hlts
        obtain ⟨conf', hs', hcomp⟩ := hend g' hg'
        exact ⟨consts, ranges, hsetup, conf', _, finish_presents hs' hcomp hlts⟩

theorem ground_mono {m : Model} {p : Process} {fuel n : Nat} {r : Except Stop GroundLts}
    (h : ground fuel m p = some r) (hle : fuel ≤ n) : ground n m p = some r := by
  unfold ground at h ⊢
  split
  · next heq => rwa [heq] at h
  · next consts ranges heq =>
    simp only [heq] at h
    split at h
    · exact h
    · obtain ⟨g, hg, rfl⟩ := Option.map_eq_some_iff.mp h
      rw [runQueue_mono hg hle]
      rfl

/-- What is asked of a grounding: it raises an error, or returns the operational LTS. -/
def Grounds (m : Model) (p : Process) : Prop :=
  (∃ n lts, ground n m p = some (.ok lts) ∧ IsOperational m p lts) ∨
    ∃ n line what, ground n m p = some (.error (.error line what))

/-- `P = Q[0], Q[i:0..1] = (up -> Q[i+1] | tick -> mid -> Q[i]) \ {tick}`. -/
def counter : Process :=
  ⟨"P", false, some ⟨"Q", [.integer 0], false, 1⟩, [],
    [⟨"Q", [("i", .inline (.integer 0) (.integer 1))], [⟨none, [.mk [.name "up"] 1],
          ⟨"Q", [.binary "+" (.name "i") (.integer 1)], false, 1⟩, 1, List.cons_ne_nil _ _⟩,
        ⟨none, [.mk [.name "tick"] 1, .mk [.name "mid"] 1], ⟨"Q", [.name "i"], false, 1⟩, 1,
          List.cons_ne_nil _ _⟩]⟩],
    [], [.mk [.name "tick"] 1], 1⟩

/-- Past its range the counter is at ERROR, and `tick` is silent. -/
example : ground 3 ⟨[], []⟩ counter = some (.ok ⟨"P", false, ["Q.0", "Q.1", "Q.0@1", "Q.1@1"],
      [(["mid"], [(2, 0), (3, 1)]), (["up"], [(0, 1), (1, -1)])], [["mid"], ["up"]],
      [(0, 2), (1, 3)]⟩) := by
  rfl

/-- `P = (a[9223372036854775807..9223372036854775807] -> P)`. -/
def atLargest : Process :=
  ⟨"P", false, none,
    [⟨none, [.mk [.name "a", .choice (.inline (.integer longMax) (.integer longMax))] 1],
      ⟨"P", [], false, 1⟩, 1, List.cons_ne_nil _ _⟩], [], [], [], 1⟩

end LibHSC.Fsp
