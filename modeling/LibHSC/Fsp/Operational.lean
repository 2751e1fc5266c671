import LibHSC.Fsp.Ground
import LibHSC.Library.Images
import Mathlib.Logic.Relation

/-!
The operational LTS of an FSP process. A configuration is a named state with its
arguments, the anonymous initial body, or what is left of a prefix chain under the choices
made so far. A label pattern spells a ground label by one choice for every element, and
the binders of a label are in force for the rest of the chain.
-/

namespace LibHSC.Fsp

section Semantics

variable (consts : Env) (ranges : Ranges) (p : Process)

/-! ## Labels -/

mutual

/-- One choice for one element: the atoms and the environment after it. -/
inductive Picks : Int → LabelElem → Env → GLabel → Env → Prop
  | name {line : Int} {env : Env} (text : String) : Picks line (.name text) env [text] env
  | index {line : Int} {ix : Expr} {env : Env} {v : Int} :
      eval ix env line = .ok v → Picks line (.index ix) env [toString v] env
  | choice {line : Int} {r : Rng} {env : Env} {lo hi v : Int} :
      bounds ranges r env line = .ok (lo, hi) → lo ≤ v → v ≤ hi →
      Picks line (.choice r) env [toString v] env
  | binder {line : Int} {var : String} {r : Rng} {env : Env} {lo hi v : Int} :
      bounds ranges r env line = .ok (lo, hi) → lo ≤ v → v ≤ hi →
      Picks line (.binder var r) env [toString v] ((var, v) :: env)
  | set {line line' : Int} {alts : List LabelPattern} {elems : List LabelElem} {env env' : Env}
      {a : GLabel} :
      .mk elems line' ∈ alts → Spells line' elems env a env' →
      Picks line (.set alts) env a env'

/-- One choice for every element, each under the binders before it. -/
inductive Spells : Int → List LabelElem → Env → GLabel → Env → Prop
  | nil {line : Int} {env : Env} : Spells line [] env [] env
  | cons {line : Int} {el : LabelElem} {rest : List LabelElem} {env env' env'' : Env}
      {a b : GLabel} :
      Picks line el env a env' → Spells line rest env' b env'' →
      Spells line (el :: rest) env (a ++ b) env''

end

/-- A label of the pattern, and the environment it leaves. -/
def LabelPattern.Label (pat : LabelPattern) (env : Env) (a : GLabel) (env' : Env) : Prop :=
  match pat with
  | .mk elems line => Spells ranges line elems env a env'

/-! ## Configurations -/

inductive Config
  | start
  | named (i : Nat) (args : List Int)
  | chain (labels : List LabelPattern) (target : StateRef) (env : Env)
  | error

/-- A reference to a definition of the process, its arguments evaluated. -/
structure Refers (r : StateRef) (env : Env) (i : Nat) (d : StateDef) (args : List Int) : Prop where
  index : defIndex p r.name = some i
  state : p.states[i]? = some d
  given : evalAll env r.line r.args = .ok args
  arity : args.length = d.params.length

inductive IsInitial : Config → Prop
  | start : p.initRef = none → IsInitial .start
  | named {r : StateRef} {i : Nat} {d : StateDef} {args : List Int} :
      p.initRef = some r → Refers p r consts i d args →
      inBounds consts ranges d args r.line = .ok true → IsInitial (.named i args)

/-- Where a target leads: out of the declared ranges is ERROR, the name of the process its
initial state. -/
inductive Resolves (r : StateRef) (env : Env) : Config → Prop
  | error : r.isError = true → Resolves r env .error
  | outside {i : Nat} {d : StateDef} {args : List Int} :
      r.isError = false → Refers p r env i d args →
      inBounds consts ranges d args r.line = .ok false → Resolves r env .error
  | named {i : Nat} {d : StateDef} {args : List Int} :
      r.isError = false → Refers p r env i d args →
      inBounds consts ranges d args r.line = .ok true → Resolves r env (.named i args)
  | self {c : Config} :
      r.isError = false → defIndex p r.name = none → r.name = p.name → r.args = [] →
      IsInitial consts ranges p c → Resolves r env c

/-- After a label: the target behind the last, the rest of the chain otherwise. -/
inductive Continues (target : StateRef) : List LabelPattern → Env → Config → Prop
  | target {env : Env} {c : Config} :
      Resolves consts ranges p target env c → Continues target [] env c
  | chain {label : LabelPattern} {rest : List LabelPattern} {env : Env} :
      Continues target (label :: rest) env (.chain (label :: rest) target env)

/-- The body of a configuration and its environment. -/
inductive Opens : Config → List Branch → Env → Prop
  | start : Opens .start p.initBody consts
  | named {i : Nat} {d : StateDef} {args : List Int} :
      p.states[i]? = some d → Opens (.named i args) d.body (bindParams d.params args consts)

def Branch.Enabled (b : Branch) (env : Env) : Prop :=
  ∀ e, b.guard = some e → ∃ v, eval e env b.line = .ok v ∧ v ≠ 0

/-- A chain takes its first label. -/
inductive Takes (target : StateRef) : List LabelPattern → Env → GLabel → Config → Prop
  | label {label : LabelPattern} {rest : List LabelPattern} {env env' : Env} {a : GLabel}
      {c : Config} :
      label.Label ranges env a env' → Continues consts ranges p target rest env' c →
      Takes target (label :: rest) env a c

/-- A step of the process. -/
inductive Moves : Config → GLabel → Config → Prop
  | branch {c c' : Config} {body : List Branch} {b : Branch} {env : Env} {a : GLabel} :
      Opens consts p c body env → b ∈ body → b.Enabled env →
      Takes consts ranges p b.target b.labels env a c' → Moves c a c'
  | chain {labels : List LabelPattern} {target : StateRef} {env : Env} {a : GLabel}
      {c : Config} :
      Takes consts ranges p target labels env a c → Moves (.chain labels target env) a c

/-- A label with a hidden prefix. -/
def Hidden (a : GLabel) : Prop :=
  ∃ pat ∈ p.hidden, ∃ l env, pat.Label ranges consts l env ∧ l <+: a

def Extends (a : GLabel) : Prop := ∃ pat ∈ p.extension, ∃ env, pat.Label ranges consts a env

end Semantics

/-! ## A ground LTS and the process -/

/-- The edges of a relation. -/
def Edge (rel : List (GLabel × List (Int × Int))) (a : GLabel) (s t : Int) : Prop :=
  ∃ es, (a, es) ∈ rel ∧ (s, t) ∈ es

/-- The configuration of a destination. -/
def stateAt (conf : List Config) (t : Int) : Option Config :=
  if t = -1 then some .error else if t < 0 then none else conf[t.toNat]?

/-- The states are configurations of the process, the edges of `rel` its steps, and the LTS
is `rel` after hiding. -/
structure Presents (consts : Env) (ranges : Ranges) (p : Process) (lts : GroundLts)
    (conf : List Config) (rel : List (GLabel × List (Int × Int))) : Prop where
  numbered : conf.length = lts.stateNames.length
  initial : ∃ c, conf[0]? = some c ∧ IsInitial consts ranges p c
  proper : Config.error ∉ conf
  distinct : ∀ (i j k : Nat) (args : List Int), conf[i]? = some (.named k args) →
    conf[j]? = some (.named k args) → i = j
  steps : ∀ (i : Nat) (c : Config), conf[i]? = some c → ∀ (a : GLabel) (c' : Config),
    Moves consts ranges p c a c' ↔ ∃ t, stateAt conf t = some c' ∧ Edge rel a i t
  edges : ∀ a s t, Edge rel a s t →
    (∃ i : Nat, s = i ∧ i < conf.length) ∧ ∃ c, stateAt conf t = some c
  reached : ∀ i < conf.length, Relation.ReflTransGen (fun i j : Nat => ∃ a, Edge rel a i j) 0 i
  shown : ∀ a s t, Edge lts.rel a s t ↔ Edge rel a s t ∧ ¬Hidden consts ranges p a
  labels : ∀ x ∈ lts.rel, ¬Hidden consts ranges p x.1
  silent : ∀ s t, (s, t) ∈ lts.tau ↔ ∃ a, Hidden consts ranges p a ∧ Edge rel a s t
  alphabet : ∀ a, a ∈ lts.alphabet ↔
    ((∃ s t, Edge rel a s t) ∨ Extends consts ranges p a) ∧ ¬Hidden consts ranges p a

/-- The ground LTS is the operational LTS of the process in the model. -/
def IsOperational (m : Model) (p : Process) (lts : GroundLts) : Prop :=
  ∃ consts ranges, setup m p = .ok (consts, ranges) ∧
    ∃ conf rel, Presents consts ranges p lts conf rel

/-! ## The patterns -/

section Patterns

theorem mem_intRange {lo hi v : Int} : v ∈ intRange lo hi ↔ lo ≤ v ∧ v ≤ hi := by
  rw [intRange, List.mem_map]
  constructor
  · rintro ⟨n, hn, rfl⟩
    have := List.mem_range.mp hn
    omega
  · rintro ⟨hlo, hhi⟩
    exact ⟨(v - lo).toNat, List.mem_range.mpr (by omega), by omega⟩

theorem mem_collect {α β : Type} {f : α → Except Stop (List β)} :
    ∀ {xs : List α} {out : List β}, collect f xs = .ok out →
      ∀ y, y ∈ out ↔ ∃ x ∈ xs, ∃ here, f x = .ok here ∧ y ∈ here := by
  intro xs
  induction xs with
  | nil =>
    intro out h y
    cases h
    simp
  | cons x xs ih =>
    intro out h y
    obtain ⟨here, hhere, h⟩ := bind_eq_ok.mp h
    obtain ⟨more, hmore, h⟩ := bind_eq_ok.mp h
    cases h
    rw [List.mem_append, ih hmore y, List.exists_mem_cons_iff]
    simp only [hhere, Except.ok.injEq, exists_eq_left']

theorem collect_ok {α β : Type} {f : α → Except Stop (List β)} :
    ∀ {xs : List α} {out : List β}, collect f xs = .ok out → ∀ x ∈ xs, ∃ here, f x = .ok here := by
  intro xs
  induction xs with
  | nil => exact fun _ x hx => nomatch hx
  | cons x xs ih =>
    intro out h y hy
    obtain ⟨here, hhere, h⟩ := bind_eq_ok.mp h
    obtain ⟨more, hmore, h⟩ := bind_eq_ok.mp h
    rcases List.mem_cons.mp hy with rfl | hy
    · exact ⟨here, hhere⟩
    · exact ih hmore y hy

theorem mem_forRange {β : Type} {lo hi : Int} {f : Int → Except Stop (List β)} {out : List β}
    (h : forRange lo hi f = .ok out) (y : β) :
    y ∈ out ↔ ∃ v, (lo ≤ v ∧ v ≤ hi) ∧ ∃ here, f v = .ok here ∧ y ∈ here := by
  obtain ⟨all, hall, h⟩ := bind_eq_ok.mp h
  split at h
  · cases h
  · cases h
    rw [mem_collect hall y]
    simp only [mem_intRange]

theorem forRange_ok {β : Type} {lo hi : Int} {f : Int → Except Stop (List β)} {out : List β}
    (h : forRange lo hi f = .ok out) {v : Int} (hv : lo ≤ v ∧ v ≤ hi) :
    ∃ here, f v = .ok here := by
  obtain ⟨all, hall, -⟩ := bind_eq_ok.mp h
  exact collect_ok hall v (mem_intRange.mpr hv)

/-- What a continuation returns: the labels of `K` behind what is spelt already. -/
def Spelling (rest : GLabel → Env → Except Stop (List (GLabel × Env)))
    (K : Env → GLabel → Env → Prop) : Prop :=
  ∀ acc env out, rest acc env = .ok out →
    ∀ x, x ∈ out ↔ ∃ b env', K env b env' ∧ x = (acc ++ b, env')

variable {ranges : Ranges}

mutual

theorem expandElems_spec (line : Int) : ∀ elems : List LabelElem,
    Spelling (expandElems ranges line elems) (Spells ranges line elems)
  | [] => by
    intro acc env out h x
    rw [expandElems] at h
    cases h
    rw [List.mem_singleton]
    constructor
    · rintro rfl
      exact ⟨[], env, .nil, by rw [List.append_nil]⟩
    · rintro ⟨b, env', hb, rfl⟩
      cases hb
      rw [List.append_nil]
  | el :: rest => by
    intro acc env out h x
    rw [expandElems] at h
    rw [expandElem_spec line el (expandElems_spec line rest) acc env out h x]
    constructor
    · rintro ⟨a, env1, b, env2, ha, hb, rfl⟩
      exact ⟨a ++ b, env2, .cons ha hb, rfl⟩
    · rintro ⟨ab, env2, hab, rfl⟩
      cases hab with
      | cons ha hb => exact ⟨_, _, _, _, ha, hb, rfl⟩

theorem expandElem_spec (line : Int) : ∀ (el : LabelElem)
    {rest : GLabel → Env → Except Stop (List (GLabel × Env))} {K : Env → GLabel → Env → Prop},
    Spelling rest K → ∀ acc env out, expandElem ranges line el acc env rest = .ok out →
    ∀ x, x ∈ out ↔ ∃ a env1 b env2, Picks ranges line el env a env1 ∧ K env1 b env2 ∧
      x = (acc ++ (a ++ b), env2)
  | .name text, rest, K, hrest, acc, env, out, h, x => by
    rw [expandElem] at h
    rw [hrest _ _ _ h x]
    constructor
    · rintro ⟨b, env', hb, rfl⟩
      exact ⟨[text], env, b, env', .name text, hb, by rw [List.append_assoc]⟩
    · rintro ⟨a, env1, b, env2, ha, hb, rfl⟩
      cases ha
      exact ⟨b, env2, hb, by rw [List.append_assoc]⟩
  | .index ix, rest, K, hrest, acc, env, out, h, x => by
    rw [expandElem] at h
    obtain ⟨v, hv, h⟩ := bind_eq_ok.mp h
    rw [hrest _ _ _ h x]
    constructor
    · rintro ⟨b, env', hb, rfl⟩
      exact ⟨[toString v], env, b, env', .index hv, hb, by rw [List.append_assoc]⟩
    · rintro ⟨a, env1, b, env2, ha, hb, rfl⟩
      cases ha with
      | index hv' =>
        cases hv.symm.trans hv'
        exact ⟨b, env2, hb, by rw [List.append_assoc]⟩
  | .choice r, rest, K, hrest, acc, env, out, h, x => by
    rw [expandElem] at h
    obtain ⟨⟨lo, hi⟩, hr, h⟩ := bind_eq_ok.mp h
    rw [mem_forRange h x]
    constructor
    · rintro ⟨v, ⟨hlo, hhi⟩, here, hv, hx⟩
      obtain ⟨b, env', hb, rfl⟩ := (hrest _ _ _ hv x).mp hx
      exact ⟨[toString v], env, b, env', .choice hr hlo hhi, hb, by rw [List.append_assoc]⟩
    · rintro ⟨a, env1, b, env2, ha, hb, rfl⟩
      cases ha with
      | @choice _ _ _ lo' hi' v hr' hlo hhi =>
        cases hr.symm.trans hr'
        obtain ⟨here, hv⟩ := forRange_ok h ⟨hlo, hhi⟩
        exact ⟨v, ⟨hlo, hhi⟩, here, hv,
          (hrest _ _ _ hv _).mpr ⟨b, env2, hb, by rw [List.append_assoc]⟩⟩
  | .binder var r, rest, K, hrest, acc, env, out, h, x => by
    rw [expandElem] at h
    obtain ⟨⟨lo, hi⟩, hr, h⟩ := bind_eq_ok.mp h
    rw [mem_forRange h x]
    constructor
    · rintro ⟨v, ⟨hlo, hhi⟩, here, hv, hx⟩
      obtain ⟨b, env', hb, rfl⟩ := (hrest _ _ _ hv x).mp hx
      exact ⟨[toString v], _, b, env', .binder hr hlo hhi, hb, by rw [List.append_assoc]⟩
    · rintro ⟨a, env1, b, env2, ha, hb, rfl⟩
      cases ha with
      | @binder _ _ _ _ lo' hi' v hr' hlo hhi =>
        cases hr.symm.trans hr'
        obtain ⟨here, hv⟩ := forRange_ok h ⟨hlo, hhi⟩
        exact ⟨v, ⟨hlo, hhi⟩, here, hv,
          (hrest _ _ _ hv _).mpr ⟨b, env2, hb, by rw [List.append_assoc]⟩⟩
  | .set alts, rest, K, hrest, acc, env, out, h, x => by
    rw [expandElem] at h
    rw [expandAlts_spec alts hrest acc env out h x]
    constructor
    · rintro ⟨elems, line', a, env1, b, env2, hmem, ha, hb, rfl⟩
      exact ⟨a, env1, b, env2, .set hmem ha, hb, rfl⟩
    · rintro ⟨a, env1, b, env2, ha, hb, rfl⟩
      cases ha with
      | set hmem ha => exact ⟨_, _, a, env1, b, env2, hmem, ha, hb, rfl⟩

theorem expandAlts_spec : ∀ (alts : List LabelPattern)
    {rest : GLabel → Env → Except Stop (List (GLabel × Env))} {K : Env → GLabel → Env → Prop},
    Spelling rest K → ∀ acc env out, expandAlts ranges alts acc env rest = .ok out →
    ∀ x, x ∈ out ↔ ∃ elems line a env1 b env2, .mk elems line ∈ alts ∧
      Spells ranges line elems env a env1 ∧ K env1 b env2 ∧ x = (acc ++ (a ++ b), env2)
  | [], rest, K, hrest, acc, env, out, h, x => by
    rw [expandAlts] at h
    cases h
    simp
  | alt :: alts, rest, K, hrest, acc, env, out, h, x => by
    rw [expandAlts] at h
    obtain ⟨subs, hsubs, h⟩ := bind_eq_ok.mp h
    obtain ⟨here, hhere, h⟩ := bind_eq_ok.mp h
    obtain ⟨more, hmore, h⟩ := bind_eq_ok.mp h
    cases h
    rw [List.mem_append, mem_collect hhere x, expandAlts_spec alts hrest acc env more hmore x]
    have hsub := expandPattern_spec alt [] env subs hsubs
    constructor
    · rintro (⟨sub, hmem, o, ho, hx⟩ | ⟨elems, line, a, env1, b, env2, hmem, ha, hb, rfl⟩)
      · obtain ⟨b, env2, hb, rfl⟩ := (hrest _ _ _ ho x).mp hx
        obtain ⟨a, env1, ha, rfl⟩ := (hsub sub).mp hmem
        cases alt with
        | mk elems line =>
          exact ⟨elems, line, a, env1, b, env2, List.mem_cons_self, ha, hb,
            by rw [List.nil_append, List.append_assoc]⟩
      · exact ⟨elems, line, a, env1, b, env2, List.mem_cons_of_mem _ hmem, ha, hb, rfl⟩
    · rintro ⟨elems, line, a, env1, b, env2, hmem, ha, hb, rfl⟩
      rcases List.mem_cons.mp hmem with rfl | hmem
      · have hin := (hsub (a, env1)).mpr ⟨a, env1, ha, rfl⟩
        obtain ⟨o, ho⟩ := collect_ok hhere _ hin
        exact .inl ⟨_, hin, o, ho, (hrest _ _ _ ho _).mpr ⟨b, env2, hb, by rw [List.append_assoc]⟩⟩
      · exact .inr ⟨elems, line, a, env1, b, env2, hmem, ha, hb, rfl⟩

theorem expandPattern_spec : ∀ pat : LabelPattern,
    Spelling (expandPattern ranges pat) (pat.Label ranges)
  | .mk elems line => by
    intro acc env out h x
    rw [expandPattern] at h
    exact expandElems_spec line elems acc env out h x

end

/-- A pattern expands to its labels. -/
theorem mem_expandPattern {pat : LabelPattern} {env : Env} {out : List (GLabel × Env)}
    (h : expandPattern ranges pat [] env = .ok out) (a : GLabel) (env' : Env) :
    (a, env') ∈ out ↔ pat.Label ranges env a env' := by
  rw [expandPattern_spec pat [] env out h]
  constructor
  · rintro ⟨b, env2, hb, heq⟩
    cases heq
    exact hb
  · exact fun ha => ⟨a, env', ha, rfl⟩

end Patterns

end LibHSC.Fsp
