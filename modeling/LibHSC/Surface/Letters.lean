import LibHSC.Surface.Emitted

/-!
Letters past sixteen bits. A leaf with more than 65536 distinct graphs has several of them
under one letter, and the last one stands in the table for all.
-/

namespace LibHSC.Surface

open Lia Xpl

/-! ## A family of specifications -/

/-- Where the event of an index reads the first leaf, and where it sends it. -/
def sendFrom (d k : Nat) : Nat := d - k / (d + 1)

def sendInto (d k : Nat) : Nat := k % (d + 1)

/-- One move of the first leaf while the second is 0; the event `d` also sets the second. -/
def sendEvent (d k : Nat) : Source where
  name := "e" ++ toString k
  line := 2
  clauses :=
    [.list [.atom "when" 2,
        .list [.atom "==" 2, .atom "x" 2, .atom (toString (sendFrom d k : Int)) 2] 2,
        .list [.atom "==" 2, .atom "y" 2, .atom (toString (0 : Int)) 2] 2] 2,
      .list (.atom "do" 2 ::
        .list [.atom ":=" 2, .atom "x" 2, .atom (toString (sendInto d k : Int)) 2] 2 ::
        if k = d then [.list [.atom ":=" 2, .atom "y" 2, .atom (toString (1 : Int)) 2] 2]
        else []) 2]

/-- Every move of a leaf over `[0, d]`, one event each. -/
def sends (d : Nat) : Spec where
  leaves := [("x", ⟨0, true, 0, d + 1⟩), ("y", ⟨1, true, 0, 2⟩)]
  order := ["x", "y"]
  arrays := []
  events := (List.range ((d + 1) * (d + 1))).map (sendEvent d)
  initPairs := []
  initEvent := []
  placed := by simp

def plainIds : ExprIds := ⟨fun _ => 0, fun _ => 0⟩

/-- What the bridge reads an event to. -/
def sendLocal (d k : Nat) : LocalEvent where
  name := "e" ++ toString k
  line := 2
  dead := false
  guards := [(0, Lia.compare plainIds .eq (.var 0) (.const (sendFrom d k))),
    (1, Lia.compare plainIds .eq (.var 1) (.const 0))]
  acts := (0, .const (sendInto d k)) :: if k = d then [(1, .const 1)] else []

def sendGraph (d k : Nat) : List (Option Nat) :=
  (List.range (d + 1)).map fun v => if v = sendFrom d k then some (sendInto d k) else none

def flagGraph (d k : Nat) : List (Option Nat) :=
  if k = d then [some 1, none] else [some 0, none]

def sendGraphs (d k : Nat) : EvGraphs :=
  ⟨"e" ++ toString k, [(0, sendGraph d k), (1, flagGraph d k)]⟩

def sendDomain (d : Nat) : Domain := ⟨0, d + 1, (List.range (d + 1)).map Int.ofNat⟩

def flagDomain : Domain := ⟨0, 2, [0, 1]⟩

/-! ## What the bridge makes of it -/

section Reading

variable {R : ExprIds} {p : Nat} {v : Int}

theorem supportBool_compare : supportBool (Lia.compare R .eq (.var p) (.const v)) = [p] := by
  unfold Lia.compare
  split
  · next h => cases h
  · next h _ => cases h
  · next h _ => cases h
  · split
    · next h => cases h
    · split <;> rfl

theorem evalBool_eq_const {env : Xpl.Word} {x : Int} (hp : env[p]? = some x) :
    Xpl.evalBool env (Lia.compare R .eq (.var p) (.const v)) = .ok (Truth.ofBool (x == v)) := by
  have hlt : p < env.length := (List.getElem?_eq_some_iff.mp hp).1
  have hplain : (Lia.compare R .eq (.var p) (.const v)).Plain env.length :=
    compare_plain (l := .var p) (r := .const v) hlt trivial
  obtain ⟨t, ht, ht'⟩ := plain_decides _ hplain
  rw [exactBool_compare (ρ := .ofEnv env) hp] at ht'
  rw [ht, ← ht']
  rfl

end Reading

variable {d k : Nat}

theorem sendFrom_le : sendFrom d k ≤ d := Nat.sub_le d _

theorem sendInto_le : sendInto d k ≤ d := Nat.lt_succ_iff.mp (Nat.mod_lt k (Nat.succ_pos d))

theorem sends_seeds : (sends d).seeds plainIds = .ok [[0, 0]] := rfl

theorem sends_domains : (List.range (sends d).order.length).mapM (buildDomain (sends d) [0, 0]) =
    .ok [sendDomain d, flagDomain] := by
  have hvalues : (0 : Int) :: (Xpl.valuesOf 0 ((d : Int) + 1)).filter (fun v => decide (v ≠ 0)) =
      (List.range (d + 1)).map Int.ofNat := by
    have hlen : ((d : Int) + 1 - 0).toNat = d + 1 := by omega
    unfold Xpl.valuesOf
    rw [hlen, List.range_succ_eq_map, List.map_cons, List.map_cons, List.filter_cons_of_neg
        (by simp),
      List.filter_eq_self.mpr]
    · simp
    · intro v hv
      simp only [List.map_map, List.mem_map] at hv
      obtain ⟨k, -, rfl⟩ := hv
      simp
      omega
  have hfirst : buildDomain (sends d) [0, 0] 0 = .ok (sendDomain d) := by
    have hbound : (sends d).bound 0 = some (0, (d : Int) + 1) := rfl
    unfold buildDomain
    rw [hbound]
    dsimp only
    rw [if_neg (by simp)]
    simp only [List.getD_cons_zero, hvalues]
    rfl
  have hsecond : buildDomain (sends d) [0, 0] 1 = .ok flagDomain := rfl
  show List.mapM _ [0, 1] = _
  rw [List.mapM_cons, hfirst, List.mapM_cons, hsecond]
  rfl

/-- A token that is no numeral, wherever it stands. -/
theorem isSymbol_of_nil {name : String} (h : asInt (.atom name 0) = none) : IsSymbol name := by
  intro line
  simp only [asInt, Datum.isAtom, Datum.text] at h ⊢
  exact h

theorem sends_readAtom {name : String} {p : Nat} {v : Int} (hname : asInt (.atom name 0) = none)
    (hp : (sends d).scope.position name = some p) (hv : InInt32 v) (ds : List Datum)
    (ev : LocalEvent) : readAtoms plainIds (sends d).scope [0, 0]
      (.list [.atom "==" 2, .atom name 2, .atom (toString v) 2] 2 :: ds) ev =
    readAtoms plainIds (sends d).scope [0, 0] ds
      { ev with guards := ev.guards ++ [(p, Lia.compare plainIds .eq (.var p) (.const v))] } := by
  have hread : readBool plainIds (sends d).scope
      (.list [.atom "==" 2, .atom name 2, .atom (toString v) 2] 2) =
      .ok (Lia.compare plainIds .eq (.var p) (.const v)) :=
    readBool_compare (k := .eq) rfl (isSymbol_of_nil hname) hp hv
  simp only [readAtoms, hread, bind, Except.bind, supportBool_compare]
  rfl

theorem sends_readAct {name : String} {p : Nat} {v : Int}
    (hp : (sends d).scope.position name = some p) (hv : InInt32 v) (acts : List Datum)
    {written : List Nat} (hnew : p ∉ written) (ev : LocalEvent) :
    readActs plainIds (sends d).scope
      (.list [.atom ":=" 2, .atom name 2, .atom (toString v) 2] 2 :: acts) written ev =
    readActs plainIds (sends d).scope acts (written ++ [p])
      { ev with acts := ev.acts ++ [(p, .const v)] } := by
  have hrhs : readRhs plainIds (sends d).scope ":=" p (.atom (toString v) 2) = .ok (.const v) := by
    unfold readRhs
    rw [readInt_numeral hv]
    rfl
  rw [Int.toString_eq_repr] at hrhs
  rw [readActs]
  simp [Datum.items, Datum.head, Datum.isAtom, Datum.text, hp, hrhs, hnew, refuseAt, support,
    collect, sortPositions, bind, Except.bind]

theorem sends_readEvent (hd : d < 2147483648) (k : Nat) :
    readEvent plainIds (sends d).scope [0, 0] (sendEvent d k) = .ok (sendLocal d k) := by
  have hi : InInt32 (sendFrom d k : Int) := by
    have := sendFrom_le (d := d) (k := k)
    exact ⟨by omega, by omega⟩
  have hj : InInt32 (sendInto d k : Int) := by
    have := sendInto_le (d := d) (k := k)
    exact ⟨by omega, by omega⟩
  have hx : (sends d).scope.position "x" = some 0 := rfl
  have hy : (sends d).scope.position "y" = some 1 := rfl
  unfold readEvent sendEvent
  dsimp only
  rw [readEventClauses]
  simp only [Datum.items, Datum.head, List.isEmpty_cons, Bool.false_eq_true, if_false, if_true,
    List.tail_cons, sends_readAtom (d := d) (by decide +kernel) hx hi,
    sends_readAtom (d := d) (by decide +kernel) hy (by decide : InInt32 0)]
  refine bind_of_ok rfl ?_
  rw [readEventClauses]
  have hdo : ("do" : String) ≠ "when" := by decide
  simp only [Datum.items, Datum.head, List.isEmpty_cons, Bool.false_eq_true, if_false, if_true,
    List.tail_cons, if_neg hdo, sends_readAct hx hj _ List.not_mem_nil]
  have hone : InInt32 1 := by decide
  have hnew : 1 ∉ [] ++ [0] := by decide
  by_cases h : k = d
  · rw [if_pos h, sends_readAct hy hone _ hnew]
    simp [readActs, readEventClauses, sendLocal, h, bind, Except.bind]
  · rw [if_neg h]
    simp [readActs, readEventClauses, sendLocal, h, bind, Except.bind]

theorem sends_valueOf {q : Nat} {v : Int} :
    (sendDomain d).valueOf[q]? = some v ↔ q ≤ d ∧ v = q := by
  simp only [sendDomain, List.getElem?_map, Option.map_eq_some_iff, List.getElem?_eq_some_iff,
    List.length_range, List.getElem_range]
  constructor
  · rintro ⟨k, ⟨hk, rfl⟩, rfl⟩
    exact ⟨by omega, rfl⟩
  · rintro ⟨hq, rfl⟩
    exact ⟨q, ⟨by omega, rfl⟩, rfl⟩

theorem sends_idxOf {j : Nat} (hj : j ≤ d) : (sendDomain d).valueOf.idxOf (j : Int) = j := by
  have hnd : (sendDomain d).valueOf.Nodup := List.nodup_range.map fun a b h => by simpa using h
  have hget := sends_valueOf.mpr ⟨hj, rfl⟩
  have hlt := List.idxOf_lt_length_of_mem (List.mem_of_getElem? hget)
  refine (List.getElem?_inj hlt hnd).mp ?_
  rw [hget, List.getElem?_eq_getElem hlt, List.getElem_idxOf]

theorem send_localStep (v : Nat) : localStep (sendLocal d k) 0 (sendDomain d) [0, 0] v =
    .ok (if v = sendFrom d k then some (sendInto d k) else none) := by
  have hguards : (sendLocal d k).guardsAt 0 =
      [Lia.compare plainIds .eq (.var 0) (.const (sendFrom d k))] := rfl
  have hacts : (sendLocal d k).actsAt 0 = [.const (sendInto d k)] := by
    unfold LocalEvent.actsAt sendLocal
    dsimp only
    split <;> rfl
  have hset : ([0, 0] : Xpl.Word).set 0 (v : Int) = [(v : Int), 0] := rfl
  unfold localStep
  rw [hguards, hacts, hset, guardsHold, evalBool_eq_const (x := (v : Int)) rfl]
  have hinto := sendInto_le (d := d) (k := k)
  by_cases h : v = sendFrom d k
  · have hbeq : ((v : Int) == (sendFrom d k : Int)) = true := by simp [h]
    rw [hbeq, if_pos h]
    show (if ([IExpr.const (sendInto d k : Int)] ≠ []) ∧ ((sendInto d k : Int) < 0 ∨
      (d : Int) + 1 ≤ sendInto d k) then _ else
      (.ok (some ((sendDomain d).valueOf.idxOf (sendInto d k : Int))) :
        Except BuildError (Option Nat))) = _
    rw [if_neg (by omega), sends_idxOf hinto]
  · have hbeq : ((v : Int) == (sendFrom d k : Int)) = false := by simpa using h
    rw [hbeq, if_neg h]
    rfl

theorem send_localGraph : localGraph (sendLocal d k) 0 (sendDomain d) [0, 0] =
    .ok (sendGraph d k) := by
  have hall : ∀ vs : List Nat, (vs.map Int.ofNat).mapM
      (localStep (sendLocal d k) 0 (sendDomain d) [0, 0]) =
      .ok (vs.map fun v => if v = sendFrom d k then some (sendInto d k) else none) := by
    intro vs
    induction vs with
    | nil => rfl
    | cons v vs ih =>
      rw [List.map_cons, List.mapM_cons, ih]
      refine bind_of_ok (send_localStep v) rfl
  exact hall (List.range (d + 1))

theorem flag_localGraph : localGraph (sendLocal d k) 1 flagDomain [0, 0] = .ok (flagGraph d k) := by
  have hunset : Xpl.evalBool [0, 0] (Lia.compare plainIds .eq (.var 1) (.const 0)) = .ok .yes :=
    evalBool_eq_const (x := 0) rfl
  have hset : Xpl.evalBool [0, 1] (Lia.compare plainIds .eq (.var 1) (.const 0)) = .ok .no :=
    evalBool_eq_const (x := 1) rfl
  have hguards : (sendLocal d k).guardsAt 1 = [Lia.compare plainIds .eq (.var 1) (.const 0)] := rfl
  unfold flagGraph
  by_cases h : k = d
  · have hacts : (sendLocal d k).actsAt 1 = [.const 1] := by
      rw [sendLocal, if_pos h]
      rfl
    have hint : ∀ env, strictInt env (.const 1) = .ok 1 := fun _ => rfl
    rw [if_pos h]
    simp [localGraph, localStep, flagDomain, hguards, hacts, guardsHold, hunset, hset, runActs,
      hint, bind, Except.bind, pure, Except.pure]
  · have hacts : (sendLocal d k).actsAt 1 = [] := by
      rw [sendLocal, if_neg h]
      rfl
    rw [if_neg h]
    simp [localGraph, localStep, flagDomain, hguards, hacts, guardsHold, hunset, hset, runActs,
      bind, Except.bind, pure, Except.pure]

theorem send_graphsOf :
    graphsOf [0, 0] [sendDomain d, flagDomain] (sendLocal d k) = .ok (sendGraphs d k) := by
  have htouched : (sendLocal d k).touched = [0, 1] := by
    unfold LocalEvent.touched sendLocal
    dsimp only
    split <;> rfl
  unfold graphsOf
  rw [htouched, List.mapM_cons, List.mapM_cons, List.mapM_nil]
  have hfirst : ([sendDomain d, flagDomain] : List Domain).getD 0 ⟨0, 0, []⟩ = sendDomain d := rfl
  have hsecond : ([sendDomain d, flagDomain] : List Domain).getD 1 ⟨0, 0, []⟩ = flagDomain := rfl
  rw [hfirst, hsecond, send_localGraph, flag_localGraph]
  rfl

/-- The graphs of all events. -/
def sendCompiled (d : Nat) : List EvGraphs :=
  (List.range ((d + 1) * (d + 1))).map (sendGraphs d)

theorem sends_compiled (hd : d < 2147483648) :
    compileEvents plainIds (sends d) [0, 0] [sendDomain d, flagDomain] (sends d).events =
      .ok (sendCompiled d) := by
  have hall : ∀ ks : List Nat, compileEvents plainIds (sends d) [0, 0] [sendDomain d, flagDomain]
      (ks.map (sendEvent d)) = .ok (ks.map (sendGraphs d)) := by
    intro ks
    induction ks with
    | nil => rfl
    | cons k ks ih =>
      rw [List.map_cons, compileEvents]
      refine bind_of_ok (sends_readEvent hd k) ?_
      exact bind_of_ok send_graphsOf (bind_of_ok ih rfl)
  exact hall _

/-! ## The letters -/

/-- The key of a graph up to a position it does not read below. -/
theorem sendGraph_key {p : Nat} (hp : p ≤ sendFrom d k) : ∃ rest, graphKey (sendGraph d k) =
    List.replicate p (-1) ++ (if p = sendFrom d k then (sendInto d k : Int) else -1) :: rest := by
  obtain ⟨r, hr⟩ : ∃ r, d + 1 = p + (r + 1) :=
    ⟨d - p, by have := sendFrom_le (d := d) (k := k); omega⟩
  have hbelow : ∀ v ∈ List.range p,
      (((if v = sendFrom d k then some (sendInto d k) else none).map Int.ofNat).getD (-1)) =
        (-1 : Int) := by
    intro v hv
    have := List.mem_range.mp hv
    rw [if_neg (by omega)]
    rfl
  unfold graphKey sendGraph
  rw [List.map_map, hr, List.range_add, List.map_append, List.range_succ_eq_map, List.map_cons,
    List.map_cons]
  refine ⟨_, congrArg₂ (· ++ ·) ?_ (congrArg₂ List.cons ?_ rfl)⟩
  · refine (List.map_congr_left hbelow).trans ?_
    rw [List.map_const', List.length_range]
  · show (((if p + 0 = sendFrom d k then some (sendInto d k) else none).map Int.ofNat).getD (-1))
      = _
    rw [Nat.add_zero]
    split <;> rfl

theorem lt_behind {as bs : List Int} {a b : Int} (h : a < b) : ∀ p : Nat,
    List.replicate p (-1) ++ a :: as < List.replicate p (-1) ++ b :: bs
  | 0 => List.Lex.rel h
  | p + 1 => List.Lex.cons (lt_behind h p)

/-- The events stand in the order of their graphs. -/
theorem sendGraph_lt {l : Nat} (hkl : k < l) (hl : l < (d + 1) * (d + 1)) :
    graphKey (sendGraph d k) < graphKey (sendGraph d l) := by
  have hdiv : k / (d + 1) ≤ l / (d + 1) := Nat.div_le_div_right hkl.le
  have hmax : l / (d + 1) ≤ d := Nat.lt_succ_iff.mp (Nat.div_lt_of_lt_mul hl)
  have hle : sendFrom d l ≤ sendFrom d k := Nat.sub_le_sub_left hdiv d
  obtain ⟨as, has⟩ := sendGraph_key hle
  obtain ⟨bs, hbs⟩ := sendGraph_key (d := d) (k := l) le_rfl
  rw [has, hbs, if_pos rfl]
  refine lt_behind ?_ _
  split
  · next heq =>
    have hsame : k / (d + 1) = l / (d + 1) := by
      unfold sendFrom at heq
      omega
    have hk := Nat.div_add_mod k (d + 1)
    have hl' := Nat.div_add_mod l (d + 1)
    rw [hsame] at hk
    unfold sendInto
    omega
  · omega

theorem square_eq : (d + 1) * (d + 1) = d * (d + 1) + d + 1 := Nat.add_mul d 1 (d + 1) ▸ by omega

theorem sends_letters : lettersOf (sendCompiled d) 0 =
    (List.range ((d + 1) * (d + 1))).map (sendGraph d) := by
  have hgraphs : ∀ ks : List Nat, ((ks.map (sendGraphs d)).flatMap EvGraphs.perLeaf).filterMap
      (fun x => if x.1 = 0 then some x.2 else none) = ks.map (sendGraph d) := by
    intro ks
    induction ks with
    | nil => rfl
    | cons k ks ih =>
      rw [List.map_cons, List.flatMap_cons, List.filterMap_append, ih]
      rfl
  have hsorted : ((List.range ((d + 1) * (d + 1))).map (sendGraph d)).Pairwise
      (fun g h => graphKey g < graphKey h) := by
    refine List.pairwise_map.mpr ?_
    refine List.pairwise_lt_range.imp_of_mem fun {k l} _ hl hkl => ?_
    exact sendGraph_lt hkl (List.mem_range.mp hl)
  have hnd : ((List.range ((d + 1) * (d + 1))).map (sendGraph d)).Nodup :=
    List.Pairwise.imp (fun {g h} (hgh : graphKey g < graphKey h) => fun heq : g = h =>
      lt_irrefl (graphKey g) (by rwa [← heq] at hgh)) hsorted
  unfold lettersOf sendCompiled
  rw [hgraphs, hnd.dedup]
  exact (hsorted.imp le_of_lt).insertionSort_eq

theorem flag_letters : (lettersOf (sendCompiled d) 1).length ≤ 2 := by
  have hsub : lettersOf (sendCompiled d) 1 ⊆ [[some 1, none], [some 0, none]] := by
    intro g hg
    obtain ⟨eg, heg, hx⟩ := mem_lettersOf.mp hg
    obtain ⟨k, -, rfl⟩ := List.mem_map.mp heg
    have hg : g = flagGraph d k := by simpa [sendGraphs] using hx
    rw [hg, flagGraph]
    split <;> simp
  have hnd : (lettersOf (sendCompiled d) 1).Nodup :=
    (List.perm_insertionSort _ _).nodup_iff.mpr (List.nodup_dedup _)
  exact (hnd.subperm hsub).length_le

/-- A column keeps the last graph of its letter. -/
theorem columnOf_range {g : Nat → List (Option Nat)} {a : Nat} : ∀ {n : Nat}, a < n →
    (∀ k, a < k → k < n → letter k ≠ letter a) →
    columnOf ((List.range n).map g) (letter a) = g a := by
  intro n
  induction n with
  | zero => exact fun h => absurd h (Nat.not_lt_zero a)
  | succ n ih =>
    intro ha hlast
    rw [List.range_succ, List.map_append, List.map_singleton, columnOf_snoc, List.length_map,
      List.length_range]
    by_cases hn : a = n
    · rw [hn, if_pos rfl]
    · rw [if_neg (hlast n (by omega) (by omega)), ih (by omega) fun k hk hkn =>
        hlast k hk (by omega)]

/-! ## The product -/

/-- The model of the events, built for no property. -/
theorem sends_built (hd : d < 2147483648) :
    ∃ out, buildCegarModel plainIds (sends d) [] = .ok out := by
  have hvisit : ∀ (m : Cegar.Model) (es : List Nat), m.propLeaves = [] →
      Explore.visit (fun t e => m.tupleStep e t) (fun _ => false) (fun _ => false) [] [] es
        [([], [])] = .ok [([], [])] := by
    intro m es hprops
    induction es with
    | nil => rfl
    | cons e es ih =>
      have hstep : m.tupleStep e [] = some [] := by
        rw [tupleStep_eq, hprops]
        rfl
      rw [Explore.visit, hstep]
      exact ih
  have hreach : ∀ m : Cegar.Model, m.propLeaves = [] → reachTuples m = some [[]] := by
    intro m hprops
    have hwalk : Explore.explore (fun t e => m.tupleStep e t) (fun _ => false) (fun _ => false)
        (List.range m.events.length) 2 ([] : List Nat) = some (.closed [([], [])]) := by
      rw [Explore.explore, Explore.walk, List.getElem?_cons_zero]
      dsimp only
      rw [hvisit m _ hprops]
      rfl
    unfold reachTuples
    simp only [hprops, List.map_nil, List.prod_nil, List.length_nil, List.replicate_zero]
    rw [hwalk]
    rfl
  have hmon : ∀ m : Cegar.Model, m.propLeaves = [] → ∃ m', buildMonitor [0, 0] m [] = .ok m' := by
    intro m hprops
    unfold buildMonitor
    rw [hreach m hprops]
    exact ⟨_, rfl⟩
  obtain ⟨m', hm'⟩ := hmon (productModel (sends d) [] [sendDomain d, flagDomain] []
    (sendCompiled d)) rfl
  refine ⟨⟨m', [0, 0]⟩, ?_⟩
  refine (if_neg (by simp [sends])).trans (bind_of_ok sends_seeds ?_)
  refine bind_of_ok sends_domains (bind_of_ok rfl ?_)
  exact bind_of_ok (sends_compiled hd) (bind_of_ok hm' rfl)

section Product

variable (hb : Bridged plainIds (sends d) [0, 0] [sendDomain d, flagDomain] (sendCompiled d))

include hb

/-- The event `d` steps as the last event that leaves the value 0 alone. -/
theorem sends_reaches {m : Cegar.Model} {tuples : List (List Nat)}
    (hof : OfBridge (sendCompiled d) [sendDomain d, flagDomain] 2 m)
    (hmon : Monitored [0, 0] [] (productModel (sends d) [] [sendDomain d, flagDomain] []
      (sendCompiled d)) m tuples) (hpos : 0 < d) (hfew : d < 65536) (hwrap : d * d % 65536 = 0) :
    ∃ st, m.Reachable st ∧ valuation m st = [0, 1] := by
  have hm : m.WF := hb.model_wf hof hmon ⟨sortPositions_lt _, fun i hi =>
    absurd hi List.not_mem_nil⟩
  have hprops : m.propLeaves = [] := hmon.props
  have hlength : m.leaves.length = 2 := hof.length
  have hsquare := square_eq (d := d)
  have hlt : d < (d + 1) * (d + 1) := by omega
  have hat : (sendCompiled d)[d]? = some (sendGraphs d d) := by
    simp [sendCompiled, hlt]
  have hevent := hof.event hat
  have hid : ∀ e ∈ [d], e ∈ m.eventIds := by
    intro e he
    rw [List.mem_singleton.mp he, Cegar.Model.eventIds, List.mem_range, hmon.count]
    simpa [productModel, sendCompiled] using hlt
  have hletter : ∀ i g, (i, g) ∈ (sendGraphs d d).perLeaf → m.project [d] i =
      [letter ((lettersOf (sendCompiled d) i).idxOf g)] := by
    intro i g hx
    have hnd : List.Nodup ((buildCegarEvent (sendCompiled d) (sendGraphs d d)).support.map
        Prod.fst) := by
      rw [buildCegarEvent_fst]
      exact (by decide : [0, 1].Nodup)
    have hfor : (buildCegarEvent (sendCompiled d) (sendGraphs d d)).letterFor i = _ :=
      letterFor_of_mem hnd (List.mem_map.mpr ⟨(i, g), hx, rfl⟩)
    rw [Cegar.Model.project, List.filterMap_cons, hevent, hfor]
    rfl
  refine ⟨[0, 0, 1], ⟨[d], hid, (run_concrete_iff hm hmon.nodup hmon.exact hid
    (by rw [hlength]; rfl)).mpr ⟨?_, fun i hi => ?_⟩⟩, ?_⟩
  · have hzero := hmon.exact.first
    rw [hprops] at hzero ⊢
    exact hzero
  · rw [hlength] at hi
    obtain rfl | rfl : i = 0 ∨ i = 1 := by omega
    · have hrank : (lettersOf (sendCompiled d) 0).idxOf (sendGraph d d) = d := by
        have hnd : (lettersOf (sendCompiled d) 0).Nodup :=
          (List.perm_insertionSort _ _).nodup_iff.mpr (List.nodup_dedup _)
        rw [sends_letters] at hnd ⊢
        have hget : ((List.range ((d + 1) * (d + 1))).map (sendGraph d))[d]? =
            some (sendGraph d d) := by simp [hlt]
        have hin := List.idxOf_lt_length_of_mem (List.mem_of_getElem? hget)
        refine (List.getElem?_inj hin hnd).mp ?_
        rw [hget, List.getElem?_eq_getElem hin, List.getElem_idxOf]
      have hmeet : letter d = letter (d * (d + 1)) := by
        unfold letter
        rw [Nat.mul_succ]
        omega
      have hstep : (buildLeaf (sendCompiled d) 0 (sendDomain d)).step 0 (letter d) = _ :=
        buildLeaf_step_column (by simp [sendDomain])
          ((Nat.mod_le d 65536).trans_lt (by simpa [sends_letters] using hlt))
      rw [hletter 0 (sendGraph d d) List.mem_cons_self, hrank, Cegar.Lts.fire,
        Explore.run_singleton, hof.leaf (by decide)]
      refine hstep.trans ?_
      rw [sends_letters, hmeet, columnOf_range (by omega) fun k hk hkn => by unfold letter; omega]
      have hfrom : sendFrom d (d * (d + 1)) = 0 := by
        rw [sendFrom, Nat.mul_div_cancel d (Nat.succ_pos d), Nat.sub_self]
      have hinto : sendInto d (d * (d + 1)) = 0 := Nat.mul_mod_left d (d + 1)
      simp [sendGraph, hfrom, hinto]
    · have hstep : (buildLeaf (sendCompiled d) 1 flagDomain).step 0 _ = _ :=
        buildLeaf_step (flag_letters.trans (by decide))
          (mem_lettersOf.mpr ⟨_, List.mem_of_getElem? hat, List.mem_cons_of_mem _
            (List.mem_singleton.mpr rfl)⟩) (by decide)
      rw [hletter 1 (flagGraph d d) (by simp [sendGraphs]), Cegar.Lts.fire, Explore.run_singleton,
        hof.leaf (by decide)]
      refine hstep.trans ?_
      rw [flagGraph, if_pos rfl]
      rfl
  · refine (hof.eq_valuation (s := sends d) ⟨rfl, fun p hp => ?_⟩).symm
    replace hp : p < 2 := hp
    obtain rfl | rfl : p = 0 ∨ p = 1 := by omega
    · exact sends_valueOf.mpr ⟨Nat.zero_le d, rfl⟩
    · rfl

/-- In the explicit engine only the event `d` sets the second leaf, at the largest value of the
first. -/
theorem sends_stays {x : Xpl.Model} (hx : (sends d).xpl plainIds = .ok x) (hpos : 0 < d) :
    ¬ x.Reach [[0, 0]] [0, 1] := by
  have hinv : ∀ v, x.Reach [[0, 0]] v → (∃ q ≤ d, v = [(q : Int), 0]) ∨ v = [(d : Int), 1] := by
    rintro v ⟨n, hn⟩
    induction hn with
    | start hv => exact .inl ⟨0, Nat.zero_le d, List.mem_singleton.mp hv⟩
    | step _ hnext ih =>
      next w t _ =>
      have hlen : w.length = 2 := by
        rcases ih with ⟨q, -, rfl⟩ | rfl <;> rfl
      obtain ⟨eg, heg, ev, hlive, ht, hmoves⟩ := (hb.next_iff hx hlen).mp hnext
      obtain ⟨k, -, rfl⟩ := List.mem_map.mp heg
      have hgraph := fun p g hx => (hlive.compiled.graphs (p, g) hx).edge
      have h0 := hmoves 0 (show 0 < 2 by decide)
      have h1 := hmoves 1 (show 1 < 2 by decide)
      obtain ⟨a, b, rfl⟩ : ∃ a b, t = [a, b] := List.length_eq_two.mp ht
      have hflag := hgraph 1 (flagGraph d k) (by simp [sendGraphs])
      have hsend : ∀ q ≤ d, LocalMove ev [0, 0] 0 q a → q = sendFrom d k ∧ a = sendInto d k := by
        intro q hq hmove
        obtain ⟨q', hq', ha⟩ := (hgraph 0 (sendGraph d k) (by simp [sendGraphs]) q q
          (sends_valueOf.mpr ⟨hq, rfl⟩) a).mp hmove
        have hlt : q < d + 1 := by omega
        have hval : (sendGraph d k).getD q none =
            if q = sendFrom d k then some (sendInto d k) else none := by
          simp [sendGraph, List.getD_eq_getElem?_getD, hlt]
        rw [hval] at hq'
        split at hq'
        · next hfrom =>
          cases hq'
          exact ⟨hfrom, (sends_valueOf.mp ha).2⟩
        · cases hq'
      rcases ih with ⟨q, hq, rfl⟩ | rfl
      · obtain ⟨hfrom, ha⟩ := hsend q hq h0
        obtain ⟨q', hq', hb'⟩ := (hflag 0 0 rfl b).mp h1
        unfold flagGraph at hq'
        split at hq'
        · next hk =>
          cases hq'
          cases hb'
          refine .inr ?_
          rw [ha, hk, sendInto, Nat.mod_eq_of_lt (Nat.lt_succ_self d)]
        · cases hq'
          cases hb'
          exact .inl ⟨sendInto d k, sendInto_le, by rw [ha]⟩
      · obtain ⟨q', hq', -⟩ := (hflag 1 1 rfl b).mp h1
        unfold flagGraph at hq'
        split at hq' <;> cases hq'
  intro hreach
  rcases hinv _ hreach with ⟨q, -, hq⟩ | hq
  · cases hq
  · simp at hq
    omega

end Product

/-- Where two letters meet, the product reaches a valuation that the explicit engine does
not. -/
theorem sends_wrap (hpos : 0 < d) (hfew : d < 65536) (hwrap : d * d % 65536 = 0) : ∃ out x,
    buildCegarModel plainIds (sends d) [] = .ok out ∧ (sends d).xpl plainIds = .ok x ∧
      (∃ st, out.model.Reachable st ∧ valuation out.model st = [0, 1]) ∧
      ¬ x.Reach [out.seed] [0, 1] := by
  have hd : d < 2147483648 := by omega
  obtain ⟨⟨m, seed⟩, hout⟩ := sends_built hd
  obtain ⟨hseeds, doms, batoms, compiled, hdoms, hbatoms, hcompiled, hmonitor⟩ :=
    buildCegarModel_cases hout
  obtain rfl : seed = [0, 0] := by
    rw [sends_seeds] at hseeds
    simpa using (Except.ok.inj hseeds).symm
  rw [sends_domains] at hdoms
  cases hdoms
  cases hbatoms
  rw [sends_compiled hd] at hcompiled
  cases hcompiled
  have hb := compileEvents_bridged rfl (buildDomains_over rfl sends_domains) (sends_compiled hd)
  obtain ⟨x, hx⟩ := hb.exists_xpl
  obtain ⟨tuples, hmon⟩ := buildMonitor_spec (fun i hi => absurd hi List.not_mem_nil) hmonitor
  have hof : OfBridge (sendCompiled d) [sendDomain d, flagDomain] 2 m :=
    ⟨hmon.leaves, hmon.events⟩
  exact ⟨⟨m, [0, 0]⟩, x, hout, hx, sends_reaches hb hof hmon hpos hfew hwrap,
    sends_stays hb hx hpos⟩

/-- All moves of a leaf over `[0, 256]`: two of the 66049 graphs have the same letter. -/
theorem letters_meet : ∃ out x, buildCegarModel plainIds (sends 256) [] = .ok out ∧
    (sends 256).xpl plainIds = .ok x ∧ ∀ batoms tuples, ¬ out.Exact x batoms tuples := by
  obtain ⟨out, x, hout, hx, hreach, hnot⟩ :=
    sends_wrap (d := 256) (by decide) (by decide) (by decide)
  exact ⟨out, x, hout, hx, fun _ _ hexact => hnot ((hexact.reach _).mp hreach)⟩

end LibHSC.Surface
