import LibHSC.Mem.CacheMemo

/-!
Runs of a cache. The evaluation of an operation may make further requests, so a
request is cut in two halves with any number of nested ones between them: the
machine keeps the evaluations that wait, the innermost first.
-/

namespace LibHSC.Mem

/-! ## Operations -/

/-- The evaluation of an operation: it returns, throws, reads and writes the
context, or makes a request and goes on with the answer, which it may catch. -/
inductive Evaluation (Op R E σ : Type) where
  | ret (r : R)
  | raise (e : E)
  | context (write : σ → σ) (next : σ → Evaluation Op R E σ)
  | request (op : Op) (next : Except E R → Evaluation Op R E σ)

section Operations

variable {Op R E σ : Type}

/-- The outcomes of an evaluation without a cache, every nested operation being
evaluated in its turn, whatever the context. -/
inductive Direct (eval : Op → Evaluation Op R E σ) : Evaluation Op R E σ → Except E R → Prop
  | ret (r : R) : Direct eval (.ret r) (.ok r)
  | raise (e : E) : Direct eval (.raise e) (.error e)
  | context {write : σ → σ} {next : σ → Evaluation Op R E σ} {out : Except E R} (cxt : σ) :
      Direct eval (next cxt) out → Direct eval (.context write next) out
  | request {op : Op} {next : Except E R → Evaluation Op R E σ} {ans out : Except E R} :
      Direct eval (eval op) ans → Direct eval (next ans) out → Direct eval (.request op next) out

/-- An evaluation that comes to its end, whatever the context. -/
inductive Halts (eval : Op → Evaluation Op R E σ) : Evaluation Op R E σ → Prop
  | ret (r : R) : Halts eval (.ret r)
  | raise (e : E) : Halts eval (.raise e)
  | context {write : σ → σ} {next : σ → Evaluation Op R E σ} :
      (∀ cxt, Halts eval (next cxt)) → Halts eval (.context write next)
  | request {op : Op} {next : Except E R → Evaluation Op R E σ} :
      Halts eval (eval op) → (∀ ans, Direct eval (eval op) ans → Halts eval (next ans)) →
      Halts eval (.request op next)

end Operations

/-- What a cache is built on. An operation is the key and the computation: its
outcome, a value or an exception, is its own. -/
structure Operations (Op R E σ : Type) where
  hash : Op → Nat
  cacheable : Op → Bool
  /-- Whether the context lets a result be kept. -/
  cacheResults : σ → Bool
  eval : Op → Evaluation Op R E σ
  own : Op → Except E R
  honest : ∀ op out, Direct eval (eval op) out → out = own op

/-! ## The machine -/

/-- An evaluation that waits for the answer to a request. -/
structure Frame (Op R E σ : Type) where
  op : Op
  filtered : Bool
  next : Except E R → Evaluation Op R E σ

/-- An evaluation under way. -/
structure Running (Op R E σ : Type) where
  op : Op
  filtered : Bool
  rest : Evaluation Op R E σ

structure Machine (Op R E σ : Type) where
  cache : Cache Op R
  context : σ
  running : Option (Running Op R E σ)
  frames : List (Frame Op R E σ)

/-- What the owner of the cache does between requests. -/
inductive Command (Op σ : Type) where
  | request (op : Op)
  | clear
  | setFilter (filter : Op → Bool)
  | setContext (context : σ)

namespace Machine

variable {Op R E σ : Type}

/-- A machine after a step, and the request that returned in it. -/
abbrev After (Op R E σ : Type) := Machine Op R E σ × Option (Op × Except E R)

def new (capacity evictBatch : Nat) (context : σ) : Machine Op R E σ :=
  ⟨.new capacity evictBatch, context, none, []⟩

/-- A request returns to the evaluation that waits for it, or to the owner. -/
def answer (m : Machine Op R E σ) (op : Op) (out : Except E R) : After Op R E σ :=
  match m.frames with
  | [] => ({ m with running := none }, some (op, out))
  | f :: frames =>
    ({ m with running := some ⟨f.op, f.filtered, f.next out⟩, frames := frames }, some (op, out))

variable [DecidableEq Op]

/-- The first half of a request. -/
def request (ops : Operations Op R E σ) (m : Machine Op R E σ) (op : Op) :
    Option (After Op R E σ) :=
  match m.cache.enter ops.cacheable ops.hash op with
  | none => none
  | some (.filtered, cache) =>
    some ({ m with cache := cache, running := some ⟨op, true, ops.eval op⟩ }, none)
  | some (.hit r, cache) => some (answer { m with cache := cache } op (.ok r))
  | some (.miss, cache) =>
    some ({ m with cache := cache, running := some ⟨op, false, ops.eval op⟩ }, none)

/-- A step of the evaluation under way. A null link followed is `none`. -/
def advance (ops : Operations Op R E σ) (m : Machine Op R E σ) (run : Running Op R E σ) :
    Option (After Op R E σ) :=
  match run.rest with
  | .ret r =>
    if run.filtered then some (m.answer run.op (.ok r))
    else
      match m.cache.leave (ops.cacheResults m.context) ops.hash run.op r with
      | none => none
      | some (r, cache) => some (answer { m with cache := cache } run.op (.ok r))
  | .raise e => some (m.answer run.op (.error e))
  | .context write next =>
    some ({ m with
      context := write m.context, running := some { run with rest := next m.context } }, none)
  | .request op next =>
    request ops { m with frames := ⟨run.op, run.filtered, next⟩ :: m.frames } op

/-- A step of the owner. -/
def issue (ops : Operations Op R E σ) (m : Machine Op R E σ) :
    Command Op σ → Option (After Op R E σ)
  | .request op => m.request ops op
  | .clear => some ({ m with cache := m.cache.clear }, none)
  | .setFilter filter => some ({ m with cache := { m.cache with filter := filter } }, none)
  | .setContext context => some ({ m with context := context }, none)

/-- A step of a run: the evaluation under way goes on, or the owner acts. -/
inductive Step (ops : Operations Op R E σ) (m : Machine Op R E σ) (a : After Op R E σ) : Prop
  | advance {run : Running Op R E σ} : m.running = some run → m.advance ops run = some a →
      Step ops m a
  | issue (cmd : Command Op σ) : m.running = none → m.issue ops cmd = some a → Step ops m a

/-- The machines of all runs of a cache. -/
inductive Reach (ops : Operations Op R E σ) (capacity evictBatch : Nat) : Machine Op R E σ → Prop
  | new (context : σ) : Reach ops capacity evictBatch (new capacity evictBatch context)
  | step {m : Machine Op R E σ} {a : After Op R E σ} : Reach ops capacity evictBatch m →
      Step ops m a → Reach ops capacity evictBatch a.1

/-! ## The invariant -/

section Invariant

variable (ops : Operations Op R E σ)

omit [DecidableEq Op] in
/-- The frames wait for the operation `op`, each of them for its own outcome. -/
def Waiting : Op → List (Frame Op R E σ) → Prop
  | _, [] => True
  | op, f :: frames =>
    (∀ ans out, Direct ops.eval (ops.eval op) ans → Direct ops.eval (f.next ans) out →
      Direct ops.eval (ops.eval f.op) out) ∧ Waiting f.op frames

/-- What is under way and what waits for it. -/
def Evaluating (running : Option (Running Op R E σ)) (frames : List (Frame Op R E σ)) : Prop :=
  match running with
  | none => frames = []
  | some run =>
    (∀ out, Direct ops.eval run.rest out → Direct ops.eval (ops.eval run.op) out) ∧
      Waiting ops run.op frames

/-- The cache stands for a memo of distinct operations, each with an outcome of its
own. -/
structure CacheInv (capacity evictBatch : Nat) (c : Cache Op R) (memo : List (Op × R)) : Prop where
  holds : Cache.Holds ops.hash c memo
  distinct : Memo.Distinct memo
  own : ∀ x ∈ memo, Direct ops.eval (ops.eval x.1) (.ok x.2)
  capacity : c.capacity = if capacity = 0 then 1 else capacity
  evictBatch : c.evictBatch = if evictBatch = 0 then 1 else evictBatch

structure Inv (capacity evictBatch : Nat) (m : Machine Op R E σ) : Prop where
  cache : ∃ memo, CacheInv ops capacity evictBatch m.cache memo
  evaluating : Evaluating ops m.running m.frames

variable {ops} {capacity evictBatch : Nat} {m : Machine Op R E σ} {memo : List (Op × R)} {op : Op}

theorem ite_one_pos (n : Nat) : 0 < if n = 0 then 1 else n := by
  split <;> omega

omit [DecidableEq Op] in
theorem CacheInv.capacity_pos {c : Cache Op R} (h : CacheInv ops capacity evictBatch c memo) :
    0 < c.capacity := by
  rw [h.capacity]
  exact ite_one_pos capacity

omit [DecidableEq Op] in
theorem CacheInv.evictBatch_pos {c : Cache Op R} (h : CacheInv ops capacity evictBatch c memo) :
    0 < c.evictBatch := by
  rw [h.evictBatch]
  exact ite_one_pos evictBatch

omit [DecidableEq Op] in
theorem inv_new (context : σ) :
    Inv ops capacity evictBatch (new capacity evictBatch context) := by
  refine ⟨⟨[], ⟨[], Cache.new_spec .., rfl⟩, List.nodup_nil, fun x hx => ?_, rfl, rfl⟩, rfl⟩
  cases hx

omit [DecidableEq Op] in
theorem answer_event (m : Machine Op R E σ) (op : Op) (out : Except E R) :
    (m.answer op out).2 = some (op, out) := by
  unfold answer
  split <;> rfl

omit [DecidableEq Op] in
/-- An outcome handed to whoever waits for it. -/
theorem answer_inv (hc : ∃ memo, CacheInv ops capacity evictBatch m.cache memo)
    (hw : Waiting ops op m.frames) {out : Except E R}
    (hout : Direct ops.eval (ops.eval op) out) : Inv ops capacity evictBatch
      (m.answer op out).1 := by
  unfold answer
  cases hf : m.frames with
  | nil => exact ⟨hc, rfl⟩
  | cons f frames =>
    rw [hf] at hw
    exact ⟨hc, fun out' hout' => hw.1 out out' hout hout', hw.2⟩

theorem request_inv (hc : ∃ memo, CacheInv ops capacity evictBatch m.cache memo)
    (hw : Waiting ops op m.frames) : ∃ a, m.request ops op = some a ∧
      Inv ops capacity evictBatch a.1 ∧
      ∀ x out, a.2 = some (x, out) → x = op ∧ Direct ops.eval (ops.eval op) out := by
  obtain ⟨memo, h⟩ := hc
  obtain ⟨entered, c', heq, hkept, hcase⟩ :=
    Cache.enter_holds h.holds h.distinct ops.cacheable op
  have hcap := hkept.capacity.trans h.capacity
  have hbatch := hkept.evictBatch.trans h.evictBatch
  unfold request
  rw [heq]
  rcases hcase with ⟨rfl, -, hh⟩ | ⟨-, ⟨r, rfl, hfind, hh⟩ | ⟨rfl, -, hh⟩⟩
  · refine ⟨_, rfl, ⟨⟨memo, hh, h.distinct, h.own, hcap, hbatch⟩, fun out ho => ho, hw⟩, ?_⟩
    intro x out hx
    cases hx
  · have hown := h.own _ ((Memo.find_eq_some h.distinct).mp hfind)
    have hc' : CacheInv ops capacity evictBatch c' (Memo.touch memo op) :=
      ⟨hh, Memo.distinct_touch h.distinct,
        fun x hx => h.own x ((Memo.touch_perm memo op).subset hx), hcap, hbatch⟩
    refine ⟨_, rfl, answer_inv (m := { m with cache := c' }) ⟨_, hc'⟩ hw hown, ?_⟩
    intro x out hx
    rw [answer_event] at hx
    cases hx
    exact ⟨rfl, hown⟩
  · refine ⟨_, rfl, ⟨⟨memo, hh, h.distinct, h.own, hcap, hbatch⟩, fun out ho => ho, hw⟩, ?_⟩
    intro x out hx
    cases hx

/-- Every step of an evaluation is defined, keeps the invariant, and hands out an
outcome of the operation that returns. -/
theorem advance_inv (h : Inv ops capacity evictBatch m) {run : Running Op R E σ}
    (hrun : m.running = some run) : ∃ a, m.advance ops run = some a ∧
      Inv ops capacity evictBatch a.1 ∧
      ∀ x out, a.2 = some (x, out) → Direct ops.eval (ops.eval x) out := by
  obtain ⟨hc, hev⟩ := h
  rw [hrun] at hev
  obtain ⟨htail, hw⟩ := hev
  -- what an answer to the frames comes to
  have hanswer : ∀ (c : Cache Op R) (out : Except E R),
      (∃ memo, CacheInv ops capacity evictBatch c memo) →
      Direct ops.eval (ops.eval run.op) out →
      Inv ops capacity evictBatch (answer { m with cache := c } run.op out).1 ∧
        ∀ x out', (answer { m with cache := c } run.op out).2 = some (x, out') →
          Direct ops.eval (ops.eval x) out' := by
    intro c out hc hout
    refine ⟨answer_inv (m := { m with cache := c }) hc hw hout, fun x out' hx => ?_⟩
    rw [answer_event] at hx
    cases hx
    exact hout
  unfold advance
  cases hrest : run.rest with
  | ret r =>
    have hown : Direct ops.eval (ops.eval run.op) (.ok r) := htail _ (hrest ▸ .ret r)
    dsimp only
    split
    · exact ⟨_, rfl, hanswer m.cache _ hc hown⟩
    · obtain ⟨memo, h⟩ := hc
      obtain ⟨c', heq, hh, hkept⟩ := Cache.leave_holds h.holds h.distinct h.capacity_pos
        h.evictBatch_pos (ops.cacheResults m.context) run.op r
      rw [heq]
      refine ⟨_, rfl, hanswer c' _ ⟨_, hh, Memo.distinct_leave h.distinct .., fun x hx => ?_,
        hkept.capacity.trans h.capacity, hkept.evictBatch.trans h.evictBatch⟩ ?_⟩
      · rcases Memo.mem_leave hx with hx | rfl
        · exact h.own x hx
        · exact hown
      · rcases Memo.leave_result h.distinct with hmem | heq'
        · exact h.own _ hmem
        · rw [heq']
          exact hown
  | raise e => exact ⟨_, rfl, hanswer m.cache _ hc (htail _ (hrest ▸ .raise e))⟩
  | context write next =>
    refine ⟨_, rfl, ⟨hc, fun out ho => htail out (hrest ▸ .context m.context ho), hw⟩, ?_⟩
    intro x out hx
    cases hx
  | request op next =>
    have hw' : Waiting ops op (⟨run.op, run.filtered, next⟩ :: m.frames) :=
      ⟨fun ans out h₁ h₂ => htail out (hrest ▸ .request h₁ h₂), hw⟩
    obtain ⟨a, heq, hinv, hans⟩ := request_inv
      (m := { m with frames := ⟨run.op, run.filtered, next⟩ :: m.frames }) hc hw'
    refine ⟨a, heq, hinv, fun x out hx => ?_⟩
    obtain ⟨rfl, hd⟩ := hans x out hx
    exact hd

theorem issue_inv (h : Inv ops capacity evictBatch m) (hrun : m.running = none)
    (cmd : Command Op σ) : ∃ a, m.issue ops cmd = some a ∧ Inv ops capacity evictBatch a.1 ∧
      ∀ x out, a.2 = some (x, out) → Direct ops.eval (ops.eval x) out := by
  obtain ⟨⟨memo, hc⟩, hev⟩ := h
  have hframes : m.frames = [] := by rwa [hrun] at hev
  cases cmd with
  | request op =>
    have hw : Waiting ops op m.frames := hframes ▸ trivial
    obtain ⟨a, heq, hinv, hans⟩ := request_inv ⟨memo, hc⟩ hw
    refine ⟨a, heq, hinv, fun x out hx => ?_⟩
    obtain ⟨rfl, hd⟩ := hans x out hx
    exact hd
  | clear =>
    obtain ⟨order, hrep, -⟩ := hc.holds
    obtain ⟨hrep', hcap, hbatch, -⟩ := Cache.clear_spec hrep
    refine ⟨_, rfl, ⟨⟨[], ⟨[], hrep', rfl⟩, List.nodup_nil, fun x hx => ?_,
      hcap.trans hc.capacity, hbatch.trans hc.evictBatch⟩, hev⟩, fun x out hx => ?_⟩
    · cases hx
    · cases hx
  | setFilter filter =>
    obtain ⟨order, ⟨hlru, hchained, hlive, hhashed, hslots, hsize, hpos⟩, hcon⟩ := hc.holds
    refine ⟨_, rfl, ⟨⟨memo, ⟨order, ⟨⟨hlru.forward, hlru.backward⟩, hchained, hlive, hhashed,
      hslots, hsize, hpos⟩, hcon⟩, hc.distinct, hc.own, hc.capacity, hc.evictBatch⟩, hev⟩,
      fun x out hx => ?_⟩
    cases hx
  | setContext context =>
    refine ⟨_, rfl, ⟨⟨memo, hc⟩, hev⟩, fun x out hx => ?_⟩
    cases hx

theorem step_inv {a : After Op R E σ} (h : Inv ops capacity evictBatch m) (hstep : Step ops m a) :
    Inv ops capacity evictBatch a.1 ∧
      ∀ x out, a.2 = some (x, out) → Direct ops.eval (ops.eval x) out := by
  cases hstep with
  | advance hrun heq =>
    obtain ⟨a', heq', hinv⟩ := advance_inv h hrun
    obtain rfl := Option.some.inj (heq.symm.trans heq')
    exact hinv
  | issue cmd hrun heq =>
    obtain ⟨a', heq', hinv⟩ := issue_inv h hrun cmd
    obtain rfl := Option.some.inj (heq.symm.trans heq')
    exact hinv

theorem reach_inv (h : Reach ops capacity evictBatch m) : Inv ops capacity evictBatch m := by
  induction h with
  | new context => exact inv_new context
  | step _ hstep ih => exact (step_inv ih hstep).1

end Invariant

/-! ## Requests return -/

/-- The evaluation under way goes on for some steps. -/
inductive Goes (ops : Operations Op R E σ) : Machine Op R E σ → Machine Op R E σ → Prop
  | refl (m : Machine Op R E σ) : Goes ops m m
  | head {m m' : Machine Op R E σ} {a : After Op R E σ} {run : Running Op R E σ} :
      m.running = some run → m.advance ops run = some a → Goes ops a.1 m' → Goes ops m m'

theorem Goes.trans {ops : Operations Op R E σ} {m m' m'' : Machine Op R E σ} (h : Goes ops m m')
    (h' : Goes ops m' m'') : Goes ops m m'' := by
  induction h with
  | refl => exact h'
  | head hrun heq _ ih => exact .head hrun heq (ih h')

theorem Goes.snoc {ops : Operations Op R E σ} {m m' : Machine Op R E σ} {a : After Op R E σ}
    {run : Running Op R E σ} (h : Goes ops m m') (hrun : m'.running = some run)
    (heq : m'.advance ops run = some a) : Goes ops m a.1 :=
  h.trans (.head hrun heq (.refl _))

/-- The request `op` returns to the frames that wait for it. -/
def Returns (ops : Operations Op R E σ) (m : Machine Op R E σ) (op : Op)
    (frames : List (Frame Op R E σ)) : Prop :=
  ∃ m' run out, Goes ops m m' ∧ m'.running = some run ∧ m'.frames = frames ∧
    ∃ cache, m'.advance ops run = some (answer { m' with cache := cache } op out)

section Halting

variable {ops : Operations Op R E σ} {capacity evictBatch : Nat} {m : Machine Op R E σ}

theorem goes_inv {m' : Machine Op R E σ} (h : Inv ops capacity evictBatch m)
    (hgoes : Goes ops m m') : Inv ops capacity evictBatch m' := by
  induction hgoes with
  | refl => exact h
  | head hrun heq _ ih => exact ih (step_inv h (.advance hrun heq)).1

theorem Returns.head {a : After Op R E σ} {run : Running Op R E σ} {op : Op}
    {frames : List (Frame Op R E σ)} (hrun : m.running = some run)
    (heq : m.advance ops run = some a) (h : Returns ops a.1 op frames) :
    Returns ops m op frames := by
  obtain ⟨m', run', out, hgoes, h⟩ := h
  exact ⟨m', run', out, .head hrun heq hgoes, h⟩

/-- An answered request lets the evaluation behind it return. -/
theorem Returns.resume {run : Running Op R E σ} {op : Op}
    {next : Except E R → Evaluation Op R E σ} {frames : List (Frame Op R E σ)}
    (hinv : Inv ops capacity evictBatch m)
    (h : Returns ops m op (⟨run.op, run.filtered, next⟩ :: frames))
    (ih : ∀ ans, Direct ops.eval (ops.eval op) ans → ∀ m' : Machine Op R E σ,
      Inv ops capacity evictBatch m' → m'.running = some ⟨run.op, run.filtered, next ans⟩ →
      Returns ops m' run.op m'.frames) : Returns ops m run.op frames := by
  obtain ⟨m', run', out, hgoes, hrun', hframes, cache, heq⟩ := h
  obtain ⟨hinv', hdirect⟩ := step_inv (goes_inv hinv hgoes) (.advance hrun' heq)
  have hd := hdirect op out (answer_event ..)
  have hanswer : (answer { m' with cache := cache } op out).1 =
      { m' with cache := cache, running := some ⟨run.op, run.filtered, next out⟩,
                frames := frames } := by
    unfold answer
    dsimp only
    rw [hframes]
  rw [hanswer] at hinv'
  obtain ⟨m'', run'', out', hgoes', h⟩ := ih out hd _ hinv' rfl
  refine ⟨m'', run'', out', (hgoes.snoc hrun' heq).trans ?_, h⟩
  rw [hanswer]
  exact hgoes'

/-- A request whose evaluation comes to its end returns. -/
theorem halts_returns {e : Evaluation Op R E σ} (h : Halts ops.eval e) :
    ∀ (m : Machine Op R E σ) (run : Running Op R E σ), Inv ops capacity evictBatch m →
    m.running = some run → run.rest = e → Returns ops m run.op m.frames := by
  induction h with
  | ret r =>
    intro m run hinv hrun hrest
    obtain ⟨memo, h⟩ := hinv.cache
    obtain ⟨c', heq, -⟩ := Cache.leave_holds h.holds h.distinct h.capacity_pos
      h.evictBatch_pos (ops.cacheResults m.context) run.op r
    have hadvance : ∃ cache r', m.advance ops run =
        some (answer { m with cache := cache } run.op (.ok r')) := by
      unfold advance
      rw [hrest]
      dsimp only
      split
      · exact ⟨m.cache, r, rfl⟩
      · rw [heq]
        exact ⟨c', _, rfl⟩
    obtain ⟨cache, r', hadvance⟩ := hadvance
    exact ⟨m, run, .ok r', .refl m, hrun, rfl, cache, hadvance⟩
  | raise e =>
    intro m run _ hrun hrest
    refine ⟨m, run, .error e, .refl m, hrun, rfl, m.cache, ?_⟩
    unfold advance
    rw [hrest]
  | @context write next _ ih =>
    intro m run hinv hrun hrest
    obtain ⟨a, heq, hinv', -⟩ := advance_inv hinv hrun
    refine Returns.head hrun heq ?_
    unfold advance at heq
    rw [hrest] at heq
    obtain rfl := Option.some.inj heq
    exact ih m.context _ ⟨run.op, run.filtered, next m.context⟩ hinv' rfl rfl
  | @request op next _ _ ih ih' =>
    intro m run hinv hrun hrest
    obtain ⟨a, heq, hinv', hans⟩ := advance_inv hinv hrun
    refine Returns.head hrun heq ?_
    have hresume : ∀ ans, Direct ops.eval (ops.eval op) ans → ∀ m' : Machine Op R E σ,
        Inv ops capacity evictBatch m' → m'.running = some ⟨run.op, run.filtered, next ans⟩ →
        Returns ops m' run.op m'.frames :=
      fun ans hd m' hinv' hrun' => ih' ans hd m' ⟨_, _, next ans⟩ hinv' hrun' rfl
    unfold advance at heq
    rw [hrest] at heq
    dsimp only at heq
    unfold request at heq
    split at heq
    · cases heq
    · obtain rfl := Option.some.inj heq
      exact Returns.resume hinv' (ih _ _ hinv' rfl rfl) hresume
    · next r cache _ =>
      obtain rfl := Option.some.inj heq
      exact hresume (.ok r) (hans op _ (answer_event ..)) _ hinv' rfl
    · obtain rfl := Option.some.inj heq
      exact Returns.resume hinv' (ih _ _ hinv' rfl rfl) hresume

end Halting

end Machine

/-! ## What a request leaves behind -/

/-- The operations of the entries in the storage. -/
def Cache.residents {Op R : Type} (c : Cache Op R) : List Op :=
  (List.range c.capacity).filterMap fun s => (c.storage s).map Entry.operation

theorem Cache.Holds.residents_perm {Op R : Type} {hash : Op → Nat} {c : Cache Op R}
    {memo : List (Op × R)} (h : Cache.Holds hash c memo) :
    c.residents.Perm (memo.map Prod.fst) := by
  obtain ⟨order, hrep, rfl⟩ := h
  have hnd := hrep.slots.nodup_iff.mpr List.nodup_range
  have hfree : c.free.filterMap (fun s => (c.storage s).map Entry.operation) = [] := by
    refine List.filterMap_eq_nil_iff.mpr fun s hs => ?_
    have hout : s ∉ order := fun hm => (List.nodup_append.mp hnd).2.2 s hs s hm rfl
    rw [Option.not_isSome_iff_eq_none.mp fun hlive => hout ((hrep.live s).mpr hlive)]
    rfl
  have hcon : (Cache.contentOf c.storage order).map Prod.fst =
      order.filterMap fun s => (c.storage s).map Entry.operation := by
    unfold Cache.contentOf Cache.dataOf
    rw [List.map_filterMap]
    simp only [Option.map_map]
    rfl
  have hperm := (hrep.slots.filterMap fun s => (c.storage s).map Entry.operation).symm
  rw [List.filterMap_append, hfree, List.nil_append] at hperm
  rw [hcon]
  exact hperm

section Main

variable {Op R E σ : Type} [DecidableEq Op] {ops : Operations Op R E σ}
  {capacity evictBatch : Nat} {m : Machine Op R E σ}

/-- In every run of a cache no step follows a null link, a request whose evaluation
comes to its end returns, and at every return, however deep, the outcome is the
operation's own, the counter counts the entries, which are no more than the
capacity and of distinct operations, and an operation that failed has none. -/
theorem cache_run (h : Machine.Reach ops capacity evictBatch m) :
    (∀ run, m.running = some run → ∃ a, m.advance ops run = some a) ∧
    (m.running = none → ∀ cmd, ∃ a, m.issue ops cmd = some a) ∧
    (∀ run, m.running = some run → Halts ops.eval run.rest →
      Machine.Returns ops m run.op m.frames) ∧
    ∀ a op out, Machine.Step ops m a → a.2 = some (op, out) → out = ops.own op ∧
      a.1.cache.capacity = (if capacity = 0 then 1 else capacity) ∧
      a.1.cache.size = a.1.cache.residents.length ∧
      a.1.cache.residents.length ≤ a.1.cache.capacity ∧
      a.1.cache.residents.Nodup ∧
      ∀ e, out = .error e → op ∉ a.1.cache.residents := by
  have hinv := Machine.reach_inv h
  refine ⟨fun run hrun => ?_, fun hrun cmd => ?_, fun run hrun hhalts => ?_,
    fun a op out hstep hret => ?_⟩
  · obtain ⟨a, heq, -⟩ := Machine.advance_inv hinv hrun
    exact ⟨a, heq⟩
  · obtain ⟨a, heq, -⟩ := Machine.issue_inv hinv hrun cmd
    exact ⟨a, heq⟩
  · exact Machine.halts_returns hhalts m run hinv hrun rfl
  · obtain ⟨⟨⟨memo, hc⟩, -⟩, hdirect⟩ := Machine.step_inv hinv hstep
    have hown := ops.honest op out (hdirect op out hret)
    have hperm := hc.holds.residents_perm
    have hlen : a.1.cache.residents.length = memo.length := by
      rw [hperm.length_eq, List.length_map]
    refine ⟨hown, hc.capacity, ?_, ?_, hperm.nodup_iff.mpr hc.distinct, fun e he hm => ?_⟩
    · rw [hlen, hc.holds.size_eq]
    · rw [hlen]
      exact hc.holds.length_le
    · -- an entry would be of an evaluation that did not fail
      obtain ⟨x, hx, rfl⟩ := List.mem_map.mp (hperm.subset hm)
      have hvalue := ops.honest _ _ (hc.own x hx)
      rw [← hown, he] at hvalue
      cases hvalue

end Main

/-! A recursion that asks the cache for the value below its own: doubling, and no
value for 3. -/

namespace Doubling

def eval : Nat → Evaluation Nat Nat String Unit
  | 0 => .ret 0
  | 3 => .raise "three"
  | n + 1 => .request n fun
      | .ok r => .ret (r + 2)
      | .error e => .raise e

def own (n : Nat) : Except String Nat := if n < 3 then .ok (2 * n) else .error "three"

theorem honest (n : Nat) : ∀ out, Direct eval (eval n) out → out = own n := by
  induction n with
  | zero =>
    intro out h
    cases h
    rfl
  | succ n ih =>
    intro out h
    by_cases h3 : n = 2
    · subst h3
      cases h
      rfl
    · have heval : eval (n + 1) = .request n fun
          | .ok r => .ret (r + 2)
          | .error e => .raise e := by
        unfold eval
        split <;> simp_all
      rw [heval] at h
      cases h with
      | request hans hout =>
        obtain rfl := ih _ hans
        unfold own at hout ⊢
        by_cases hn : n < 3
        · rw [if_pos hn] at hout
          rw [if_pos (by omega)]
          cases hout
          rfl
        · rw [if_neg hn] at hout
          rw [if_neg (by omega)]
          cases hout
          rfl

def operations : Operations Nat Nat String Unit where
  hash n := n
  cacheable _ := true
  cacheResults _ := true
  eval := eval
  own := own
  honest := honest

/-- A cache for one result, which keeps nothing for 1. -/
def narrow : Machine Nat Nat String Unit :=
  { Machine.new 1 1 () with
    cache := { (Cache.new 1 1 : Cache Nat Nat) with filter := fun n => n ≠ 1 } }

/-- The evaluation under way goes on for so many steps. -/
def goOn : Nat → Machine Nat Nat String Unit → Option (Machine Nat Nat String Unit)
  | 0, m => some m
  | n + 1, m => do
      let run ← m.running
      let a ← m.advance operations run
      goOn n a.1

theorem reach_goOn {n : Nat} : ∀ {m m' : Machine Nat Nat String Unit},
    Machine.Reach operations 1 1 m → goOn n m = some m' → Machine.Reach operations 1 1 m' := by
  induction n with
  | zero =>
    intro m m' h heq
    cases heq
    exact h
  | succ n ih =>
    intro m m' h heq
    simp only [goOn, Option.bind_eq_bind, Option.bind_eq_some_iff] at heq
    obtain ⟨run, hrun, a, ha, heq⟩ := heq
    exact ih (h.step (.advance hrun ha)) heq

end Doubling

/-- Over a cache for one result that keeps nothing for 1: the request for 4 fails
because the nested one for 3 throws, and that for 2 asks for 1, which is filtered, and
through it for 0, which is evicted when 2 is kept. -/
theorem cache_run_doubling :
    (∃ m a, Machine.Reach Doubling.operations 1 1 m ∧ Machine.Step Doubling.operations m a ∧
      m.frames.length = 1 ∧ a.2 = some (3, Doubling.own 3) ∧ 3 ∉ a.1.cache.residents) ∧
    ∃ m a, Machine.Reach Doubling.operations 1 1 m ∧ Machine.Step Doubling.operations m a ∧
      m.cache.residents = [0] ∧ a.2 = some (2, Doubling.own 2) ∧ a.1.cache.residents = [2] ∧
      a.1.cache.size = a.1.cache.residents.length := by
  have hnarrow : Machine.Reach Doubling.operations 1 1 Doubling.narrow :=
    .step (.new ()) (.issue (.setFilter fun n => n ≠ 1) rfl rfl)
  have hfour : Machine.Reach Doubling.operations 1 1 _ :=
    .step hnarrow (.issue (.request 4) rfl rfl)
  have hthree := Doubling.reach_goOn hfour (n := 1) rfl
  have hidle := Doubling.reach_goOn hthree (n := 2) rfl
  have htwo := Doubling.reach_goOn (.step hidle (.issue (.request 2) rfl rfl)) (n := 4) rfl
  obtain ⟨-, -, -, hfails⟩ := cache_run hthree
  obtain ⟨-, -, -, hreturns⟩ := cache_run htwo
  obtain ⟨-, -, -, -, -, habsent⟩ := hfails _ 3 (.error "three") (.advance rfl rfl) rfl
  obtain ⟨-, -, hsize, -⟩ := hreturns _ 2 (.ok 4) (.advance rfl rfl) rfl
  exact ⟨⟨_, _, hthree, .advance rfl rfl, rfl, rfl, habsent _ rfl⟩,
    _, _, htwo, .advance rfl rfl, rfl, rfl, rfl, hsize⟩

end LibHSC.Mem
