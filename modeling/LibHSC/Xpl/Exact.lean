import LibHSC.Xpl.Eval
import LibHSC.Lia.Machine

/-!
The explicit evaluator against the exact meaning: a value is the exact one and a machine
value, an access outside its cells is undefined, and an error says what went wrong. Without
accesses the symbolic evaluator says the same, except where it comes to an operation that
a decided connective spares the explicit one.
-/

namespace LibHSC.Xpl

open Lia hiding evalInt evalNary evalBool evalConn evalInt_exact evalBool_exact

/-! ## What a fallible step comes to -/

/-- A value meets `P`, an error meets `Q`. -/
def Comes {ε α : Type} (r : Except ε α) (P : α → Prop) (Q : ε → Prop) : Prop :=
  match r with
  | .ok a => P a
  | .error e => Q e

section Comes

variable {ε α β : Type} {P : α → Prop} {Q : ε → Prop}

theorem Comes.bind {r : Except ε α} {f : α → Except ε β} {P' : β → Prop} (h : Comes r P Q)
    (hf : ∀ a, P a → Comes (f a) P' Q) : Comes (r >>= f) P' Q := by
  cases r with
  | ok a => exact hf a h
  | error e => exact h

theorem Comes.mono {r : Except ε α} {P' : α → Prop} {Q' : ε → Prop} (h : Comes r P Q)
    (hP : ∀ a, P a → P' a) (hQ : ∀ e, Q e → Q' e) : Comes r P' Q' := by
  cases r with
  | ok a => exact hP a h
  | error e => exact hQ e h

theorem Comes.of_ok {r : Except ε α} {a : α} (h : Comes r P Q) (hr : r = .ok a) : P a := by
  rw [hr] at h
  exact h

end Comes

/-! ## The reading of a state -/

/-- The values of a state; an access is checked against its cells. -/
def ofState (env : Word) : Reading :=
  ⟨fun p => env[p]?, fun cells i => if i < 0 then none else cells[i.toNat]?.bind (env[·]?)⟩

/-- What an error says: a value that left the machine, a position read outside the state, or
a cell outside of it. -/
def Says (env : Word) (reads cells : List Nat) : EvalError → Prop
  | .overflow v => ¬ InInt32 v
  | .outside p arity => p ∈ reads ∧ env.length ≤ p ∧ arity = env.length
  | .undefinedBehaviour => ∃ p ∈ cells, env.length ≤ p
  | _ => False

theorem Says.mono {env : Word} {reads reads' cells cells' : List Nat} {er : EvalError}
    (h : Says env reads cells er) (hr : ∀ p ∈ reads, p ∈ reads')
    (hc : ∀ p ∈ cells, p ∈ cells') : Says env reads' cells' er := by
  cases er with
  | overflow v => exact h
  | outside p arity => exact ⟨hr p h.1, h.2⟩
  | undefinedBehaviour =>
    obtain ⟨p, hp, hlen⟩ := h
    exact ⟨p, hc p hp, hlen⟩
  | _ => exact h

/-- The exact value, and a machine value. -/
def Is (m : Option Int) (x : Option Int) : Prop := m = x ∧ ∀ v, x = some v → InInt32 v

/-- An overflow, and of nothing else. -/
def Overflows (er : EvalError) : Prop := ∃ v, er = .overflow v ∧ ¬ InInt32 v

theorem Overflows.says {er : EvalError} (h : Overflows er) (env : Word) (reads cells : List Nat) :
    Says env reads cells er := by
  obtain ⟨v, rfl, hv⟩ := h
  exact hv

theorem check32_overflows (v : Int) :
    Comes (check32 v) (fun w => w = v ∧ InInt32 w) Overflows := by
  unfold check32
  split
  · next h => exact ⟨rfl, h⟩
  · next h => exact ⟨v, rfl, h⟩

theorem powSteps_comes (l : Int) : ∀ n acc,
    Comes (powSteps l n acc) (fun v => v = acc * l ^ n) Overflows := by
  intro n
  induction n with
  | zero =>
    intro acc
    show acc = acc * l ^ 0
    rw [pow_zero, Int.mul_one]
  | succ n ih =>
    intro acc
    refine (check32_overflows (acc * l)).bind ?_
    rintro _ ⟨rfl, -⟩
    refine (ih (acc * l)).mono ?_ fun _ h => h
    rintro _ rfl
    rw [pow_succ', Int.mul_assoc]

/-- A checked value, packed. -/
theorem checked_comes {m : Option Int} {v : Int} (hm : m = some v) :
    Comes (do return some (← check32 v)) (Is m) Overflows := by
  refine (check32_overflows v).bind ?_
  rintro _ ⟨rfl, hv⟩
  refine ⟨hm, ?_⟩
  rintro _ ⟨⟩
  exact hv

theorem foldStep_comes (k : BinOp) (l r : Int) :
    Comes (foldStep k l r) (Is (foldExact k l r)) Overflows := by
  have undefined : foldExact k l r = none → Comes (.ok none) (Is (foldExact k l r)) Overflows := by
    intro h
    refine ⟨h, ?_⟩
    rintro _ ⟨⟩
  cases k with
  | minus => exact checked_comes rfl
  | div =>
    rw [foldStep]
    split
    · next h => exact undefined (if_pos h)
    · next h => exact checked_comes (if_neg h)
  | mod =>
    rw [foldStep]
    split
    · next h => exact undefined (if_pos h)
    · next h => exact checked_comes (if_neg h)
  | pow =>
    rw [foldStep]
    split
    · next h => exact undefined (if_pos h)
    · next h =>
      refine (powSteps_comes l r.toNat 1).bind ?_
      rintro _ rfl
      refine checked_comes ?_
      rw [foldExact, if_neg h, Int.one_mul]
  | bitAnd => exact checked_comes rfl
  | bitOr => exact checked_comes rfl
  | bitXor => exact checked_comes rfl
  | lshift =>
    rw [foldStep]
    split
    · next h => exact undefined (if_pos h)
    · next h => exact checked_comes (if_neg h)
  | rshift =>
    rw [foldStep]
    split
    · next h => exact undefined (if_pos h)
    · next h => exact checked_comes (if_neg h)

/-! ## The evaluator is exact -/

section Evaluator

variable {env : Word}

theorem decisive_step {k : ConnOp} {t u : Truth} (h : t = k.decisive) : k.step t u = k.decisive :=
  if_pos (.inl h)

/-- The exact meaning of a connective of which `saw` says whether an operand read before
was undefined; none was decisive. -/
theorem step_saw {k : ConnOp} {saw : Bool} {t u : Truth} (h : t ≠ k.decisive) :
    k.step (if saw || decide (t = .undef) then .undef else k.decisive.not) u =
      k.step (if saw then .undef else k.decisive.not) (k.step t u) := by
  revert h
  cases k <;> cases saw <;> cases t <;> cases u <;> decide

theorem Is.of_none {m : Option Int} (h : m = none) : Is m none :=
  ⟨h, fun _ hv => by cases hv⟩

theorem Is.of_some {m : Option Int} {v : Int} (h : m = some v) (hv : InInt32 v) : Is m (some v) :=
  ⟨h, fun _ hw => by cases hw; exact hv⟩

mutual

theorem evalInt_comes (henv : ∀ v ∈ env, InInt32 v) : (e : IExpr) → e.Machine →
    Comes (evalInt env e) (Is (exactInt (ofState env) e)) (Says env (collect e) (collectArrays e))
  | .undef, _ => .of_none rfl
  | .const c, hm => .of_some rfl hm
  | .var p, _ => by
    rw [evalInt]
    cases hp : env[p]? with
    | none =>
      exact ⟨List.mem_singleton_self p, List.getElem?_eq_none_iff.mp hp, rfl⟩
    | some v => exact .of_some hp (henv v (List.mem_of_getElem? hp))
  | .nary k ops, hm => by
    have h := evalNary_comes henv k ops hm k.neutral (by cases k <;> decide)
    refine h.mono (fun x hx => ?_) fun _ h => h
    rw [exactInt]
    cases hn : exactNary (ofState env) k ops with
    | none => rwa [hn] at hx
    | some v =>
      rw [hn] at hx
      rwa [Option.map_some, k.neutral_eval] at hx
  | .binary k a b, hm => by
    have ha := (evalInt_comes henv a hm.1).mono (fun _ h => h) fun _ h =>
      h.mono (fun p => List.mem_append_left (collect b))
        fun p => List.mem_append_left (collectArrays b)
    have hb := (evalInt_comes henv b hm.2).mono (fun _ h => h) fun _ h =>
      h.mono (fun p => List.mem_append_right (collect a))
        fun p => List.mem_append_right (collectArrays a)
    refine ha.bind fun l hl => ?_
    rw [exactInt, hl.1]
    cases l with
    | none => exact .of_none rfl
    | some l =>
      refine hb.bind fun r hr => ?_
      rw [hr.1]
      cases r with
      | none => exact .of_none rfl
      | some r => exact (foldStep_comes k l r).mono (fun _ h => h) fun _ h => h.says _ _ _
  | .bitComp a, hm => by
    refine (evalInt_comes henv a hm).bind fun v hv => ?_
    rw [exactInt, hv.1]
    cases v with
    | none => exact .of_none rfl
    | some v =>
      refine .of_some rfl ?_
      have := hv.2 v rfl
      unfold InInt32 at this ⊢
      omega
  | .array cells index, hm => by
    have hi := (evalInt_comes henv index hm).mono (fun _ h => h) fun _ h =>
      h.mono (fun _ => id) fun p => List.mem_append_right cells
    refine hi.bind fun i hi => ?_
    rw [exactInt, hi.1]
    cases i with
    | none => exact .of_none rfl
    | some i =>
      dsimp only [ofState, Option.bind_some]
      split
      · exact .of_none rfl
      · cases hc : cells[i.toNat]? with
        | none => exact .of_none rfl
        | some p =>
          dsimp only [Option.bind_some]
          cases hp : env[p]? with
          | none =>
            exact ⟨p, List.mem_append_left _ (List.mem_of_getElem? hc),
              List.getElem?_eq_none_iff.mp hp⟩
          | some v => exact .of_some rfl (henv v (List.mem_of_getElem? hp))
  | .wrapBool b, hm => by
    refine (evalBool_comes henv b hm).bind fun t ht => ?_
    rw [exactInt, ht]
    cases t with
    | yes => exact .of_some rfl (by decide)
    | no => exact .of_some rfl (by decide)
    | undef => exact .of_none rfl

theorem evalNary_comes (henv : ∀ v ∈ env, InInt32 v) (k : NaryOp) : (ops : List IExpr) →
    machineList ops → ∀ acc, InInt32 acc →
    Comes (evalNary env k acc ops) (Is ((exactNary (ofState env) k ops).map (k.eval acc)))
      (Says env (collectList ops) (collectArraysList ops))
  | [], _ => fun acc hacc => .of_some (congrArg some (k.eval_neutral acc)) hacc
  | x :: xs, hm => by
    intro acc _
    have hx := (evalInt_comes henv x hm.1).mono (fun _ h => h) fun _ h =>
      h.mono (fun p => List.mem_append_left (collectList xs))
        fun p => List.mem_append_left (collectArraysList xs)
    refine hx.bind fun v hv => ?_
    rw [exactNary, hv.1]
    cases v with
    | none => exact .of_none rfl
    | some v =>
      have hc := (check32_overflows (k.eval acc v)).mono (fun _ h => h) fun _ h =>
        h.says env (collectList (x :: xs)) (collectArraysList (x :: xs))
      refine hc.bind ?_
      rintro _ ⟨rfl, hfit⟩
      refine (evalNary_comes henv k xs hm.2 _ hfit).mono (fun y hy => ?_) fun _ h =>
        h.mono (fun p => List.mem_append_right (collect x))
          fun p => List.mem_append_right (collectArrays x)
      cases hn : exactNary (ofState env) k xs with
      | none => rwa [hn] at hy
      | some w =>
        rw [hn, Option.map_some, k.eval_assoc] at hy
        exact hy

theorem evalBool_comes (henv : ∀ v ∈ env, InInt32 v) : (b : BExpr) → b.Machine →
    Comes (evalBool env b) (exactBool (ofState env) b = ·)
      (Says env (collectBool b) (collectArraysBool b))
  | .bfalse, _ => rfl
  | .btrue, _ => rfl
  | .bundef, _ => rfl
  | .cmp k l r, hm => by
    have hl := (evalInt_comes henv l hm.1).mono (fun _ h => h) fun _ h =>
      h.mono (fun p => List.mem_append_left (collect r))
        fun p => List.mem_append_left (collectArrays r)
    have hr := (evalInt_comes henv r hm.2).mono (fun _ h => h) fun _ h =>
      h.mono (fun p => List.mem_append_right (collect l))
        fun p => List.mem_append_right (collectArrays l)
    refine hl.bind fun x hx => ?_
    rw [exactBool, hx.1]
    cases x with
    | none => rfl
    | some x =>
      refine hr.bind fun y hy => ?_
      rw [hy.1]
      cases y <;> rfl
  | .conn k ops, hm => by
    refine (evalConn_comes henv k ops hm false).mono (fun t ht => ?_) fun _ h => h
    rw [exactBool, ← ht]
    exact (k.neutral_step _).symm
  | .neg a, hm => by
    refine (evalBool_comes henv a hm).bind fun t ht => ?_
    show exactBool (ofState env) (.neg a) = t.not
    rw [exactBool, ht]

theorem evalConn_comes (henv : ∀ v ∈ env, InInt32 v) (k : ConnOp) : (ops : List BExpr) →
    machineBools ops → ∀ saw : Bool,
    Comes (evalConn env k saw ops)
      (k.step (if saw then .undef else k.decisive.not) (exactConn (ofState env) k ops) = ·)
      (Says env (collectBoolList ops) (collectArraysBoolList ops))
  | [], _ => fun saw => by
    cases saw <;> cases k <;> rfl
  | x :: xs, hm => by
    intro saw
    have hx := (evalBool_comes henv x hm.1).mono (fun _ h => h) fun _ h =>
      h.mono (fun p => List.mem_append_left (collectBoolList xs))
        fun p => List.mem_append_left (collectArraysBoolList xs)
    refine hx.bind fun t ht => ?_
    rw [exactConn, ht]
    split
    · next hd =>
      show k.step _ (k.step t _) = k.decisive
      rw [decisive_step hd, k.step_comm, decisive_step rfl]
    · next hd =>
      refine (evalConn_comes henv k xs hm.2 _).mono (fun u hu => ?_) fun _ h =>
        h.mono (fun p => List.mem_append_right (collectBool x))
          fun p => List.mem_append_right (collectArraysBool x)
      rw [← hu]
      exact (step_saw hd).symm

end

end Evaluator

/-! ## The two evaluators -/

theorem access_nil (env : Word) :
    (ofState env).access [] = (Reading.ofEnv env).access [] := by
  funext i
  simp [ofState, Reading.ofEnv]

section Scalars

variable {env : Word}

mutual

/-- Without cells, a state is read as an environment is. -/
theorem exactInt_scalars : (e : IExpr) → collectArrays e = [] →
    exactInt (ofState env) e = exactInt (.ofEnv env) e
  | .undef, _ => rfl
  | .const _, _ => rfl
  | .var _, _ => rfl
  | .nary k ops, h => exactNary_scalars k ops h
  | .binary k a b, h => by
    obtain ⟨ha, hb⟩ := List.append_eq_nil_iff.mp h
    rw [exactInt, exactInt, exactInt_scalars a ha, exactInt_scalars b hb]
  | .bitComp a, h => by rw [exactInt, exactInt, exactInt_scalars a h]
  | .array cells index, h => by
    obtain ⟨rfl, hi⟩ := List.append_eq_nil_iff.mp h
    rw [exactInt, exactInt, exactInt_scalars index hi, access_nil]
  | .wrapBool b, h => by rw [exactInt, exactInt, exactBool_scalars b h]

theorem exactNary_scalars (k : NaryOp) : (ops : List IExpr) → collectArraysList ops = [] →
    exactNary (ofState env) k ops = exactNary (.ofEnv env) k ops
  | [], _ => rfl
  | x :: xs, h => by
    obtain ⟨hx, hxs⟩ := List.append_eq_nil_iff.mp h
    rw [exactNary, exactNary, exactInt_scalars x hx, exactNary_scalars k xs hxs]

theorem exactBool_scalars : (b : BExpr) → collectArraysBool b = [] →
    exactBool (ofState env) b = exactBool (.ofEnv env) b
  | .bfalse, _ => rfl
  | .btrue, _ => rfl
  | .bundef, _ => rfl
  | .cmp k l r, h => by
    obtain ⟨hl, hr⟩ := List.append_eq_nil_iff.mp h
    rw [exactBool, exactBool, exactInt_scalars l hl, exactInt_scalars r hr]
  | .conn k ops, h => exactConn_scalars k ops h
  | .neg a, h => by rw [exactBool, exactBool, exactBool_scalars a h]

theorem exactConn_scalars (k : ConnOp) : (ops : List BExpr) → collectArraysBoolList ops = [] →
    exactConn (ofState env) k ops = exactConn (.ofEnv env) k ops
  | [], _ => rfl
  | x :: xs, h => by
    obtain ⟨hx, hxs⟩ := List.append_eq_nil_iff.mp h
    rw [exactConn, exactConn, exactBool_scalars x hx, exactConn_scalars k xs hxs]

end

end Scalars

/-- Neither evaluator reports an overflow. -/
def NoOverflow {α : Type} (x : Except EvalError α) (y : Except Err α) : Prop :=
  (∀ v, x ≠ .error (.overflow v)) ∧ y ≠ .error .overflow

/-- Both return, and the same. -/
def SameValue {α : Type} (x : Except EvalError α) (y : Except Err α) : Prop :=
  ∃ a, x = .ok a ∧ y = .ok a

/-- Two evaluations of one exact value that are loud in their own ways. -/
theorem sameValue_iff {α : Type} {x : Except EvalError α} {y c : Except Err α} {m : α}
    {env : Word} {reads : List Nat} {t : Bool}
    (hx : Comes x (m = ·) (Says env reads [])) (hok : ∀ a, y = .ok a → m = a)
    (hy : y = if t then .error .undefinedBehaviour else c)
    (hc : ∀ er, c = .error er → Loud env reads er) (hin : ∀ p ∈ reads, p < env.length)
    (hno : NoOverflow x y) : SameValue x y ↔ t = false := by
  cases t with
  | true =>
    refine iff_of_false ?_ (by simp)
    rintro ⟨a, -, ha⟩
    rw [if_pos rfl] at hy
    rw [hy] at ha
    cases ha
  | false =>
    refine iff_of_true ?_ rfl
    replace hy : y = c := hy
    have hxok : ∃ a, x = .ok a := by
      cases x with
      | ok a => exact ⟨a, rfl⟩
      | error er =>
        exfalso
        cases er with
        | overflow v => exact hno.1 v rfl
        | outside p arity => exact absurd hx.2.1 (Nat.not_le.mpr (hin p hx.1))
        | undefinedBehaviour =>
          obtain ⟨p, hp, -⟩ := hx
          cases hp
        | _ => exact hx
    have hyok : ∃ a, y = .ok a := by
      cases hy' : y with
      | ok a => exact ⟨a, rfl⟩
      | error er =>
        exfalso
        rcases hc er (hy.symm.trans hy') with rfl | ⟨-, p, hp, hlen⟩
        · exact hno.2 hy'
        · exact absurd hlen (Nat.not_le.mpr (hin p hp))
    obtain ⟨a, ha⟩ := hxok
    obtain ⟨b, hb⟩ := hyok
    refine ⟨a, ha, ?_⟩
    rw [hb, ← hok b hb, hx.of_ok ha]

theorem evalInt_same {env : Word} {e : IExpr} (henv : ∀ v ∈ env, InInt32 v) (he : e.Machine)
    (hin : ∀ p ∈ collect e, p < env.length) (harr : collectArrays e = [])
    (hno : NoOverflow (evalInt env e) (Lia.evalInt env e)) :
    SameValue (evalInt env e) (Lia.evalInt env e) ↔ e.traps env = false := by
  have hx := evalInt_comes henv e he
  rw [harr] at hx
  refine sameValue_iff (hx.mono (fun _ h => h.1) fun _ h => h) (fun a ha => ?_)
    (evalInt_eq henv e he) (checkedInt_error e) hin hno
  rw [exactInt_scalars e harr]
  exact Lia.evalInt_exact e a ha

theorem evalBool_same {env : Word} {b : BExpr} (henv : ∀ v ∈ env, InInt32 v) (hb : b.Machine)
    (hin : ∀ p ∈ collectBool b, p < env.length) (harr : collectArraysBool b = [])
    (hno : NoOverflow (evalBool env b) (Lia.evalBool env b)) :
    SameValue (evalBool env b) (Lia.evalBool env b) ↔ b.traps env = false := by
  have hx := evalBool_comes henv b hb
  rw [harr] at hx
  refine sameValue_iff hx (fun a ha => ?_) (evalBool_eq henv b hb) (checkedBool_error b) hin hno
  rw [exactBool_scalars b harr]
  exact Lia.evalBool_exact b a ha

/-- The explicit evaluator is exact in the machine or loud, and agrees with the symbolic one
wherever that one does not come to an operation the machine leaves undefined. -/
theorem explicit_evaluation {env : Word} (henv : ∀ v ∈ env, InInt32 v) :
    (∀ e : IExpr, e.Machine → Comes (evalInt env e) (Is (exactInt (ofState env) e))
        (Says env (collect e) (collectArrays e)) ∧
      ((∀ p ∈ collect e, p < env.length) → collectArrays e = [] →
        NoOverflow (evalInt env e) (Lia.evalInt env e) →
        (SameValue (evalInt env e) (Lia.evalInt env e) ↔ e.traps env = false))) ∧
    (∀ b : BExpr, b.Machine → Comes (evalBool env b) (exactBool (ofState env) b = ·)
        (Says env (collectBool b) (collectArraysBool b)) ∧
      ((∀ p ∈ collectBool b, p < env.length) → collectArraysBool b = [] →
        NoOverflow (evalBool env b) (Lia.evalBool env b) →
        (SameValue (evalBool env b) (Lia.evalBool env b) ↔ b.traps env = false))) :=
  ⟨fun e he => ⟨evalInt_comes henv e he, evalInt_same henv he⟩,
    fun b hb => ⟨evalBool_comes henv b hb, evalBool_same henv hb⟩⟩

/-- A guard that is false of a negative value before its cube is read and divided. -/
def cubeGuard : BExpr :=
  .conn .conj [.cmp .geq (.var 0) (.const 0),
    .cmp .gt (.binary .div (.binary .pow (.var 0) (.const 3)) (.const (-1))) (.const 0)]

theorem cubeGuard_machine : cubeGuard.Machine :=
  ⟨⟨trivial, show InInt32 0 by decide⟩,
    ⟨⟨⟨trivial, show InInt32 3 by decide⟩, show InInt32 (-1) by decide⟩,
      show InInt32 0 by decide⟩, trivial⟩

theorem explicit_evaluation_cube :
    SameValue (evalBool [-1000] cubeGuard) (Lia.evalBool [-1000] cubeGuard) := by
  have henv : ∀ v ∈ [(-1000 : Int)], InInt32 v := by decide
  have hx : evalBool [-1000] cubeGuard = .ok .no := rfl
  have hy : Lia.evalBool [-1000] cubeGuard = .ok .no := rfl
  have hno : NoOverflow (evalBool [-1000] cubeGuard) (Lia.evalBool [-1000] cubeGuard) := by
    rw [hx, hy]
    exact ⟨fun v h => (by cases h), fun h => (by cases h)⟩
  exact (((explicit_evaluation henv).2 cubeGuard cubeGuard_machine).2 (by decide) rfl hno).mpr
    (by decide +kernel)

/-- The cube of -2^21 is the least 64-bit value. The explicit evaluator stops before the
difference, the symbolic one does not. -/
theorem spared_operand_traps :
    (∀ v ∈ [(-2097152 : Int)], InInt32 v) ∧ cubeGuard.Machine ∧
    collectArraysBool cubeGuard = [] ∧
    NoOverflow (evalBool [-2097152] cubeGuard) (Lia.evalBool [-2097152] cubeGuard) ∧
    ¬ SameValue (evalBool [-2097152] cubeGuard) (Lia.evalBool [-2097152] cubeGuard) := by
  have hx : evalBool [-2097152] cubeGuard = .ok .no := rfl
  have hy : Lia.evalBool [-2097152] cubeGuard = .error .undefinedBehaviour := rfl
  rw [hx, hy]
  refine ⟨by decide, cubeGuard_machine, rfl, ⟨fun v h => ?_, fun h => ?_⟩, ?_⟩
  · cases h
  · cases h
  · rintro ⟨a, -, h⟩
    cases h

end LibHSC.Xpl
