import LibHSC.Dve.Translate
import LibHSC.Lia.Normal
import LibHSC.Xpl.Exact
import LibHSC.Surface.Numerals

/-!
What the expression reader makes of a form, given what it makes of the operands. A form
that is refused is refused loudly: a folded constant leaves the machine, or a numeral does.
-/

namespace LibHSC.Dve

open Lia Surface Xpl

/-! ## Read expressions -/

mutual

theorem normal_machine : (e : IExpr) → e.Normal → e.Machine
  | .undef, _ => trivial
  | .const _, h => h
  | .var _, _ => trivial
  | .nary _ ops, h => normalList_machine ops h.1
  | .binary _ a b, h => ⟨normal_machine a h.1, normal_machine b h.2.1⟩
  | .bitComp a, h => normal_machine a h.1
  | .array _ index, h => normal_machine index h.1
  | .wrapBool b, h => normalBool_machine b h.1

theorem normalList_machine : (xs : List IExpr) → IExpr.NormalList xs → machineList xs
  | [], _ => trivial
  | x :: xs, h => ⟨normal_machine x h.1, normalList_machine xs h.2⟩

theorem normalBool_machine : (b : BExpr) → b.Normal → b.Machine
  | .bfalse, _ => trivial
  | .btrue, _ => trivial
  | .bundef, _ => trivial
  | .cmp _ l r, h => ⟨normal_machine l h.1, normal_machine r h.2.1⟩
  | .conn _ ops, h => normalBools_machine ops h.1
  | .neg a, h => normalBool_machine a h.1

theorem normalBools_machine : (xs : List BExpr) → BExpr.NormalList xs → machineBools xs
  | [], _ => trivial
  | x :: xs, h => ⟨normalBool_machine x h.1, normalBools_machine xs h.2⟩

end

/-- An expression of the factory that names positions of the state. -/
structure Good (env : Xpl.Word) (e : IExpr) : Prop where
  normal : e.Normal
  within : e.Within (· < env.length) (· < env.length)

structure GoodBool (env : Xpl.Word) (b : BExpr) : Prop where
  normal : b.Normal
  within : b.Within (· < env.length) (· < env.length)

/-- The reader refuses loudly. -/
def Loud (er : BuildError) : Prop :=
  er = .factory .overflow ∨
    ∃ line c, ¬ InInt32 c ∧ er = .translate line ("unknown leaf '" ++ toString c ++ "'")

section Forms

variable {R : ExprIds} {sc : Scope} {env : Xpl.Word}

/-- Read in integer position, the datum has the value where there is one. -/
def ReadsInt (R : ExprIds) (sc : Scope) (env : Xpl.Word) (d : Datum) (v : Option Int) : Prop :=
  Comes (readInt R sc d) (fun x => Good env x ∧ Below v (exactInt (ofState env) x)) Loud

/-- Read in boolean position. -/
def ReadsBool (R : ExprIds) (sc : Scope) (env : Xpl.Word) (d : Datum) (t : Truth) : Prop :=
  Comes (readBool R sc d) (fun b => GoodBool env b ∧ t.Below (exactBool (ofState env) b)) Loud

theorem ReadsInt.mono {d : Datum} {v w : Option Int} (h : ReadsInt R sc env d w)
    (hb : Below v w) : ReadsInt R sc env d v :=
  Comes.mono h (fun _ hx => ⟨hx.1, hb.trans hx.2⟩) fun _ he => he

theorem ReadsBool.mono {d : Datum} {t u : Truth} (h : ReadsBool R sc env d u) (hb : t.Below u) :
    ReadsBool R sc env d t :=
  Comes.mono h (fun _ hx => ⟨hx.1, hb.trans hx.2⟩) fun _ he => he

theorem comes_made {x : Except Err IExpr} {P : IExpr → Prop} (h : ∀ a, x = .ok a → P a)
    (he : ∀ er, x = .error er → er = .overflow) : Comes (made x) P Loud := by
  cases x with
  | ok a => exact h a rfl
  | error er => exact .inl (congrArg _ (he er rfl))

/-! ## Integer forms -/

theorem exactNary_pair (ρ : Reading) (k : NaryOp) (a b : IExpr) :
    exactNary ρ k [a, b] = k.exact (exactInt ρ a) (exactInt ρ b) := by
  rw [exactNary, exactNary, exactNary, k.exact_neutral]

/-- The operator of a sum or a product form. -/
def naryOp : String → Option NaryOp
  | "+" => some .plus
  | "*" => some .mult
  | _ => none

theorem readInt_pair {op : String} {da db : Datum} {l n : Int} (hop : isBoolHead op = false)
    (hat : op ≠ "at") (hcomp : op ≠ "~") :
    readInt R sc (.list [.atom op l, da, db] n) =
      readInt R sc da >>= fun a => readInt R sc db >>= fun b =>
        if op = "+" then made (nary R .plus [a, b])
        else if op = "*" then made (nary R .mult [a, b])
        else
          match binaryOp op with
          | some k => made (binary k a b)
          | none => Surface.fail (.list [.atom op l, da, db] n)
              ("unknown operator '" ++ op ++ "'") := by
  have hhead : (Datum.list [.atom op l, da, db] n).head = op := rfl
  rw [readInt]
  simp only [hhead, hop, Bool.false_eq_true, if_false]
  unfold intForm
  rw [if_neg hat, if_neg hcomp]
  rfl

theorem readsInt_binary {op : String} {k : BinOp} {da db : Datum} {va vb : Option Int} {l n : Int}
    (hk : binaryOp op = some k) (ha : ReadsInt R sc env da va) (hb : ReadsInt R sc env db vb) :
    ReadsInt R sc env (.list [.atom op l, da, db] n)
      (va.bind fun x => vb.bind (foldExact k x)) := by
  have hother : isBoolHead op = false ∧ op ≠ "at" ∧ op ≠ "~" ∧ op ≠ "+" ∧ op ≠ "*" := by
    unfold binaryOp at hk
    split at hk <;> first | decide | cases hk
  obtain ⟨hop, hat, hcomp, hplus, hmult⟩ := hother
  unfold ReadsInt
  rw [readInt_pair hop hat hcomp]
  refine Comes.bind ha fun a ⟨hga, hva⟩ => Comes.bind hb fun b ⟨hgb, hvb⟩ => ?_
  rw [if_neg hplus, if_neg hmult]
  simp only [hk]
  refine comes_made (fun x hx => ?_) fun er he => binary_error hga.normal hgb.normal he
  refine ⟨⟨binary_normal hga.normal hgb.normal hx, binary_within hga.within hgb.within hx⟩, ?_⟩
  rw [binary_exact hx]
  intro v hv
  obtain ⟨x, hx, hv⟩ := Option.bind_eq_some_iff.mp hv
  obtain ⟨y, hy, hv⟩ := Option.bind_eq_some_iff.mp hv
  rw [hva x hx, hvb y hy]
  exact hv

theorem readsInt_nary {op : String} {k : NaryOp} {da db : Datum} {va vb : Option Int} {l n : Int}
    (hk : naryOp op = some k) (ha : ReadsInt R sc env da va) (hb : ReadsInt R sc env db vb) :
    ReadsInt R sc env (.list [.atom op l, da, db] n) (k.exact va vb) := by
  have hop : op = "+" ∧ k = .plus ∨ op = "*" ∧ k = .mult := by
    unfold naryOp at hk
    split at hk
    · exact .inl ⟨rfl, (Option.some.inj hk).symm⟩
    · exact .inr ⟨rfl, (Option.some.inj hk).symm⟩
    · cases hk
  have hmade : ∀ {a b : IExpr}, Good env a → Good env b → Below va (exactInt (ofState env) a) →
      Below vb (exactInt (ofState env) b) → Comes (made (nary R k [a, b]))
        (fun x => Good env x ∧ Below (k.exact va vb) (exactInt (ofState env) x)) Loud := by
    intro a b hga hgb hva hvb
    have hall : ∀ {P : IExpr → Prop}, P a → P b → ∀ x ∈ [a, b], P x := fun h1 h2 =>
      List.forall_mem_cons.mpr ⟨h1, List.forall_mem_singleton.mpr h2⟩
    refine comes_made (fun x hx => ?_) fun er he => nary_error he
    refine ⟨⟨nary_normal ?_ hx, nary_within ?_ hx⟩, ?_⟩
    · exact hall hga.normal hgb.normal
    · exact hall hga.within hgb.within
    · refine Below.trans (k.exact_mono hva hvb) ?_
      rw [← exactNary_pair]
      exact nary_below hx _
  unfold ReadsInt
  rcases hop with ⟨rfl, rfl⟩ | ⟨rfl, rfl⟩
  · rw [readInt_pair (by decide) (by decide) (by decide)]
    refine Comes.bind ha fun a ⟨hga, hva⟩ => Comes.bind hb fun b ⟨hgb, hvb⟩ => ?_
    exact hmade hga hgb hva hvb
  · rw [readInt_pair (by decide) (by decide) (by decide)]
    refine Comes.bind ha fun a ⟨hga, hva⟩ => Comes.bind hb fun b ⟨hgb, hvb⟩ => ?_
    exact hmade hga hgb hva hvb

theorem readsInt_comp {da : Datum} {va : Option Int} {l n : Int} (ha : ReadsInt R sc env da va) :
    ReadsInt R sc env (.list [.atom "~" l, da] n) (va.map fun v => -v - 1) := by
  have hread : readInt R sc (.list [.atom "~" l, da] n) =
      (do return bitComp (← readInt R sc da)) := rfl
  unfold ReadsInt
  rw [hread]
  refine Comes.bind ha fun a ⟨hga, hva⟩ =>
    ⟨⟨bitComp_normal hga.normal, bitComp_within hga.within⟩, ?_⟩
  rw [bitComp_exact]
  intro v hv
  obtain ⟨w, hw, rfl⟩ := Option.map_eq_some_iff.mp hv
  rw [hva w hw]
  rfl

/-- An access to cells that lie in the state. -/
theorem readsInt_at {name : String} {cells : List Nat} {da : Datum} {va : Option Int}
    {l l' n : Int} (hc : sc.array name = some cells) (hin : ∀ q ∈ cells, q < env.length)
    (ha : ReadsInt R sc env da va) :
    ReadsInt R sc env (.list [.atom "at" l, .atom name l', da] n)
      (va.bind ((ofState env).access cells)) := by
  have hread : readInt R sc (.list [.atom "at" l, .atom name l', da] n) =
      (do return Lia.array cells (← readInt R sc da)) := by
    have hhead : (Datum.list [.atom "at" l, .atom name l', da] n).head = "at" := rfl
    rw [readInt]
    simp only [hhead, show isBoolHead "at" = false by decide, Bool.false_eq_true, if_false]
    unfold intForm
    rw [if_pos rfl]
    simp only [readInts, Datum.text, hc]
  unfold ReadsInt
  rw [hread]
  refine Comes.bind ha fun a hread => ?_
  obtain ⟨hga, hva⟩ := hread
  refine ⟨⟨array_normal hga.normal, array_within (fun q hq => ⟨hin q hq, hin q hq⟩) hga.within⟩, ?_⟩
  have haccess : ∀ i, (ofState env).access cells i = (cellAt cells i).bind (ofState env).pos := by
    intro i
    unfold ofState cellAt
    dsimp only
    split <;> rfl
  intro v hv
  obtain ⟨i, hi, hv⟩ := Option.bind_eq_some_iff.mp hv
  rcases array_exact (ofState env) cells a with heq | ⟨j, rfl, heq⟩
  · rw [heq, hva i hi]
    exact hv
  · have hij : some j = some i := hva i hi
    rw [heq, Option.some.inj hij, ← haccess]
    exact hv

/-! ## Boolean forms -/

theorem readBool_head {op : String} {xs : List Datum} {l n : Int} (hop : isBoolHead op = true) :
    readBool R sc (.list (.atom op l :: xs) n) =
      boolForm R (.list (.atom op l :: xs) n) op xs (readInts R sc xs) (readBools R sc xs) := by
  have hhead : (Datum.list (.atom op l :: xs) n).head = op := rfl
  rw [readBool]
  simp only [hhead, hop, if_true]

theorem readsBool_compare {op : String} {k : CmpOp} {da db : Datum} {va vb : Option Int}
    {l n : Int} (hk : comparison op = some k) (ha : ReadsInt R sc env da va)
    (hb : ReadsInt R sc env db vb) :
    ReadsBool R sc env (.list [.atom op l, da, db] n) (cmpExact k va vb) := by
  have hread : readBool R sc (.list [.atom op l, da, db] n) =
      (do return compare R k (← readInt R sc da) (← readInt R sc db)) := by
    rw [readBool_head (by simp [isBoolHead, hk])]
    unfold boolForm
    rw [hk]
    rfl
  unfold ReadsBool
  rw [hread]
  refine Comes.bind ha fun a ⟨hga, hva⟩ => Comes.bind hb fun b ⟨hgb, hvb⟩ => ?_
  refine ⟨⟨compare_normal hga.normal hgb.normal, compare_within hga.within hgb.within⟩, ?_⟩
  exact (cmpExact_mono k hva hvb).trans (compare_below R _ k a b)

def connOp : String → Option ConnOp
  | "and" => some .conj
  | "or" => some .disj
  | _ => none

theorem exactConn_pair (ρ : Reading) (k : ConnOp) (a b : BExpr) :
    exactConn ρ k [a, b] = k.step (exactBool ρ a) (exactBool ρ b) := by
  rw [exactConn, exactConn, exactConn, k.step_neutral]

/-- A connective of two operands. -/
theorem good_conn {k : ConnOp} {a b : BExpr} {ta tb : Truth} (hga : GoodBool env a)
    (hgb : GoodBool env b) (hta : ta.Below (exactBool (ofState env) a))
    (htb : tb.Below (exactBool (ofState env) b)) : GoodBool env (conn R k [a, b]) ∧
      (k.step ta tb).Below (exactBool (ofState env) (conn R k [a, b])) := by
  have hall : ∀ {P : BExpr → Prop}, P a → P b → ∀ x ∈ [a, b], P x := fun h1 h2 =>
    List.forall_mem_cons.mpr ⟨h1, List.forall_mem_singleton.mpr h2⟩
  refine ⟨⟨conn_normal (hall hga.normal hgb.normal), conn_within (hall hga.within hgb.within)⟩, ?_⟩
  rw [conn_exact, exactConn_pair]
  exact k.step_mono hta htb

theorem readsBool_conn {op : String} {k : ConnOp} {da db : Datum} {ta tb : Truth} {l n : Int}
    (hk : connOp op = some k) (ha : ReadsBool R sc env da ta) (hb : ReadsBool R sc env db tb) :
    ReadsBool R sc env (.list [.atom op l, da, db] n) (k.step ta tb) := by
  have hread : readBool R sc (.list [.atom op l, da, db] n) = (do
      let a ← readBool R sc da
      let b ← readBool R sc db
      return conn R k [a, b]) := by
    unfold connOp at hk
    split at hk
    · cases hk
      rw [readBool_head (by decide)]
      simp [boolForm, comparison, readBools]
    · cases hk
      rw [readBool_head (by decide)]
      simp [boolForm, comparison, readBools]
    · cases hk
  unfold ReadsBool
  rw [hread]
  exact Comes.bind ha fun a ⟨hga, hta⟩ => Comes.bind hb fun b ⟨hgb, htb⟩ =>
    good_conn hga hgb hta htb

theorem readsBool_not {da : Datum} {ta : Truth} {l n : Int} (ha : ReadsBool R sc env da ta) :
    ReadsBool R sc env (.list [.atom "not" l, da] n) ta.not := by
  have hread : readBool R sc (.list [.atom "not" l, da] n) =
      (do return neg R (← readBool R sc da)) := by
    rw [readBool_head (by decide)]
    rfl
  unfold ReadsBool
  rw [hread]
  refine Comes.bind ha fun a ⟨hga, hta⟩ => ⟨⟨neg_normal hga.normal, neg_within hga.within⟩, ?_⟩
  exact (Truth.not_mono hta).trans (neg_below R _ a)

theorem readsBool_imply {da db : Datum} {ta tb : Truth} {l n : Int}
    (ha : ReadsBool R sc env da ta) (hb : ReadsBool R sc env db tb) :
    ReadsBool R sc env (.list [.atom "imply" l, da, db] n) (ConnOp.disj.step ta.not tb) := by
  have hread : readBool R sc (.list [.atom "imply" l, da, db] n) = (do
      let a ← readBool R sc da
      let b ← readBool R sc db
      return conn R .disj [neg R a, b]) := by
    rw [readBool_head (by decide)]
    rfl
  unfold ReadsBool
  rw [hread]
  refine Comes.bind ha fun a ⟨hga, hta⟩ => Comes.bind hb fun b ⟨hgb, htb⟩ => ?_
  exact good_conn ⟨neg_normal hga.normal, neg_within hga.within⟩ hgb
    ((Truth.not_mono hta).trans (neg_below R _ a)) htb

/-! ## Between the positions -/

/-- A boolean form reads as 0 or 1 in integer position. -/
theorem readsInt_wrap {op : String} {xs : List Datum} {t : Truth} {l n : Int}
    (hop : isBoolHead op = true) (h : ReadsBool R sc env (.list (.atom op l :: xs) n) t) :
    ReadsInt R sc env (.list (.atom op l :: xs) n) t.toInt := by
  have hread : readInt R sc (.list (.atom op l :: xs) n) =
      (do return wrap (← readBool R sc (.list (.atom op l :: xs) n))) := by
    have hhead : (Datum.list (.atom op l :: xs) n).head = op := rfl
    rw [readBool_head hop, readInt]
    simp only [hhead, hop, if_true]
  unfold ReadsInt
  rw [hread]
  refine Comes.bind h fun b ⟨hgb, hb⟩ => ⟨⟨wrap_normal hgb.normal, wrap_within hgb.within⟩, ?_⟩
  rw [wrap_exact]
  exact Truth.toInt_mono hb

/-- Another form reads as a comparison with zero in boolean position. -/
theorem readsBool_nonzero {d : Datum} {v : Option Int} (hd : isBoolHead d.head = false)
    (h : ReadsInt R sc env d v) : ReadsBool R sc env d (cmpExact .neq v (some 0)) := by
  have hread : readBool R sc d = (do return compare R .neq (← readInt R sc d) (.const 0)) := by
    cases d with
    | atom s n => rfl
    | list items n =>
      cases items with
      | nil => rfl
      | cons x xs =>
        rw [readBool, readInt]
        simp only [hd, Bool.false_eq_true, if_false]
  unfold ReadsBool
  rw [hread]
  refine Comes.bind h fun x ⟨hgx, hx⟩ => ?_
  refine ⟨⟨compare_normal hgx.normal (show InInt32 0 by decide),
    compare_within hgx.within (IExpr.within_const 0)⟩, ?_⟩
  exact (cmpExact_mono .neq hx (.refl _)).trans (compare_below R _ .neq x (.const 0))

end Forms

end LibHSC.Dve
