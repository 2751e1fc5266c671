import LibHSC.Dve.Reading

/-!
The translated expressions mean what the DVE ones do. The translation is read as an
expression whose value is the C-like value wherever there is one, or it is refused because
a folded constant leaves the machine.
-/

namespace LibHSC.Dve

open Lia Surface Xpl

/-! ## Valuations as states -/

/-- The text is no numeral. -/
def NoNumeral (name : String) : Prop := wholeLong name = none

/-- A leaf of that name holds the value. -/
structure LeafAt (sc : Scope) (env : Xpl.Word) (name : String) (v : Int) : Prop where
  symbol : NoNumeral name
  holds : ∃ p, sc.position name = some p ∧ env[p]? = some v

/-- The cells of an array hold its values, by position and by name. -/
structure CellsAt (sc : Scope) (env : Xpl.Word) (info : LeafInfo) (vs : Nat → Int) : Prop where
  symbol : NoNumeral info.leaf
  cells : ∃ cells, sc.array info.leaf = some cells ∧ (cells.length : Int) = info.size ∧
    ∀ i q, cells[i]? = some q → env[q]? = some (vs i)
  names : ∀ i : Nat, (i : Int) < info.size → LeafAt sc env (cellName info.leaf i) (vs i)

/-- The state holds the valuation under the names of the leaves. -/
structure Represents (N : Names) (sc : Scope) (env : Xpl.Word) (σ : Valuation) : Prop where
  scalar : ∀ key info, N.vars key = some info → info.isArray = false →
    LeafAt sc env info.leaf (σ.scalar key)
  array : ∀ key info, N.vars key = some info → info.isArray = true →
    CellsAt sc env info (σ.cell key)
  control : ∀ p ∈ N.processes, LeafAt sc env (p.name ++ "_state") (σ.control p.name)
  numeral : ∀ v : Int, sc.position (toString v) = none ∧ sc.array (toString v) = none

/-! ## Expressions -/

/-- The operators stand where the grammar has them. -/
def Expr.Formed : Expr → Prop
  | .unary op a _ => (op = .not_ ∨ op = .neg ∨ op = .comp) ∧ a.Formed
  | .binary op a b _ => op ≠ .not_ ∧ op ≠ .neg ∧ op ≠ .comp ∧ a.Formed ∧ b.Formed
  | .arrayRef _ a _ => a.Formed
  | _ => True

/-- The names an expression uses bare. -/
def Expr.names : Expr → List String
  | .name x _ => [x]
  | .arrayRef _ a _ => a.names
  | .unary _ a _ => a.names
  | .binary _ a b _ => a.names ++ b.names
  | _ => []

/-- Where a name is a constant, no variable of that name is declared in the same scope or,
for a global constant, in the process. -/
def Names.Clear (N : Names) (scope name : String) : Prop :=
  (N.findConst scope name).isSome → N.vars (scope, name) = none ∧
    (N.consts (scope, name) = none → N.vars ("", name) = none)

theorem Names.Clear.meaning {N : Names} {scope name : String} (h : N.Clear scope name) {c : Int}
    (hc : N.findConst scope name = some c) : N.meaning scope name = some (.constant c) := by
  obtain ⟨hv, hg⟩ := h (by rw [hc]; rfl)
  unfold Names.findConst at hc
  unfold Names.meaning Names.meaningAt
  by_cases hs : scope = ""
  · subst hs
    rw [if_neg (by simp)] at hc ⊢
    rw [hv, hc]
    rfl
  · rw [if_pos hs] at hc ⊢
    cases hlocal : N.consts (scope, name) with
    | some c' =>
      rw [hlocal] at hc
      cases hc
      rw [hv]
      rfl
    | none =>
      rw [hlocal] at hc
      rw [hv, hg hlocal, show N.consts ("", name) = some c from hc]
      rfl

/-- A name that is no constant stands for the variable it resolves to. -/
theorem meaning_variable {N : Names} {scope name : String} {key : Key} {info : LeafInfo}
    (hc : N.findConst scope name = none) (hv : N.findVar scope name = some (key, info)) :
    N.meaning scope name = some (.variable key info) := by
  unfold Names.findConst at hc
  unfold Names.findVar at hv
  unfold Names.meaning Names.meaningAt
  by_cases hs : scope = ""
  · subst hs
    rw [if_neg (by simp)] at hc hv ⊢
    obtain ⟨v, hv, heq⟩ := Option.map_eq_some_iff.mp hv
    cases heq
    rw [hv]
    rfl
  · rw [if_pos hs] at hc hv ⊢
    obtain ⟨hlocal, hglobal⟩ := Option.or_eq_none_iff.mp hc
    cases hvar : N.vars (scope, name) with
    | some v =>
      rw [hvar] at hv
      cases hv
      rfl
    | none =>
      rw [hvar] at hv
      obtain ⟨v, hv, heq⟩ := Option.map_eq_some_iff.mp hv
      cases heq
      rw [hlocal, hv]
      rfl

theorem findVar_vars {N : Names} {scope name : String} {key : Key} {info : LeafInfo}
    (h : N.findVar scope name = some (key, info)) : N.vars key = some info := by
  have hmap : ∀ {k : Key}, ((N.vars k).map fun v => (k, v)) = some (key, info) →
      N.vars key = some info := by
    intro k hk
    obtain ⟨v, hv, heq⟩ := Option.map_eq_some_iff.mp hk
    cases heq
    exact hv
  unfold Names.findVar at h
  split at h
  · rcases Option.or_eq_some_iff.mp h with h | ⟨-, h⟩
    · exact hmap h
    · exact hmap h
  · exact hmap h

theorem resolveVar_eq_ok {N : Names} {scope name : String} {line : Nat} {info : LeafInfo}
    (h : N.resolveVar scope name line = .ok info) :
    ∃ key, N.findVar scope name = some (key, info) := by
  unfold Names.resolveVar at h
  split at h
  · next key v hv =>
    cases h
    exact ⟨key, hv⟩
  · cases h

/-! ## Truth values -/

def truthOf : Option Int → Truth
  | none => .undef
  | some v => Truth.ofBool (v ≠ 0)

theorem truthOf_eq (v : Option Int) : cmpExact .neq v (some 0) = truthOf v := by
  cases v with
  | none => rfl
  | some v =>
    have hne : (v != 0) = decide (v ≠ 0) := Bool.eq_iff_iff.mpr (by simp)
    exact congrArg Truth.ofBool hne

theorem truthOf_truth (b : Bool) : truthOf (some (truth b)) = Truth.ofBool b := by
  cases b <;> rfl

theorem toInt_ofBool (b : Bool) : (Truth.ofBool b).toInt = some (truth b) := by
  cases b <;> rfl

theorem machine_below (v : Int) : Below (machine v) (some v) := by
  intro w hw
  unfold machine at hw
  split at hw
  · exact hw
  · cases hw

/-- A connective on values is the connective on their truth values: what decides it on the
left makes the right side irrelevant. -/
theorem connective_truth {op : Eop} (l : Int) (vb : Option Int) :
    (op = .and_ → truthOf ((decided op l).or (vb.map fun r => truth (r ≠ 0))) =
      ConnOp.conj.step (truthOf (some l)) (truthOf vb)) ∧
    (op = .or_ → truthOf ((decided op l).or (vb.map fun r => truth (r ≠ 0))) =
      ConnOp.disj.step (truthOf (some l)) (truthOf vb)) ∧
    (op = .imply → truthOf ((decided op l).or (vb.map fun r => truth (r ≠ 0))) =
      ConnOp.disj.step (truthOf (some l)).not (truthOf vb)) := by
  refine ⟨?_, ?_, ?_⟩ <;> rintro rfl <;> by_cases hl : l = 0 <;> cases vb with
  | none => simp [decided, truthOf, hl, ConnOp.step, ConnOp.decisive, Truth.ofBool, Truth.not]
  | some r =>
    by_cases hr : r = 0 <;>
      simp [decided, truthOf, truth, hl, hr, ConnOp.step, ConnOp.decisive, Truth.ofBool, Truth.not]

/-! ## Numerals and leaves -/

theorem asInt_wholeLong (s : String) (line : Int) : asInt (.atom s line) =
    (wholeLong s).filter fun n => decide (-2147483648 ≤ n ∧ n ≤ 2147483647) := by
  unfold asInt wholeLong
  rfl

theorem wholeLong_toString (v : Int) : wholeLong (toString v) = some v := signed_toString v

section Translation

variable {N : Names} {R : ExprIds} {sc : Scope} {env : Xpl.Word} {σ : Valuation} {scope : String}

/-- A numeral is read as its value, or refused. -/
theorem readsInt_num (hn : ∀ v : Int, sc.position (toString v) = none ∧
    sc.array (toString v) = none) (v : Int) (line : Nat) :
    ReadsInt R sc env (num v line) (some v) := by
  unfold ReadsInt num
  rw [readInt, readAtom, asInt_wholeLong, wholeLong_toString]
  by_cases hv : InInt32 v
  · rw [Option.filter_some_pos (by simpa [InInt32] using hv)]
    exact ⟨⟨hv, IExpr.within_const v⟩, .refl _⟩
  · rw [Option.filter_some_neg (by simpa [InInt32] using hv)]
    simp only [Datum.text, (hn v).1, (hn v).2, Option.isSome_none, Bool.false_eq_true, if_false]
    exact .inr ⟨_, v, hv, rfl⟩

/-- A leaf is read as the value it holds. -/
theorem readsInt_leaf {name : String} {v : Int} (h : LeafAt sc env name v) (line : Nat) :
    ReadsInt R sc env (atom name line) (some v) := by
  obtain ⟨p, hp, hv⟩ := h.holds
  have hasInt : asInt (.atom name line) = none := by
    rw [asInt_wholeLong, show wholeLong name = none from h.symbol]
    rfl
  have hlt := (List.getElem?_eq_some_iff.mp hv).1
  unfold ReadsInt atom
  rw [readInt, readAtom, hasInt]
  simp only [Datum.text, hp]
  exact ⟨⟨trivial, IExpr.within_var.mpr hlt⟩, fun w hw => hv.trans hw⟩

theorem constantIndex_num (v : Int) (line : Nat) : constantIndex (num v line) = some v := by
  unfold constantIndex num
  simp only [Datum.isAtom, Datum.text, if_true]
  exact wholeLong_toString v

theorem constantIndex_leaf {name : String} (h : NoNumeral name) (line : Nat) :
    constantIndex (atom name line) = none := by
  unfold constantIndex atom
  simp only [Datum.isAtom, Datum.text, if_true]
  exact h

/-- An index that is a numeral is a constant of that value. -/
theorem constantIndex_value (hσ : Represents N sc env σ) {e : Expr} {d : Datum} {i : Int}
    (hclear : ∀ x ∈ e.names, N.Clear scope x) (h : toInt N scope e = .ok d)
    (hi : constantIndex d = some i) : value N σ scope e = machine i := by
  have hleaf : ∀ {name : String} {line : Nat}, NoNumeral name → d = atom name line → False := by
    rintro name line hn rfl
    rw [constantIndex_leaf hn] at hi
    cases hi
  have hlist : ∀ {items : List Datum} {line : Nat}, d = list items line → False := by
    rintro items line rfl
    cases hi
  cases e with
  | number v line =>
    cases h
    rw [constantIndex_num] at hi
    cases hi
    rfl
  | name x line =>
    rw [toInt] at h
    split at h
    · next c hc =>
      cases h
      rw [constantIndex_num] at hi
      cases hi
      have hm := (hclear x (List.mem_singleton.mpr rfl)).meaning hc
      rw [value]
      simp only [hm]
    · obtain ⟨v, hv, h⟩ := bind_eq_ok.mp h
      obtain ⟨key, hkey⟩ := resolveVar_eq_ok hv
      split at h
      · cases h
      · next harr =>
        cases h
        have hl := hσ.scalar key v (findVar_vars hkey) (by simpa using harr)
        exact (hleaf hl.symbol rfl).elim
  | arrayRef x a line =>
    rw [toInt] at h
    obtain ⟨v, hv, h⟩ := bind_eq_ok.mp h
    obtain ⟨key, hkey⟩ := resolveVar_eq_ok hv
    split at h
    · cases h
    · next harr =>
      obtain ⟨idx, -, h⟩ := bind_eq_ok.mp h
      have hcells := hσ.array key v (findVar_vars hkey) (by simpa using harr)
      split at h
      · split at h
        · cases h
        · next j _ hj =>
          cases h
          obtain ⟨n, rfl⟩ := Int.eq_ofNat_of_zero_le (show 0 ≤ j by omega)
          exact (hleaf (hcells.names n (by omega)).symbol rfl).elim
      · cases h
        exact (hlist rfl).elim
  | procState name field line =>
    obtain ⟨p, -, h⟩ := bind_eq_ok.mp h
    obtain ⟨k, -, h⟩ := bind_eq_ok.mp h
    cases h
    exact (hlist rfl).elim
  | unary op a line =>
    rw [toInt] at h
    obtain ⟨da, -, h⟩ := bind_eq_ok.mp h
    cases h
    unfold unaryForm at hi
    split at hi <;> cases hi
  | binary op a b line =>
    rw [toInt] at h
    obtain ⟨da, -, h⟩ := bind_eq_ok.mp h
    obtain ⟨db, -, h⟩ := bind_eq_ok.mp h
    cases h
    exact (hlist rfl).elim

/-- A process state is a comparison of the leaf of its process. -/
theorem procAtom_reads (hσ : Represents N sc env σ) {name field : String} {line : Nat} {d : Datum}
    (h : procAtom N name field line = .ok d) :
    ReadsBool R sc env d (truthOf (value N σ scope (.procState name field line))) ∧
      ReadsInt R sc env d (value N σ scope (.procState name field line)) := by
  obtain ⟨p, hp, h⟩ := bind_eq_ok.mp h
  obtain ⟨k, hk, h⟩ := bind_eq_ok.mp h
  cases h
  have hfind : N.findProcess name = some p := by
    unfold Names.resolveProcess at hp
    split at hp
    · next q hq =>
      cases hp
      exact hq
    · cases hp
  obtain rfl : p.name = name := by simpa using List.find?_some hfind
  have hidx : (p.states.findIdx? fun s => s = field) = some k := by
    unfold stateIndex at hk
    split at hk
    · next i hi =>
      cases hk
      exact hi
    · cases hk
  have hvalue : value N σ scope (.procState p.name field line) =
      some (truth (decide (σ.control p.name = k))) := by
    rw [value, hfind, Option.bind_some, hidx]
    rfl
  have hleaf := hσ.control p (List.mem_of_find?_eq_some hfind)
  have hcmp : ReadsBool R sc env (list [atom "==" line, atom (p.name ++ "_state") line, num k line]
      line) (cmpExact .eq (some (σ.control p.name)) (some (k : Int))) :=
    readsBool_compare rfl (readsInt_leaf hleaf line) (readsInt_num hσ.numeral k line)
  have htruth : cmpExact .eq (some (σ.control p.name)) (some (k : Int)) =
      Truth.ofBool (decide (σ.control p.name = k)) :=
    congrArg Truth.ofBool (Bool.eq_iff_iff.mpr (by simp [cmpEval]))
  rw [htruth] at hcmp
  rw [hvalue, truthOf_truth]
  refine ⟨hcmp, ?_⟩
  have hint := readsInt_wrap rfl hcmp
  rwa [toInt_ofBool] at hint

/-! ## The translation -/

/-- What is read in integer position with a value has its truth value in boolean position. -/
def Reads (R : ExprIds) (sc : Scope) (env : Xpl.Word) (d : Datum) (v : Option Int) : Prop :=
  ReadsInt R sc env d v ∧ ReadsBool R sc env d (truthOf v)

theorem reads_int {d : Datum} {v w : Option Int} (hd : isBoolHead d.head = false)
    (h : ReadsInt R sc env d w) (hb : Below v w) : Reads R sc env d v := by
  have hv := h.mono hb
  have hbool := readsBool_nonzero hd hv
  rw [truthOf_eq] at hbool
  exact ⟨hv, hbool⟩

theorem reads_bool {op : String} {xs : List Datum} {l n : Int} {v : Option Int} {t : Truth}
    (hop : isBoolHead op = true) (h : ReadsBool R sc env (.list (.atom op l :: xs) n) t)
    (hb : (truthOf v).Below t) (h01 : ∀ w, v = some w → ∃ b, w = truth b) :
    Reads R sc env (.list (.atom op l :: xs) n) v := by
  have hbool := h.mono hb
  refine ⟨(readsInt_wrap hop hbool).mono fun w hw => ?_, hbool⟩
  obtain ⟨b, rfl⟩ := h01 w hw
  rw [hw, truthOf_truth, toInt_ofBool]

theorem bind_machine_below {va vb : Option Int} {f g : Int → Int → Option Int}
    (h : ∀ l r, Below (f l r) (g l r)) :
    Below (va.bind fun l => vb.bind (f l)) (va.bind fun l => vb.bind (g l)) := by
  intro w hw
  obtain ⟨l, hl, hw⟩ := Option.bind_eq_some_iff.mp hw
  obtain ⟨r, hr, hw⟩ := Option.bind_eq_some_iff.mp hw
  rw [hl, hr]
  exact h l r w hw

/-- The operators of the surface with two sides. -/
theorem readsInt_operator {op : Eop} {k : BinOp} {da db : Datum} {va vb : Option Int} {l n : Int}
    (hk : binaryOp (opText op) = some k) (ha : ReadsInt R sc env da va)
    (hb : ReadsInt R sc env db vb) (hval : ∀ x y, Below (binaryValue op x y) (foldExact k x y)) :
    ReadsInt R sc env (.list [.atom (opText op) l, da, db] n)
      (va.bind fun x => vb.bind (binaryValue op x)) :=
  (readsInt_binary hk ha hb).mono (bind_machine_below hval)

theorem readsInt_sum {op : Eop} {k : NaryOp} {da db : Datum} {va vb : Option Int} {l n : Int}
    (hk : naryOp (opText op) = some k) (ha : ReadsInt R sc env da va)
    (hb : ReadsInt R sc env db vb)
    (hval : ∀ x y, Below (binaryValue op x y) (some (k.eval x y))) :
    ReadsInt R sc env (.list [.atom (opText op) l, da, db] n)
      (va.bind fun x => vb.bind (binaryValue op x)) := by
  refine (readsInt_nary hk ha hb).mono fun w hw => ?_
  obtain ⟨x, hx, hw⟩ := Option.bind_eq_some_iff.mp hw
  obtain ⟨y, hy, hw⟩ := Option.bind_eq_some_iff.mp hw
  rw [hx, hy]
  exact hval x y w hw

theorem readsBool_comparison {op : Eop} {k : CmpOp} {da db : Datum} {va vb : Option Int}
    {l n : Int} (hk : comparison (opText op) = some k) (ha : ReadsInt R sc env da va)
    (hb : ReadsInt R sc env db vb)
    (hval : ∀ x y, binaryValue op x y = some (truth (cmpEval k x y))) :
    ReadsBool R sc env (.list [.atom (opText op) l, da, db] n)
      (truthOf (va.bind fun x => vb.bind (binaryValue op x))) := by
  refine (readsBool_compare hk ha hb).mono ?_
  cases va with
  | none => exact fun hn => absurd rfl hn
  | some x =>
    cases vb with
    | none => exact fun hn => absurd rfl hn
    | some y =>
      rw [Option.bind_some, Option.bind_some, hval, truthOf_truth]
      exact .refl _

theorem foldExact_below {c : Prop} [Decidable c] {v : Int} :
    Below (if c then none else machine v) (if c then none else some v) := by
  split
  · exact below_none _
  · exact machine_below v

/-- The operators of arithmetic and of bits. -/
def isArithmetic (op : Eop) : Bool :=
  op ∈ [.add, .sub, .mul, .div, .mod, .shl, .shr, .band, .bor, .bxor]

def isComparison (op : Eop) : Bool := op ∈ [.eq, .ne, .lt, .le, .gt, .ge]

theorem arithmetic_reads {op : Eop} {da db : Datum} {va vb : Option Int} {l n : Int}
    (hop : isArithmetic op = true) (ha : ReadsInt R sc env da va) (hb : ReadsInt R sc env db vb) :
    Reads R sc env (.list [.atom (opText op) l, da, db] n)
      (va.bind fun x => vb.bind (binaryValue op x)) := by
  cases op with
  | add => exact reads_int rfl (readsInt_sum rfl ha hb fun x y => machine_below _) (.refl _)
  | mul => exact reads_int rfl (readsInt_sum rfl ha hb fun x y => machine_below _) (.refl _)
  | sub => exact reads_int rfl (readsInt_operator rfl ha hb fun x y => machine_below _) (.refl _)
  | div => exact reads_int rfl (readsInt_operator rfl ha hb fun x y => foldExact_below) (.refl _)
  | mod => exact reads_int rfl (readsInt_operator rfl ha hb fun x y => foldExact_below) (.refl _)
  | shl => exact reads_int rfl (readsInt_operator rfl ha hb fun x y => foldExact_below) (.refl _)
  | shr => exact reads_int rfl (readsInt_operator rfl ha hb fun x y => foldExact_below) (.refl _)
  | band => exact reads_int rfl (readsInt_operator rfl ha hb fun x y => machine_below _) (.refl _)
  | bor => exact reads_int rfl (readsInt_operator rfl ha hb fun x y => machine_below _) (.refl _)
  | bxor => exact reads_int rfl (readsInt_operator rfl ha hb fun x y => machine_below _) (.refl _)
  | _ => cases hop

theorem comparison_reads {op : Eop} {da db : Datum} {va vb : Option Int} {l n : Int}
    (hop : isComparison op = true) (ha : ReadsInt R sc env da va) (hb : ReadsInt R sc env db vb) :
    Reads R sc env (.list [.atom (opText op) l, da, db] n)
      (va.bind fun x => vb.bind (binaryValue op x)) := by
  have h01 : (∀ x y, ∃ b, binaryValue op x y = some (truth b)) →
      ∀ w, (va.bind fun x => vb.bind (binaryValue op x)) = some w → ∃ b, w = truth b := by
    intro h w hw
    obtain ⟨x, -, hw⟩ := Option.bind_eq_some_iff.mp hw
    obtain ⟨y, -, hw⟩ := Option.bind_eq_some_iff.mp hw
    obtain ⟨b, hb⟩ := h x y
    rw [hb] at hw
    exact ⟨b, (Option.some.inj hw).symm⟩
  have hcmp : ∀ {k : CmpOp}, comparison (opText op) = some k →
      (∀ x y, binaryValue op x y = some (truth (cmpEval k x y))) →
      Reads R sc env (.list [.atom (opText op) l, da, db] n)
        (va.bind fun x => vb.bind (binaryValue op x)) := by
    intro k hk hval
    exact reads_bool (by simp [isBoolHead, hk]) (readsBool_comparison hk ha hb hval) (.refl _)
      (h01 fun x y => ⟨_, hval x y⟩)
  cases op with
  | eq =>
    exact hcmp rfl fun x y => congrArg (some ∘ truth) (Bool.eq_iff_iff.mpr (by simp [cmpEval]))
  | ne =>
    exact hcmp rfl fun x y => congrArg (some ∘ truth) (Bool.eq_iff_iff.mpr (by simp [cmpEval]))
  | lt => exact hcmp rfl fun x y => rfl
  | le => exact hcmp rfl fun x y => rfl
  | gt => exact hcmp rfl fun x y => rfl
  | ge => exact hcmp rfl fun x y => rfl
  | _ => cases hop

/-- The value of a connective. -/
def connectiveValue (op : Eop) (va vb : Option Int) : Option Int :=
  va.bind fun l => (decided op l).or (vb.map fun r => truth (r ≠ 0))

theorem connectiveValue_truth {op : Eop} {va vb : Option Int} {w : Int}
    (hw : connectiveValue op va vb = some w) : ∃ b, w = truth b := by
  obtain ⟨l, -, hw⟩ := Option.bind_eq_some_iff.mp hw
  rcases Option.or_eq_some_iff.mp hw with hd | ⟨-, hd⟩
  · unfold decided at hd
    split at hd
    · split at hd <;> cases hd
      exact ⟨false, rfl⟩
    · split at hd <;> cases hd
      exact ⟨true, rfl⟩
    · split at hd <;> cases hd
      exact ⟨true, rfl⟩
    · cases hd
  · obtain ⟨r, -, rfl⟩ := Option.map_eq_some_iff.mp hd
    exact ⟨_, rfl⟩

/-- A connective over operands in boolean position. -/
theorem connective_reads {op : Eop} {da db : Datum} {va vb : Option Int} {l n : Int}
    (hop : isConnective op = true) (ha : ReadsBool R sc env da (truthOf va))
    (hb : ReadsBool R sc env db (truthOf vb)) :
    Reads R sc env (.list [.atom (opText op) l, da, db] n) (connectiveValue op va vb) ∧
      (op = .imply → ReadsBool R sc env (.list [.atom "or" l, .list [.atom "not" l, da] l, db] n)
        (truthOf (connectiveValue op va vb))) := by
  have hbelow : ∀ {t : Truth}, (∀ l, va = some l → truthOf (connectiveValue op (some l) vb) = t) →
      (truthOf (connectiveValue op va vb)).Below t := by
    intro t h
    cases va with
    | none => exact fun hn => absurd rfl hn
    | some l =>
      rw [h l rfl]
      exact .refl _
  cases op with
  | and_ =>
    refine ⟨reads_bool rfl (readsBool_conn rfl ha hb) (hbelow ?_) fun w => connectiveValue_truth,
      fun h => nomatch h⟩
    rintro l rfl
    exact (connective_truth l vb).1 rfl
  | or_ =>
    refine ⟨reads_bool rfl (readsBool_conn rfl ha hb) (hbelow ?_) fun w => connectiveValue_truth,
      fun h => nomatch h⟩
    rintro l rfl
    exact (connective_truth l vb).2.1 rfl
  | imply =>
    have himply : (truthOf (connectiveValue .imply va vb)).Below
        (ConnOp.disj.step (truthOf va).not (truthOf vb)) := by
      refine hbelow ?_
      rintro l rfl
      exact (connective_truth l vb).2.2 rfl
    refine ⟨reads_bool rfl (readsBool_imply ha hb) himply fun w => connectiveValue_truth,
      fun _ => ?_⟩
    exact (readsBool_conn rfl (readsBool_not ha) hb).mono himply
  | _ => cases hop

theorem value_binary (op : Eop) (a b : Expr) (line : Nat) : value N σ scope (.binary op a b line) =
    if isConnective op then connectiveValue op (value N σ scope a) (value N σ scope b)
    else (value N σ scope a).bind fun l => (value N σ scope b).bind (binaryValue op l) := by
  rw [value]
  split <;> rfl

/-- In an operator that the grammar has between two operands. -/
theorem operator_kind {op : Eop} (h : op ≠ .not_ ∧ op ≠ .neg ∧ op ≠ .comp) :
    isConnective op = true ∨ (isConnective op = false ∧
      (isComparison op = true ∨ isArithmetic op = true)) := by
  revert h
  cases op <;> decide

theorem reads_unary {op : Eop} {da : Datum} {va : Option Int} {line : Nat}
    (hop : op = .not_ ∨ op = .neg ∨ op = .comp) (ha : Reads R sc env da va)
    (hn : ∀ v : Int, sc.position (toString v) = none ∧ sc.array (toString v) = none) :
    Reads R sc env (unaryForm op da line) (va.bind (unaryValue op)) := by
  rcases hop with rfl | rfl | rfl
  · refine reads_bool rfl (readsBool_not ha.2) ?_ fun w hw => ?_
    · cases va with
      | none => exact fun hn => absurd rfl hn
      | some v =>
        by_cases hv : v = 0 <;> simp [unaryValue, truthOf, truth, hv, Truth.ofBool, Truth.not,
          Truth.Below]
    · obtain ⟨v, -, hw⟩ := Option.bind_eq_some_iff.mp hw
      exact ⟨_, (Option.some.inj hw).symm⟩
  · refine reads_int rfl (readsInt_binary rfl (readsInt_num hn 0 line) ha.1) fun w hw => ?_
    obtain ⟨v, rfl, hw⟩ := Option.bind_eq_some_iff.mp hw
    rw [← machine_below _ w hw, ← Int.zero_sub]
    rfl
  · refine reads_int rfl (readsInt_comp ha.1) fun w hw => ?_
    obtain ⟨v, rfl, hw⟩ := Option.bind_eq_some_iff.mp hw
    exact machine_below _ w hw

theorem cells_access {info : LeafInfo} {vs : Nat → Int} {cells : List Nat} {i w : Int}
    (hlen : (cells.length : Int) = info.size)
    (hcells : ∀ i q, cells[i]? = some q → env[q]? = some (vs i))
    (h : (if 0 ≤ i ∧ i < info.size then machine (vs i.toNat) else none) = some w) :
    (ofState env).access cells i = some w := by
  split at h
  · next hi =>
    obtain ⟨n, rfl⟩ := Int.eq_ofNat_of_zero_le hi.1
    have hn : n < cells.length := by omega
    have hcell := hcells n cells[n] (List.getElem?_eq_getElem hn)
    unfold ofState
    dsimp only
    rw [if_neg (by omega), Int.toNat_natCast, List.getElem?_eq_getElem hn, Option.bind_some, hcell]
    exact machine_below _ w h
  · cases h

/-- An expression in integer position. -/
theorem toInt_reads (hσ : Represents N sc env σ) : ∀ (e : Expr) {d : Datum}, e.Formed →
    (∀ x ∈ e.names, N.Clear scope x) → toInt N scope e = .ok d →
      Reads R sc env d (value N σ scope e) := by
  intro e
  induction e with
  | number v line =>
    intro d _ _ h
    cases h
    exact reads_int rfl (readsInt_num hσ.numeral v line) (machine_below v)
  | name x line =>
    intro d _ hclear h
    rw [toInt] at h
    split at h
    · next c hc =>
      cases h
      have hm := (hclear x (List.mem_singleton.mpr rfl)).meaning hc
      rw [value]
      simp only [hm]
      exact reads_int rfl (readsInt_num hσ.numeral c line) (machine_below c)
    · next hc =>
      obtain ⟨v, hv, h⟩ := bind_eq_ok.mp h
      obtain ⟨key, hkey⟩ := resolveVar_eq_ok hv
      split at h
      · cases h
      · next harr =>
        cases h
        have hl := hσ.scalar key v (findVar_vars hkey) (by simpa using harr)
        rw [value]
        simp only [meaning_variable hc hkey, if_neg harr]
        exact reads_int rfl (readsInt_leaf hl line) (machine_below _)
  | arrayRef x a line ih =>
    intro d hformed hclear h
    rw [toInt] at h
    obtain ⟨v, hv, h⟩ := bind_eq_ok.mp h
    obtain ⟨key, hkey⟩ := resolveVar_eq_ok hv
    split at h
    · cases h
    · next harr =>
      have harr : v.isArray = true := by simpa using harr
      obtain ⟨idx, hidx, h⟩ := bind_eq_ok.mp h
      obtain ⟨-, ⟨cells, hc, hlen, hcells⟩, hnames⟩ := hσ.array key v (findVar_vars hkey) harr
      rw [value]
      simp only [hkey, harr, if_true]
      split at h
      · next i hi =>
        have hclear : ∀ x ∈ a.names, N.Clear scope x := hclear
        rw [constantIndex_value hσ hclear hidx hi]
        split at h
        · cases h
        · next hin =>
          cases h
          obtain ⟨n, rfl⟩ := Int.eq_ofNat_of_zero_le (show 0 ≤ i by omega)
          refine reads_int rfl (readsInt_leaf (hnames n (by omega)) line) fun w hw => ?_
          obtain ⟨j, hj, hw⟩ := Option.bind_eq_some_iff.mp hw
          obtain rfl := Option.some.inj (machine_below _ j hj)
          rw [if_pos (by omega), Int.toNat_natCast] at hw
          exact machine_below _ w hw
      · cases h
        have hin : ∀ q ∈ cells, q < env.length := by
          intro q hq
          obtain ⟨i, hi, hq⟩ := List.getElem_of_mem hq
          exact (List.getElem?_eq_some_iff.mp (hcells i q (hq ▸ List.getElem?_eq_getElem hi))).1
        refine reads_int rfl (readsInt_at hc hin (ih hformed hclear hidx).1) fun w hw => ?_
        obtain ⟨i, hi, hw⟩ := Option.bind_eq_some_iff.mp hw
        rw [hi]
        exact cells_access hlen hcells hw
  | procState name field line =>
    intro d _ _ h
    obtain ⟨hbool, hint⟩ := procAtom_reads hσ (show procAtom N name field line = .ok d from h)
    exact ⟨hint, hbool⟩
  | unary op a line ih =>
    intro d hformed hclear h
    rw [toInt] at h
    obtain ⟨da, ha, h⟩ := bind_eq_ok.mp h
    cases h
    rw [value]
    exact reads_unary hformed.1 (ih hformed.2 hclear ha) hσ.numeral
  | binary op a b line iha ihb =>
    intro d hformed hclear h
    obtain ⟨h1, h2, h3, hfa, hfb⟩ := hformed
    rw [toInt] at h
    obtain ⟨da, ha, h⟩ := bind_eq_ok.mp h
    obtain ⟨db, hb, h⟩ := bind_eq_ok.mp h
    cases h
    have hra := iha hfa (fun x hx => hclear x (List.mem_append_left _ hx)) ha
    have hrb := ihb hfb (fun x hx => hclear x (List.mem_append_right _ hx)) hb
    rw [value_binary]
    rcases operator_kind ⟨h1, h2, h3⟩ with hc | ⟨hc, hc' | hc'⟩
    · rw [if_pos hc]
      exact (connective_reads hc hra.2 hrb.2).1
    · rw [if_neg (by simp [hc])]
      exact comparison_reads hc' hra.1 hrb.1
    · rw [if_neg (by simp [hc])]
      exact arithmetic_reads hc' hra.1 hrb.1

theorem nonZero_reads (hσ : Represents N sc env σ) {d : Datum} {v : Option Int} {line : Nat}
    (h : ReadsInt R sc env d v) : ReadsBool R sc env (nonZero line d) (truthOf v) := by
  have hcmp : ReadsBool R sc env (nonZero line d) (cmpExact .neq v (some 0)) :=
    readsBool_compare rfl h (readsInt_num hσ.numeral 0 line)
  rwa [truthOf_eq] at hcmp

/-- An expression in boolean position. -/
theorem toBool_reads (hσ : Represents N sc env σ) : ∀ (e : Expr) {d : Datum}, e.Formed →
    (∀ x ∈ e.names, N.Clear scope x) → toBool N scope e = .ok d →
      ReadsBool R sc env d (truthOf (value N σ scope e)) := by
  have hint : ∀ {e : Expr} {d : Datum} {line : Nat}, e.Formed → (∀ x ∈ e.names, N.Clear scope x) →
      (do return nonZero line (← toInt N scope e)) = Except.ok d →
      ReadsBool R sc env d (truthOf (value N σ scope e)) := by
    intro e d line hformed hclear h
    obtain ⟨d, hd, h⟩ := bind_eq_ok.mp h
    cases h
    exact nonZero_reads hσ (toInt_reads hσ e hformed hclear hd).1
  intro e
  induction e with
  | number v line => exact fun hformed hclear h => hint hformed hclear h
  | name x line => exact fun hformed hclear h => hint hformed hclear h
  | arrayRef x a line ih => exact fun hformed hclear h => hint hformed hclear h
  | procState name field line =>
    intro d _ _ h
    exact (procAtom_reads hσ (show procAtom N name field line = .ok d from h)).1
  | unary op a line ih =>
    intro d hformed hclear h
    cases op with
    | not_ =>
      obtain ⟨da, ha, h⟩ := bind_eq_ok.mp h
      cases h
      refine (readsBool_not (ih hformed.2 hclear ha)).mono ?_
      rw [value]
      cases value N σ scope a with
      | none => exact fun hn => absurd rfl hn
      | some v =>
        by_cases hv : v = 0 <;> simp [unaryValue, truthOf, truth, hv, Truth.ofBool,
          Truth.not, Truth.Below]
    | _ => exact hint hformed hclear h
  | binary op a b line iha ihb =>
    intro d hformed hclear h
    obtain ⟨h1, h2, h3, hfa, hfb⟩ := hformed
    have hca : ∀ x ∈ a.names, N.Clear scope x := fun x hx => hclear x (List.mem_append_left _ hx)
    have hcb : ∀ x ∈ b.names, N.Clear scope x := fun x hx => hclear x (List.mem_append_right _ hx)
    rcases operator_kind ⟨h1, h2, h3⟩ with hc | ⟨hc, hc' | hc'⟩
    · have hconn : ∀ {f : Datum → Datum → Datum},
          (do
            let a ← toBool N scope a
            let b ← toBool N scope b
            return f a b) = Except.ok d →
          (∀ {da db : Datum}, ReadsBool R sc env da (truthOf (value N σ scope a)) →
            ReadsBool R sc env db (truthOf (value N σ scope b)) → ReadsBool R sc env (f da db)
                (truthOf (connectiveValue op (value N σ scope a) (value N σ scope b)))) →
          ReadsBool R sc env d (truthOf (value N σ scope (.binary op a b line))) := by
        intro f h hf
        obtain ⟨da, ha, h⟩ := bind_eq_ok.mp h
        obtain ⟨db, hb, h⟩ := bind_eq_ok.mp h
        cases h
        rw [value_binary, if_pos hc]
        exact hf (iha hfa hca ha) (ihb hfb hcb hb)
      cases op with
      | and_ => exact hconn h fun ha hb => (connective_reads hc ha hb).1.2
      | or_ => exact hconn h fun ha hb => (connective_reads hc ha hb).1.2
      | imply => exact hconn h fun ha hb => (connective_reads hc ha hb).2 rfl
      | _ => cases hc
    · have hcmp : (do
          let a ← toInt N scope a
          let b ← toInt N scope b
          return list [atom (opText op) line, a, b] line) = Except.ok d := by
        cases op with
        | eq | ne | lt | le | gt | ge => exact h
        | _ => cases hc'
      obtain ⟨da, ha, hcmp⟩ := bind_eq_ok.mp hcmp
      obtain ⟨db, hb, hcmp⟩ := bind_eq_ok.mp hcmp
      cases hcmp
      rw [value_binary, if_neg (by simp [hc])]
      exact (comparison_reads hc' (toInt_reads hσ a hfa hca ha).1 (toInt_reads hσ b hfb hcb hb).1).2
    · have harith : (do return nonZero line (← toInt N scope (.binary op a b line))) =
          Except.ok d := by
        cases op with
        | add | sub | mul | div | mod | shl | shr | band | bor | bxor => exact h
        | _ => cases hc'
      exact hint ⟨h1, h2, h3, hfa, hfb⟩ hclear harith

/-! ## Evaluation -/

/-- An evaluation that stops does so at a value that leaves the machine. -/
def Overflowed (er : EvalError) : Prop := ∃ w, er = .overflow w ∧ ¬ InInt32 w

theorem says_overflowed {reads cells : List Nat} {er : EvalError} (h : Says env reads cells er)
    (hr : ∀ p ∈ reads, p < env.length) (hc : ∀ p ∈ cells, p < env.length) : Overflowed er := by
  cases er with
  | overflow w => exact ⟨w, rfl, h⟩
  | outside p arity => exact absurd (hr p h.1) (Nat.not_lt.mpr h.2.1)
  | undefinedBehaviour =>
    obtain ⟨p, hp, hle⟩ := h
    exact absurd (hc p hp) (Nat.not_lt.mpr hle)
  | undefined => exact h.elim
  | targetIndex i n => exact h.elim
  | twoWrites => exact h.elim

theorem evalInt_value (henv : ∀ v ∈ env, InInt32 v) {x : IExpr} {v : Int} (hx : Good env x)
    (hv : exactInt (ofState env) x = some v) :
    Comes (Xpl.evalInt env x) (· = some v) Overflowed := by
  refine (evalInt_comes henv x (normal_machine x hx.normal)).mono (fun w hw => ?_) fun er her =>
    says_overflowed her hx.within.scalars hx.within.cells
  exact hw.1.symm.trans hv

theorem evalBool_value (henv : ∀ v ∈ env, InInt32 v) {b : BExpr} {t : Truth} (hb : GoodBool env b)
    (ht : exactBool (ofState env) b = t) : Comes (Xpl.evalBool env b) (· = t) Overflowed := by
  refine (evalBool_comes henv b (normalBool_machine b hb.normal)).mono (fun w hw => ?_)
    fun er her => says_overflowed her hb.within.scalars hb.within.cells
  exact hw.symm.trans ht

end Translation

/-- The surface expression of a DVE expression, on a valuation that gives it a value. The
reader refuses it, a constant having left the machine, or reads an expression that means that
value, and evaluation returns the value or stops at one that leaves the machine. -/
theorem translation_exact {N : Names} {R : ExprIds} {sc : Scope} {env : Xpl.Word} {σ : Valuation}
    {scope : String} {e : Expr} {v : Int} (hσ : Represents N sc env σ)
    (henv : ∀ v ∈ env, InInt32 v) (hformed : e.Formed) (hclear : ∀ x ∈ e.names, N.Clear scope x)
    (hv : value N σ scope e = some v) :
    (∀ d, toInt N scope e = .ok d → Comes (readInt R sc d) (fun x =>
      exactInt (ofState env) x = some v ∧ Comes (Xpl.evalInt env x) (· = some v) Overflowed) Loud) ∧
    (∀ d, toBool N scope e = .ok d → Comes (readBool R sc d) (fun b =>
      exactBool (ofState env) b = Truth.ofBool (v ≠ 0) ∧
        Comes (Xpl.evalBool env b) (· = Truth.ofBool (v ≠ 0)) Overflowed) Loud) := by
  refine ⟨fun d hd => ?_, fun d hd => ?_⟩
  · refine Comes.mono (toInt_reads hσ e hformed hclear hd).1 (fun x ⟨hx, hb⟩ => ?_) fun _ h => h
    exact ⟨hb v hv, evalInt_value henv hx (hb v hv)⟩
  · refine Comes.mono (toBool_reads hσ e hformed hclear hd) (fun b ⟨hb, ht⟩ => ?_) fun _ h => h
    rw [hv] at ht
    have htruth : exactBool (ofState env) b = Truth.ofBool (v ≠ 0) := by
      refine ht ?_
      show Truth.ofBool (v ≠ 0) ≠ .undef
      cases decide (v ≠ 0) <;> decide
    exact ⟨htruth, evalBool_value henv hb htruth⟩

/-! ## One variable -/

/-- The declaration `int x;`. -/
def oneVariable : Names :=
  ⟨fun _ => none, fun key => if key = ("", "x") then some ⟨"glob_x", false, false, 0⟩ else none, []⟩

def oneLeaf : Scope := ⟨fun name => if name = "glob_x" then some 0 else none, fun _ => none⟩

theorem oneVariable_represents (v : Int) :
    Represents oneVariable oneLeaf [v] ⟨fun _ => v, fun _ _ => 0, fun _ => 0⟩ := by
  have hinfo : ∀ {key : Key} {info : LeafInfo}, oneVariable.vars key = some info →
      info = ⟨"glob_x", false, false, 0⟩ := by
    intro key info h
    unfold oneVariable at h
    dsimp only at h
    split at h
    · exact (Option.some.inj h).symm
    · cases h
  have hsymbol : NoNumeral "glob_x" := by
    unfold NoNumeral
    decide +kernel
  refine ⟨fun key info h _ => ?_, fun key info h harr => ?_, fun p hp => (nomatch hp), fun w => ?_⟩
  · rw [hinfo h]
    exact ⟨hsymbol, 0, rfl, rfl⟩
  · rw [hinfo h] at harr
    cases harr
  · refine ⟨if_neg fun h => ?_, rfl⟩
    have hnum := wholeLong_toString w
    rw [h, hsymbol] at hnum
    cases hnum

/-- `x + 1` where `x` is 41. -/
theorem translation_exact_sum :
    (∀ d, toInt oneVariable "" (.binary .add (.name "x" 1) (.number 1 1) 1) = .ok d →
      Comes (readInt ⟨fun _ => 0, fun _ => 0⟩ oneLeaf d) (fun x =>
        exactInt (ofState [41]) x = some 42 ∧
          Comes (Xpl.evalInt [41] x) (· = some 42) Overflowed) Loud) ∧
    (∀ d, toBool oneVariable "" (.binary .add (.name "x" 1) (.number 1 1) 1) = .ok d →
      Comes (readBool ⟨fun _ => 0, fun _ => 0⟩ oneLeaf d) (fun b =>
        exactBool (ofState [41]) b = Truth.ofBool ((42 : Int) ≠ 0) ∧
          Comes (Xpl.evalBool [41] b) (· = Truth.ofBool ((42 : Int) ≠ 0)) Overflowed) Loud) := by
  refine translation_exact (oneVariable_represents 41) (by decide) ?_ ?_ rfl
  · exact ⟨by decide, by decide, by decide, trivial, trivial⟩
  · intro x _ h
    simp [Names.findConst, oneVariable] at h

/-- Where `x` is -5, `(x + 2147483647) + 1` has a value, and nothing in it overflows. The
reader merges the two constants and refuses the sum. -/
theorem merged_constants_refused :
    Represents oneVariable oneLeaf [-5] ⟨fun _ => -5, fun _ _ => 0, fun _ => 0⟩ ∧
    value oneVariable ⟨fun _ => -5, fun _ _ => 0, fun _ => 0⟩ ""
      (.binary .add (.binary .add (.name "x" 1) (.number 2147483647 1) 1) (.number 1 1) 1) =
        some 2147483643 ∧
    ∃ d, toInt oneVariable ""
        (.binary .add (.binary .add (.name "x" 1) (.number 2147483647 1) 1) (.number 1 1) 1) =
          .ok d ∧
      readInt ⟨fun _ => 0, fun _ => 0⟩ oneLeaf d = .error (.factory .overflow) :=
  ⟨oneVariable_represents (-5), rfl, _, rfl, rfl⟩

end LibHSC.Dve
