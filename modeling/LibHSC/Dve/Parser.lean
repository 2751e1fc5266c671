import LibHSC.Dve.Lexer

/-!
The DVE model a text denotes, and its parser: recursive descent with one token of
lookahead, the binary operators in six tiers. Names stay unresolved and expressions stay
trees. The recursion takes fuel, and `parse` gives more than any text needs.
-/

namespace LibHSC.Dve

/-! ## Models -/

/-- Operators, unary and binary. -/
inductive Eop where
  | not_ | neg | comp
  | imply | or_ | and_
  | bor | band | bxor
  | eq | ne | lt | le | gt | ge
  | shl | shr | add | sub | mul | div | mod
  deriving DecidableEq, Repr

inductive Expr where
  | number (value : Int) (line : Nat)
  | name (name : String) (line : Nat)
  | arrayRef (name : String) (index : Expr) (line : Nat)
  /-- The process is in this control state. -/
  | procState (name field : String) (line : Nat)
  | unary (op : Eop) (a : Expr) (line : Nat)
  | binary (op : Eop) (a b : Expr) (line : Nat)
  deriving DecidableEq, Repr

structure Assign where
  var : String
  index : Option Expr
  rhs : Expr
  line : Nat
  deriving DecidableEq, Repr

inductive SyncKind where
  | none
  | send
  | recv
  deriving DecidableEq, Repr

structure Transition where
  src : String
  dest : String
  guard : Option Expr := none
  sync : SyncKind := .none
  channel : String := ""
  syncValue : Option Expr := none
  syncVar : String := ""
  syncIndex : Option Expr := none
  effects : List Assign := []
  line : Nat
  deriving DecidableEq, Repr

structure VarDecl where
  name : String
  isByte : Bool
  isArray : Bool := false
  size : Int := 0
  init : Option Expr := none
  initList : List Expr := []
  line : Nat
  deriving DecidableEq, Repr

structure ConstDecl where
  name : String
  value : Expr
  line : Nat
  deriving DecidableEq, Repr

structure Process where
  name : String
  locals : List VarDecl := []
  constants : List ConstDecl := []
  states : List String := []
  initState : String := ""
  accept : List String := []
  commit : List String := []
  asserts : List (String × Expr) := []
  transitions : List Transition := []
  line : Nat
  deriving DecidableEq, Repr

structure Model where
  globals : List VarDecl := []
  constants : List ConstDecl := []
  channels : List String := []
  processes : List Process := []
  async : Bool := true
  deriving DecidableEq, Repr

/-! ## Tokens -/

def fail {α : Type} (lx : Lexer) (msg : String) : Except ParseError (α × Lexer) :=
  .error (.syntaxError lx.cur.line msg)

def expect (p : String) (lx : Lexer) : Except ParseError (Unit × Lexer) := do
  let (t, lx) ← lx.take
  if t.kind ≠ .punct ∨ t.text ≠ p then
    .error (.syntaxError t.line ("expected '" ++ p ++ "', found '" ++ t.text ++ "'"))
  else return ((), lx)

def expectId (kw : String) (lx : Lexer) : Except ParseError (Unit × Lexer) := do
  let (t, lx) ← lx.take
  if t.kind ≠ .id ∨ t.text ≠ kw then
    .error (.syntaxError t.line ("expected '" ++ kw ++ "', found '" ++ t.text ++ "'"))
  else return ((), lx)

/-- The current token is this punctuation. -/
def atPunct (p : String) (lx : Lexer) : Bool := lx.cur.kind = .punct && lx.cur.text = p

def atWord (kw : String) (lx : Lexer) : Bool := lx.cur.kind = .id && lx.cur.text = kw

def eat (p : String) (lx : Lexer) : Except ParseError (Bool × Lexer) :=
  if atPunct p lx then do
    let (_, lx) ← lx.take
    return (true, lx)
  else .ok (false, lx)

def eatId (kw : String) (lx : Lexer) : Except ParseError (Bool × Lexer) :=
  if atWord kw lx then do
    let (_, lx) ← lx.take
    return (true, lx)
  else .ok (false, lx)

def ident (what : String) (lx : Lexer) : Except ParseError (String × Lexer) := do
  let (t, lx) ← lx.take
  if t.kind ≠ .id then .error (.syntaxError t.line ("expected " ++ what)) else return (t.text, lx)

/-- One item or more, with commas between them. -/
def commaList {α : Type} (item : Lexer → Except ParseError (α × Lexer)) :
    Nat → Lexer → Except ParseError (List α × Lexer)
  | 0, _ => .error .outOfFuel
  | fuel + 1, lx => do
      let (x, lx) ← item lx
      let (more, lx) ← eat "," lx
      if more then
        let (xs, lx) ← commaList item fuel lx
        return (x :: xs, lx)
      else return ([x], lx)

/-! ## Expressions -/

/-- The operators of a tier, the loosest tier first. The connectives have words too. -/
def peekOp (tier : Nat) (t : Token) : Option Eop :=
  match tier with
  | 0 =>
    if t.kind = .punct then
      if t.text = "=>" then some .imply
      else if t.text = "||" then some .or_
      else if t.text = "&&" then some .and_
      else none
    else if t.kind = .id then
      if t.text = "imply" then some .imply
      else if t.text = "or" then some .or_
      else if t.text = "and" then some .and_
      else none
    else none
  | 1 =>
    if t.kind ≠ .punct then none
    else if t.text = "|" then some .bor
    else if t.text = "&" then some .band
    else if t.text = "^" then some .bxor
    else none
  | 2 =>
    if t.kind ≠ .punct then none
    else if t.text = "==" then some .eq
    else if t.text = "!=" then some .ne
    else if t.text = "<" then some .lt
    else if t.text = "<=" then some .le
    else if t.text = ">" then some .gt
    else if t.text = ">=" then some .ge
    else none
  | 3 =>
    if t.kind ≠ .punct then none
    else if t.text = "<<" then some .shl
    else if t.text = ">>" then some .shr
    else none
  | 4 =>
    if t.kind ≠ .punct then none
    else if t.text = "+" then some .add
    else if t.text = "-" then some .sub
    else none
  | 5 =>
    if t.kind ≠ .punct then none
    else if t.text = "*" then some .mul
    else if t.text = "/" then some .div
    else if t.text = "%" then some .mod
    else none
  | _ => none

/-- A prefix operator. -/
def prefixOp (t : Token) : Option Eop :=
  if t.kind = .id ∧ t.text = "not" then some .not_
  else if t.kind = .punct then
    if t.text = "!" then some .not_
    else if t.text = "-" then some .neg
    else if t.text = "~" then some .comp
    else none
  else none

mutual

/-- The operands of a tier, joined from the left. -/
def parseTier : Nat → Nat → Lexer → Except ParseError (Expr × Lexer)
  | 0, _, _ => .error .outOfFuel
  | fuel + 1, tier, lx =>
    if tier = 6 then parsePrefixed fuel lx
    else do
      let (l, lx) ← parseTier fuel (tier + 1) lx
      parseRest fuel tier l lx

/-- What follows the first operand `l` of a tier. -/
def parseRest : Nat → Nat → Expr → Lexer → Except ParseError (Expr × Lexer)
  | 0, _, _, _ => .error .outOfFuel
  | fuel + 1, tier, l, lx =>
    match peekOp tier lx.cur with
    | none => .ok (l, lx)
    | some op => do
        let (t, lx) ← lx.take
        let (r, lx) ← parseTier fuel (tier + 1) lx
        parseRest fuel tier (.binary op l r t.line) lx

def parsePrefixed : Nat → Lexer → Except ParseError (Expr × Lexer)
  | 0, _ => .error .outOfFuel
  | fuel + 1, lx =>
    match prefixOp lx.cur with
    | some op => do
        let (t, lx) ← lx.take
        let (a, lx) ← parsePrefixed fuel lx
        return (.unary op a t.line, lx)
    | none => parseAtom fuel lx

def parseAtom : Nat → Lexer → Except ParseError (Expr × Lexer)
  | 0, _ => .error .outOfFuel
  | fuel + 1, lx => do
      let (t, lx) ← lx.take
      if t.kind = .punct ∧ t.text = "(" then
        let (e, lx) ← parseTier fuel 0 lx
        let (_, lx) ← expect ")" lx
        return (e, lx)
      else if t.kind = .num then return (.number t.num t.line, lx)
      else if t.kind = .id then
        if t.text = "true" ∨ t.text = "false" then
          return (.number (if t.text = "true" then 1 else 0) t.line, lx)
        else
          let (bracket, lx) ← eat "[" lx
          if bracket then
            let (a, lx) ← parseTier fuel 0 lx
            let (_, lx) ← expect "]" lx
            return (.arrayRef t.text a t.line, lx)
          else
            let (dot, lx) ← eat "." lx
            if dot then
              let (field, lx) ← ident "a state name" lx
              return (.procState t.text field t.line, lx)
            else return (.name t.text t.line, lx)
      else .error (.syntaxError t.line ("expected an expression, found '" ++ t.text ++ "'"))

end

def parseExpr (fuel : Nat) (lx : Lexer) : Except ParseError (Expr × Lexer) := parseTier fuel 0 lx

/-! ## Declarations -/

section Declarations

variable (fuel : Nat)

def parseConst (lx : Lexer) : Except ParseError (ConstDecl × Lexer) := do
  let line := lx.cur.line
  let (name, lx) ← ident "a constant name" lx
  let (_, lx) ← expect "=" lx
  let (value, lx) ← parseExpr fuel lx
  return (⟨name, value, line⟩, lx)

def parseConsts (lx : Lexer) : Except ParseError (List ConstDecl × Lexer) := do
  let (_, lx) ← expectId "const" lx
  let (ty, lx) ← lx.take
  if ty.kind ≠ .id ∨ (ty.text ≠ "int" ∧ ty.text ≠ "byte") then
    .error (.syntaxError ty.line "const takes a type, int or byte")
  else
    let (out, lx) ← commaList (parseConst fuel) fuel lx
    let (_, lx) ← expect ";" lx
    return (out, lx)

/-- The size of an array, and its initial values. -/
def parseCells (v : VarDecl) (lx : Lexer) : Except ParseError (VarDecl × Lexer) := do
  let (n, lx) ← lx.take
  if n.kind ≠ .num then .error (.syntaxError n.line "array size")
  else
    let (_, lx) ← expect "]" lx
    let (inits, lx) ← eat "=" lx
    if inits then
      let (_, lx) ← expect "\x7b" lx
      let (initList, lx) ← commaList (parseExpr fuel) fuel lx
      let (_, lx) ← expect "\x7d" lx
      return ({ v with isArray := true, size := n.num, initList := initList }, lx)
    else return ({ v with isArray := true, size := n.num }, lx)

def parseVar (isByte : Bool) (lx : Lexer) : Except ParseError (VarDecl × Lexer) := do
  let line := lx.cur.line
  let (name, lx) ← ident "a variable name" lx
  let v : VarDecl := { name := name, isByte := isByte, line := line }
  let (bracket, lx) ← eat "[" lx
  if bracket then parseCells fuel v lx
  else
    let (inits, lx) ← eat "=" lx
    if inits then
      let (e, lx) ← parseExpr fuel lx
      return ({ v with init := some e }, lx)
    else return (v, lx)

def parseVars (lx : Lexer) : Except ParseError (List VarDecl × Lexer) := do
  let (ty, lx) ← lx.take
  let (out, lx) ← commaList (parseVar fuel (ty.text = "byte")) fuel lx
  let (_, lx) ← expect ";" lx
  return (out, lx)

/-- Names with commas between them, and a semicolon. -/
def parseNames (what : String) (lx : Lexer) : Except ParseError (List String × Lexer) := do
  let (names, lx) ← commaList (ident what) fuel lx
  let (_, lx) ← expect ";" lx
  return (names, lx)

def parseChannels (lx : Lexer) : Except ParseError (List String × Lexer) := do
  let (_, lx) ← expectId "channel" lx
  parseNames fuel "a channel name" lx

/-! ## Processes -/

/-- The index of an access, if there is one. -/
def parseIndex (lx : Lexer) : Except ParseError (Option Expr × Lexer) := do
  let (bracket, lx) ← eat "[" lx
  if bracket then
    let (e, lx) ← parseExpr fuel lx
    let (_, lx) ← expect "]" lx
    return (some e, lx)
  else return (none, lx)

def parseAssign (lx : Lexer) : Except ParseError (Assign × Lexer) := do
  let line := lx.cur.line
  let (var, lx) ← ident "an assignment target" lx
  let (index, lx) ← parseIndex fuel lx
  let (_, lx) ← expect "=" lx
  let (rhs, lx) ← parseExpr fuel lx
  return (⟨var, index, rhs, line⟩, lx)

def parseGuard (t : Transition) (lx : Lexer) : Except ParseError (Transition × Lexer) := do
  let (guard, lx) ← eatId "guard" lx
  if guard then
    let (e, lx) ← parseExpr fuel lx
    let (_, lx) ← expect ";" lx
    return ({ t with guard := some e }, lx)
  else return (t, lx)

def parseSend (t : Transition) (lx : Lexer) : Except ParseError (Transition × Lexer) :=
  if atPunct ";" lx then .ok ({ t with sync := .send }, lx)
  else do
    let (e, lx) ← parseExpr fuel lx
    return ({ t with sync := .send, syncValue := some e }, lx)

def parseRecv (t : Transition) (lx : Lexer) : Except ParseError (Transition × Lexer) := do
  let (_, lx) ← expect "?" lx
  if lx.cur.kind = .id then
    let (var, lx) ← ident "a variable" lx
    let (index, lx) ← parseIndex fuel lx
    return ({ t with sync := .recv, syncVar := var, syncIndex := index }, lx)
  else return ({ t with sync := .recv }, lx)

def parseSync (t : Transition) (lx : Lexer) : Except ParseError (Transition × Lexer) := do
  let (sync, lx) ← eatId "sync" lx
  if sync then
    let (channel, lx) ← ident "a channel name" lx
    let t := { t with channel := channel }
    let (send, lx) ← eat "!" lx
    let (t, lx) ← if send then parseSend fuel t lx else parseRecv fuel t lx
    let (_, lx) ← expect ";" lx
    return (t, lx)
  else return (t, lx)

def parseEffect (t : Transition) (lx : Lexer) : Except ParseError (Transition × Lexer) := do
  let (effect, lx) ← eatId "effect" lx
  if effect then
    let (effects, lx) ← commaList (parseAssign fuel) fuel lx
    let (_, lx) ← expect ";" lx
    return ({ t with effects := effects }, lx)
  else return (t, lx)

def parseTransition (lx : Lexer) : Except ParseError (Transition × Lexer) := do
  let line := lx.cur.line
  let (src, lx) ← ident "a source state" lx
  let (_, lx) ← expect "->" lx
  let (dest, lx) ← ident "a target state" lx
  let (_, lx) ← expect "\x7b" lx
  let (t, lx) ← parseGuard fuel { src := src, dest := dest, line := line } lx
  let (t, lx) ← parseSync fuel t lx
  let (t, lx) ← parseEffect fuel t lx
  let (_, lx) ← expect "\x7d" lx
  return (t, lx)

/-- The constants and variables of a process. -/
def parseLocals : Nat → Process → Lexer → Except ParseError (Process × Lexer)
  | 0, _, _ => .error .outOfFuel
  | n + 1, p, lx =>
    if atWord "const" lx then do
      let (cs, lx) ← parseConsts fuel lx
      parseLocals n { p with constants := p.constants ++ cs } lx
    else if atWord "int" lx ∨ atWord "byte" lx then do
      let (vs, lx) ← parseVars fuel lx
      parseLocals n { p with locals := p.locals ++ vs } lx
    else .ok (p, lx)

/-- An optional list of state names after a keyword. -/
def parseMarked (kw : String) (lx : Lexer) : Except ParseError (List String × Lexer) := do
  let (marked, lx) ← eatId kw lx
  if marked then parseNames fuel "a state name" lx else return ([], lx)

def parseStates (p : Process) (lx : Lexer) : Except ParseError (Process × Lexer) := do
  let (state, lx) ← eatId "state" lx
  if state then
    let (states, lx) ← parseNames fuel "a state name" lx
    let (_, lx) ← expectId "init" lx
    let (init, lx) ← ident "the init state" lx
    let (_, lx) ← expect ";" lx
    let (accept, lx) ← parseMarked fuel "accept" lx
    let (commit, lx) ← parseMarked fuel "commit" lx
    return ({ p with states := states, initState := init, accept := accept, commit := commit }, lx)
  else return (p, lx)

def parseAssertion (lx : Lexer) : Except ParseError ((String × Expr) × Lexer) := do
  let (st, lx) ← ident "a state name" lx
  let (_, lx) ← expect ":" lx
  let (e, lx) ← parseExpr fuel lx
  return ((st, e), lx)

def parseAsserts (p : Process) (lx : Lexer) : Except ParseError (Process × Lexer) := do
  let (asserts, lx) ← eatId "assert" lx
  if asserts then
    let (out, lx) ← commaList (parseAssertion fuel) fuel lx
    let (_, lx) ← expect ";" lx
    return ({ p with asserts := out }, lx)
  else return (p, lx)

def parseProcess (lx : Lexer) : Except ParseError (Process × Lexer) := do
  let line := lx.cur.line
  let (_, lx) ← expectId "process" lx
  let (name, lx) ← ident "a process name" lx
  let (_, lx) ← expect "\x7b" lx
  let (p, lx) ← parseLocals fuel fuel { name := name, line := line } lx
  let (p, lx) ← parseStates fuel p lx
  let (p, lx) ← parseAsserts fuel p lx
  let (_, lx) ← expectId "trans" lx
  let (transitions, lx) ← commaList (parseTransition fuel) fuel lx
  let (_, lx) ← expect ";" lx
  let (_, lx) ← expect "\x7d" lx
  return ({ p with transitions := transitions }, lx)

/-! ## Models -/

/-- The declarations up to `system`. -/
def parseDecls : Nat → Model → Lexer → Except ParseError (Model × Lexer)
  | 0, _, _ => .error .outOfFuel
  | n + 1, m, lx =>
    if lx.cur.kind ≠ .id then fail lx "expected a declaration or 'system'"
    else if lx.cur.text = "const" then do
      let (cs, lx) ← parseConsts fuel lx
      parseDecls n { m with constants := m.constants ++ cs } lx
    else if lx.cur.text = "int" ∨ lx.cur.text = "byte" then do
      let (vs, lx) ← parseVars fuel lx
      parseDecls n { m with globals := m.globals ++ vs } lx
    else if lx.cur.text = "channel" then do
      let (cs, lx) ← parseChannels fuel lx
      parseDecls n { m with channels := m.channels ++ cs } lx
    else if lx.cur.text = "process" then do
      let (p, lx) ← parseProcess fuel lx
      parseDecls n { m with processes := m.processes ++ [p] } lx
    else if lx.cur.text = "system" then .ok (m, lx)
    else fail lx ("unexpected '" ++ lx.cur.text ++ "'")

def run (lx : Lexer) : Except ParseError (Model × Lexer) := do
  let (m, lx) ← parseDecls fuel fuel {} lx
  let (_, lx) ← expectId "system" lx
  let (st, lx) ← lx.take
  if st.kind ≠ .id ∨ (st.text ≠ "async" ∧ st.text ≠ "sync") then
    fail lx "system is 'async' or 'sync'"
  else
    let (_, lx) ← expect ";" lx
    if lx.cur.kind ≠ .fin then fail lx "trailing input after 'system'"
    else return ({ m with async := st.text = "async" }, lx)

end Declarations

/-- More rounds than a text of that length can take. -/
def enough (n : Nat) : Nat := 10 * n + 20

def parse (text : List Char) : Except ParseError Model := do
  let lx ← lexer text
  let (m, _) ← run (enough text.length) lx
  return m

end LibHSC.Dve
