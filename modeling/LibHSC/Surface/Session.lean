import LibHSC.Surface.Analyze
import LibHSC.Surface.CegarBuild
import LibHSC.Cegar.Loop
import LibHSC.Cegar.Certcheck
import LibHSC.Xpl.Engine

/-!
The session: forms fed in batches to one runner. The explicit commands and the
queries on their results are answered here, every other form goes to the symbolic
translator, of which only the interface is needed. The explicit side sees the forms
of the batch it is called in.
-/

namespace LibHSC.Surface

open Lia Xpl

/-- What leaves a run. -/
inductive Thrown where
  | build (e : BuildError)
  | parse (e : ParseError)
  /-- A token that the number readers of the standard library refuse. -/
  | number
  | loop (e : Cegar.Stop)
  | refused (message : String)
  | endless

/-- What a pass returns. -/
structure Rewritten where
  forms : List Datum
  applied : Bool
  trace : String

/-- What the runner is built on: the symbolic translator, the passes of the registry,
and the wording of the errors of the interpreter. -/
structure Engines (T : Type) where
  form : T → Datum → T × String × Option Thrown
  translatorFailures : T → Nat
  hasResult : T → String → Bool
  wordsOf : T → String → Nat → Option (List Xpl.Word)
  apply : String → List Datum → Datum → Except Thrown Rewritten
  ids : ExprIds
  fuel : Nat
  cause : InterpError → String
  what : BuildError → String
  writable : String → Bool

inductive Status where
  | ok
  | capped (diagnostic : String)
  | error (diagnostic : String) (witness : Xpl.Word)

structure ReachResult where
  status : Status
  states : List Xpl.Word
  fired : Nat

structure Session (T : Type) where
  translator : T
  spec : Option Spec
  model : Option Xpl.Model
  xresults : List (String × ReachResult)
  lastCert : String
  failures : Nat
  files : List (String × String)
  out : String

namespace Session

variable {T : Type} (st : Session T)

def start (t : T) (files : List (String × String)) : Session T :=
  ⟨t, none, none, [], "", 0, files, ""⟩

def print (text : String) : Session T := { st with out := st.out ++ text }

/-- The state after a command, and the exception that leaves it. -/
abbrev Answer (T : Type) := Session T × Option Thrown

def raise (e : Thrown) : Answer T := (st, some e)

def failAt (d : Datum) (message : String) : Answer T :=
  st.raise (.build (.translate d.line message))

def bindResult (name : String) (res : ReachResult) : Answer T :=
  ({ st with xresults := st.xresults ++ [(name, res)] }, none)

/-- Go on with a value, unless it is an error. -/
def withOk {α : Type} (x : Except Thrown α) (k : α → Answer T) : Answer T :=
  match x with
  | .error e => st.raise e
  | .ok a => k a

end Session

def built {α : Type} : Except BuildError α → Except Thrown α
  | .ok a => .ok a
  | .error e => .error (.build e)

/-! ## Numbers -/

/-- The sign and the leading digits of a token. -/
def leadingNumber (text : String) : Option (Bool × Nat) :=
  let cs := text.toList
  let (minus, cs) := match cs with
    | '-' :: cs => (true, cs)
    | '+' :: cs => (false, cs)
    | cs => (false, cs)
  (digits (cs.takeWhile Char.isDigit)).map fun n => (minus, n)

def stoll (text : String) : Option Int :=
  ((leadingNumber text).map fun x => if x.1 then -(x.2 : Int) else x.2).filter
    fun v => -2 ^ 63 ≤ v ∧ v < 2 ^ 63

/-- A minus sign wraps around. -/
def stoull (text : String) : Option Nat :=
  ((leadingNumber text).filter fun x => x.2 < 2 ^ 64).map fun x =>
    if x.1 then (2 ^ 64 - x.2) % 2 ^ 64 else x.2

def sizeOfInt (v : Int) : Nat := (v % 2 ^ 64).toNat

section Commands

variable {T : Type} (E : Engines T) (fs : List Datum) (st : Session T) (f : Datum)

/-! ## The explicit model -/

/-- The specification of the forms, read once on first need. -/
def modelSpec (k : Session T → Spec → Session.Answer T) : Session.Answer T :=
  match st.spec with
  | some s => k st s
  | none => st.withOk (built (Spec.read fs)) fun s => k { st with spec := some s } s

def model (k : Session T → Xpl.Model → Session.Answer T) : Session.Answer T :=
  match st.model with
  | some m => k st m
  | none => modelSpec fs st fun st s =>
    st.withOk (built (s.xpl E.ids)) fun m => k { st with model := some m } m

/-- A state as the word literal that names it. -/
def wordText (s : Spec) (w : Xpl.Word) : String :=
  "(" ++ String.intercalate " " ((List.range w.length).map fun i =>
    "(" ++ s.order.getD i "" ++ " " ++ toString (w.getD i 0) ++ ")") ++ ")"

def reach (m : Xpl.Model) (seeds : List Xpl.Word) (cap : Nat) : Except Thrown ReachResult :=
  let (ending, r) := Xpl.run m cap (fun _ _ _ => (false, ())) seeds ()
  match ending with
  | none => .ok ⟨.ok, r.store.rows, r.fired⟩
  | some .capped => .ok ⟨.capped ("state cap " ++ toString cap ++ " exceeded"), r.store.rows,
      r.fired⟩
  | some (.error e) =>
    let evt := m.events[e.event]?
    .ok ⟨.error ("event " ++ (evt.map Xpl.Event.name).getD "" ++ " (line " ++
      toString ((evt.map Xpl.Event.line).getD 0) ++ "): " ++ E.cause e) e.witness,
      r.store.rows, r.fired⟩
  | some (.escaped e) => .error (.build (.eval e))
  -- no visitor stops this search
  | some .stopped => .error .endless
  | some .endless => .error .endless

/-- A result name is bound once, whichever the engine. -/
def bound (name : String) : Bool :=
  E.hasResult st.translator name || (st.xresults.lookup name).isSome

def xreachOptions : List Datum → Option String → Nat → Except Thrown (Option String × Nat)
  | [], source, cap => .ok (source, cap)
  | [d], _, _ => .error (.build (.translate d.line "xreach options are: from RESULT, cap INT"))
  | d :: v :: rest, source, cap =>
    if d.text = "from" then xreachOptions rest (some v.text) cap
    else if d.text = "cap" then
      match stoll v.text with
      | none => .error .number
      | some n => xreachOptions rest source (sizeOfInt n)
    else .error (.build (.translate d.line "xreach options are: from RESULT, cap INT"))

def reportReach (name : String) (s : Spec) (res : ReachResult) : Session T :=
  match res.status with
  | .ok => st.print (name ++ " xreach " ++ toString res.states.length ++ " states (" ++
      toString res.fired ++ " fired)\n")
  | .capped diagnostic => st.print (name ++ " xreach CAP: " ++ diagnostic ++ "\n")
  | .error diagnostic witness =>
    let st := st.print (name ++ " xreach TOP: " ++ diagnostic ++ " at " ++ wordText s witness ++
      "\n")
    { st with failures := st.failures + 1 }

/-- Close the seeds under the default system, and bind the result. -/
def xreachFrom (name : String) (cap : Nat) (seeds : List Xpl.Word) : Session.Answer T :=
  model E fs st fun st m =>
    st.withOk (reach E m seeds cap) fun res =>
      modelSpec fs st fun st s => (reportReach st name s res).bindResult name res

def doXreach : Session.Answer T :=
  if f.items.length < 2 then st.failAt f "xreach needs a result name"
  else
    let name := (f.item 1).text
    if bound E st name then st.failAt f ("result '" ++ name ++ "' already bound")
    else st.withOk (xreachOptions (f.items.drop 2) none 100000000) fun opt =>
      match opt.1 with
      | some source =>
        match E.wordsOf st.translator source opt.2 with
        | none => st.failAt f ("no result named '" ++ source ++ "'")
        | some words =>
          if words.length > opt.2 then
            st.failAt f "xreach: the seed set alone exceeds the cap"
          else xreachFrom E fs st name opt.2 words
      | none => modelSpec fs st fun st s =>
        st.withOk (built (s.seeds E.ids)) fun seeds => xreachFrom E fs st name opt.2 seeds

def doXdomains : Session.Answer T :=
  st.withOk (built (analyzeDomains E.ids E.fuel fs)) fun units =>
    match units with
    | none => st.raise .endless
    | some units => (st.print (printDomains units), none)

/-! ## The loop's commands -/

def cegarOptionText : String :=
  "cegar options are: all|first|cheapest, jump-exact, no-intern, cap INT"

/-- The property atoms and the options of a `cegar`. -/
def cegarOptions : List Datum → List Datum → Cegar.Options →
    Except Thrown (List Datum × Cegar.Options)
  | [], atoms, opt => .ok (atoms, opt)
  | d :: rest, atoms, opt =>
    if !d.isAtom then cegarOptions rest (atoms ++ [d]) opt
    else if d.text = "all" then cegarOptions rest atoms { opt with pick := .all }
    else if d.text = "first" then cegarOptions rest atoms { opt with pick := .first }
    else if d.text = "cheapest" then cegarOptions rest atoms { opt with pick := .cheapest }
    else if d.text = "jump-exact" then cegarOptions rest atoms { opt with jumpExact := true }
    else if d.text = "no-intern" then cegarOptions rest atoms { opt with intern := false }
    else if d.text = "cap" then
      match rest with
      | [] => .error (.build (.translate d.line cegarOptionText))
      | v :: rest =>
        match stoll v.text with
        | none => .error .number
        | some n => cegarOptions rest atoms { opt with cap := n }
    else .error (.build (.translate d.line cegarOptionText))

/-- The times of the run, which end the line, are left out. -/
def cegarLine (name : String) (r : Cegar.RunResult) : String :=
  name ++ " cegar " ++ (if r.v.k = .holds then "holds" else "violation") ++ " rounds " ++
    toString r.rounds ++ " cex " ++ toString r.cexTotal ++ "/" ++ toString r.budget ++ " rungs " ++
    toString r.leavesChaotic ++ "/" ++ toString r.leavesIntermediate ++ "/" ++
    toString r.leavesExact ++ " inv " ++ toString r.invSize ++ " abstract " ++
    toString r.v.statesWalked ++ "\n"

def reportCegar (name : String) (b : CegarBridge) (r : Cegar.RunResult) : Session.Answer T :=
  let st := st.print (cegarLine name r)
  if r.v.k = .holds then
    { st with lastCert := r.certificate }.bindResult name ⟨.ok, [], 0⟩
  else
    let names := r.v.witness.map fun e => " " ++ ((b.model.events[e]?).map Cegar.Event.name).getD ""
    (st.print (name ++ " witness" ++ String.join names ++ "\n")).bindResult name
      ⟨.ok, [r.finalValues], 0⟩

def doCegar : Session.Answer T :=
  if f.items.length < 2 ∨ (f.item 1).isAtom = false then st.failAt f "cegar needs a result name"
  else
    let name := (f.item 1).text
    if bound E st name then st.failAt f ("result '" ++ name ++ "' already bound")
    else st.withOk (cegarOptions (f.items.drop 2) [] ⟨.all, false, true, 1000000⟩) fun x =>
      if x.1.isEmpty then st.failAt f "cegar needs at least one property atom"
      else modelSpec fs st fun st s =>
        st.withOk (built (buildCegarModel E.ids s x.1)) fun b =>
          match Cegar.run b.model x.2 E.fuel with
          | .error e => st.raise (.loop e)
          | .ok r =>
            if r.v.k = .cap then
              st.failAt f ("cegar: abstract search exceeded its cap (" ++
                toString r.v.statesWalked ++ " abstract states materialized; the abstraction " ++
                "diverged — raise `cap N` or coarsen the decomposition)")
            else reportCegar st name b r

def isFileCommand : Bool := decide (f.items.length = 2) && (f.item 1).isAtom

def writeFile (path text : String) : Session T :=
  { st with files := (path, text) :: st.files }

def doCertificate : Session.Answer T :=
  if !isFileCommand f then st.failAt f "certificate needs one file name"
  else
    let path := (f.item 1).text
    if st.lastCert = "" then
      (st.print ("certificate " ++ path ++ " skipped (no proof retained)\n"), none)
    else if !E.writable path then st.failAt f ("cannot write " ++ path)
    else ((writeFile st path st.lastCert).print ("certificate " ++ path ++ " (" ++
      toString st.lastCert.utf8ByteSize ++ " bytes)\n"), none)

/-- The model of a certificate's property atoms. -/
def bridgeOf (s : Spec) (atoms : List Datum) : Except String Cegar.Model :=
  match buildCegarModel E.ids s atoms with
  | .ok b => .ok b.model
  | .error e => .error (E.what e)

def reportCheck (s : Spec) (forms : List Datum) : Session.Answer T :=
  let lines := fun (ls : List String) => String.join (ls.map (· ++ "\n"))
  match Cegar.certcheck (bridgeOf E s) forms with
  | .error message => (st.print (lines (Cegar.gather forms).out)).raise (.refused message)
  | .ok (fails, out) => ({ st.print (lines out) with failures := st.failures + fails }, none)

def doCertcheck : Session.Answer T :=
  if !isFileCommand f then st.failAt f "certcheck needs one file name"
  else
    let path := (f.item 1).text
    match st.files.lookup path with
    | none => st.failAt f ("cannot read " ++ path)
    | some text =>
      match parse text.toList with
      | .error e => st.raise (.parse e)
      | .ok forms => modelSpec fs st fun st s => reportCheck E st s forms

/-- The forms as `print-spec` writes them. -/
def printedSpec (fs : List Datum) : String :=
  String.ofList (writeForms (fs.filter fun g => decide (g.head ≠ "print-spec")))

def doPrintSpec : Session.Answer T :=
  if isFileCommand f then
    if !E.writable (f.item 1).text then st.failAt f ("print-spec: cannot open " ++ (f.item 1).text)
    else (writeFile st (f.item 1).text (printedSpec fs), none)
  else if f.items.length ≠ 1 then st.failAt f "print-spec takes at most one file name"
  else (st.print (printedSpec fs), none)

/-! ## The queries on an explicit result -/

def xfail (text : String) : Session.Answer T :=
  ({ st.print text with failures := st.failures + 1 }, none)

def xcount (name : String) (res : ReachResult) : Session.Answer T :=
  match res.status with
  | .ok => (st.print (name ++ " count " ++ toString res.states.length ++ "\n"), none)
  | _ => xfail st (name ++ " count TOP\n")

def xexpect (name : String) (res : ReachResult) : Session.Answer T :=
  if f.items.length < 3 then st.failAt f "expect needs a count"
  else
    match stoull (f.item 2).text with
    | none => st.raise .number
    | some want =>
      let wanted := "FAIL " ++ name ++ " expected " ++ toString want ++ " got "
      match res.status with
      | .ok =>
        if res.states.length = want then
          (st.print ("ok " ++ name ++ " == " ++ toString want ++ "\n"), none)
        else xfail st (wanted ++ toString res.states.length ++ "\n")
      | .capped diagnostic => xfail st (wanted ++ "TOP (" ++ diagnostic ++ ")\n")
      | .error diagnostic _ => xfail st (wanted ++ "TOP (" ++ diagnostic ++ ")\n")

/-- The words, one a line. The specification is asked for with the first one. -/
def printWords (ws : List Xpl.Word) : Session.Answer T :=
  if ws.isEmpty then (st, none)
  else modelSpec fs st fun st s =>
    (st.print (String.join (ws.map fun w => wordText s w ++ "\n")), none)

def xgetStates (name : String) (res : ReachResult) : Session.Answer T :=
  st.withOk (if f.items.length > 2 then
      match stoll (f.item 2).text with
      | none => .error .number
      | some n => .ok (sizeOfInt n)
    else .ok 10) fun limit =>
  printWords fs (st.print (name ++ " " ++ toString res.states.length ++ " states, showing up to " ++
    toString limit ++ "\n")) (res.states.take limit)

def xgetWitness (name : String) (res : ReachResult) : Session.Answer T :=
  let st := st.print (name ++ " witness ")
  if res.states.isEmpty then (st.print "none\n", none) else printWords fs st (res.states.take 1)

/-- A statistic of a diagram: an explicit result has none. -/
def isStatistic (kw : String) : Bool :=
  ["nodes", "profile", "stock", "print", "max-value", "max-sum"].contains kw

def doForm : Session.Answer T :=
  let (t, text, e) := E.form st.translator f
  ({ st with translator := t, out := st.out ++ text }, e)

/-- The query of `f` on an explicit result, if it is one. -/
def overlay : Session.Answer T :=
  if f.items.length > 1 ∧ (f.item 1).isAtom then
    let name := (f.item 1).text
    match st.xresults.lookup name with
    | none => doForm E st f
    | some res =>
      if f.head = "count" then xcount st name res
      else if f.head = "expect" then xexpect st f name res
      else if f.head = "get-states" then xgetStates fs st f name res
      else if f.head = "get-witness" then xgetWitness fs st name res
      else if isStatistic f.head then
        (st.print (name ++ " " ++ f.head ++ " (unsupported)\n"), none)
      else doForm E st f
  else doForm E st f

/-- One form, in the batch `fs`. -/
def route : Session.Answer T :=
  if f.items.isEmpty then doForm E st f
  else if f.head = "xreach" then doXreach E fs st f
  else if f.head = "xdomains" then doXdomains E fs st
  else if f.head = "cegar" then doCegar E fs st f
  else if f.head = "certificate" then doCertificate E st f
  else if f.head = "certcheck" then doCertcheck E fs st f
  else if f.head = "print-spec" then doPrintSpec E fs st f
  else overlay E fs st f

end Commands

/-! ## Batches -/

/-- The passes a directive can invoke. -/
def registry : List String :=
  ["simplify-constants", "hotbit", "reorder-force", "reorder-reverse", "use-shape", "flatten",
   "simplify-arrays", "declare-domains", "decompose-louvain"]

def isDirective (f : Datum) : Bool := registry.contains f.head

/-- What a `cegar` wants done, unless the batch asked for it. -/
def cegarPasses : List String := ["simplify-constants", "simplify-arrays", "flatten"]

def wantsCegar (forms : List Datum) : Bool := forms.any fun f => decide (f.head = "cegar")

/-- The passes of a batch: its directives in their order, then those of a `cegar`. -/
def chainOf (forms : List Datum) : List (String × Datum) :=
  let asked := (forms.filter isDirective).map fun f => (f.head, f)
  if wantsCegar (forms.filter fun f => !isDirective f) then
    asked ++ (cegarPasses.filter fun n => !(asked.map Prod.fst).contains n).map fun n =>
      (n, .list [.atom n 0] 0)
  else asked

section Batches

variable {T : Type} (E : Engines T)

/-- The passes in order, with their traces. -/
def rewrite : List (String × Datum) → List Datum → Except Thrown (List Datum × String)
  | [], work => .ok (work, "")
  | (name, directive) :: chain, work => do
      let r ← E.apply name work directive
      let (work, log) ← rewrite chain r.forms
      return (work, "rewrite " ++ name ++ (if r.applied then ": " else " (identity): ") ++
        r.trace ++
        "\n" ++ log)

/-- The forms of a batch after its chain, and the lines of the chain. -/
def prepare (forms : List Datum) : Except Thrown (List Datum × String) :=
  rewrite E (chainOf forms) (forms.filter fun f => !isDirective f)

def routeAll (fs : List Datum) : List Datum → Session T → Session.Answer T
  | [], st => (st, none)
  | f :: forms, st =>
    match route E fs st f with
    | (st, none) => routeAll fs forms st
    | (st, some e) => (st, some e)

/-- One batch. -/
def feed (st : Session T) (forms : List Datum) : Session.Answer T :=
  st.withOk (prepare E forms) fun x => routeAll E x.1 x.1 (st.print x.2)

/-- The batches one after another, up to the first exception. -/
def feedAll : List (List Datum) → Session T → Session.Answer T
  | [], st => (st, none)
  | b :: bs, st =>
    match feed E st b with
    | (st, none) => feedAll bs st
    | (st, some e) => (st, some e)

/-- What a driver sees: the output, and the failure count or the exception. -/
def outcome (a : Session.Answer T) : String × Except Thrown Nat :=
  (a.1.out, match a.2 with
    | some e => .error e
    | none => .ok (E.translatorFailures a.1.translator + a.1.failures))

end Batches

end LibHSC.Surface
