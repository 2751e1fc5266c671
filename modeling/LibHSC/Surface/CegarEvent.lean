import LibHSC.Surface.CegarBuild
import LibHSC.Lia.Reads
import LibHSC.Xpl.Store

/-!
One event body, read twice. The explicit reader conjoins every guard atom and
keeps the updates apart; the bridge groups atoms and right-hand sides by leaf.
`Mirrors` is what the two readings share, clause by clause; from it, a firing of
the explicit engine is a move of every leaf.
-/

namespace LibHSC.Surface

open Lia Xpl

/-! ## What an accepted expression reads -/

section Within

variable {R : ExprIds} {sc : Scope} {P Q : Nat → Prop} {place : String}

theorem memberAlts_within {v : IExpr} (hv : v.Within P Q) : ∀ {ks : List Datum} {bs : List BExpr},
    memberAlts R v ks = .ok bs → ∀ b ∈ bs, b.Within P Q := by
  intro ks
  induction ks with
  | nil =>
    intro bs h
    cases h
    simp
  | cons k ks ih =>
    intro bs h
    unfold memberAlts at h
    split at h
    · cases h
    · next c hc =>
      obtain ⟨rest, hrest, h⟩ := bind_eq_ok.mp h
      cases h
      exact List.forall_mem_cons.mpr ⟨compare_within hv (IExpr.within_const c), ih hrest⟩

theorem boolForm_within {d : Datum} {op : String} {xs : List Datum}
    {ints : List (Except BuildError IExpr)} {bools : List (Except BuildError BExpr)} {b : BExpr}
    (hi : ∀ e, .ok e ∈ ints → e.Within P Q) (hb : ∀ e, .ok e ∈ bools → e.Within P Q)
    (h : boolForm R d op xs ints bools = .ok b) : b.Within P Q := by
  have hall : ∀ {bs : List BExpr}, bools.mapM id = .ok bs → ∀ x ∈ bs, x.Within P Q := by
    intro bs hbs x hx
    obtain ⟨e, he, hex⟩ := forall₂_mem_right (mapM_eq_ok hbs) hx
    exact hb x (hex ▸ he)
  unfold boolForm at h
  split at h
  · split at h
    · obtain ⟨x, hx, h⟩ := bind_eq_ok.mp h
      obtain ⟨y, hy, h⟩ := bind_eq_ok.mp h
      cases h
      exact compare_within (hi x (by simp [hx])) (hi y (by simp [hy]))
    · cases h
  · split at h
    · obtain ⟨bs, hbs, h⟩ := bind_eq_ok.mp h
      cases h
      exact conn_within (hall hbs)
    · split at h
      · obtain ⟨bs, hbs, h⟩ := bind_eq_ok.mp h
        cases h
        exact conn_within (hall hbs)
      · split at h
        · split at h
          · obtain ⟨x, hx, h⟩ := bind_eq_ok.mp h
            cases h
            exact neg_within (hb x (by simp [hx]))
          · cases h
        · split at h
          · split at h
            · obtain ⟨x, hx, h⟩ := bind_eq_ok.mp h
              obtain ⟨y, hy, h⟩ := bind_eq_ok.mp h
              cases h
              refine conn_within (List.forall_mem_cons.mpr ⟨neg_within (hb x (by simp [hx])), ?_⟩)
              exact List.forall_mem_singleton.mpr (hb y (by simp [hy]))
            · cases h
          · split at h
            · obtain ⟨v, hv, h⟩ := bind_eq_ok.mp h
              obtain ⟨bs, hbs, h⟩ := bind_eq_ok.mp h
              cases h
              exact conn_within (memberAlts_within (hi v (by simp [hv])) hbs)
            · cases h

theorem made_eq_ok {α : Type} {x : Except Err α} {a : α} : made x = .ok a ↔ x = .ok a := by
  cases x with
  | ok b => simp [made]
  | error e => simp [made]

theorem intForm_within {d : Datum} {op : String} {xs : List Datum}
    {ints : List (Except BuildError IExpr)} {e : IExpr} (hop : op ≠ "at")
    (hi : ∀ e, .ok e ∈ ints → e.Within P Q) (h : intForm R sc d op xs ints = .ok e) :
    e.Within P Q := by
  unfold intForm at h
  rw [if_neg hop] at h
  split at h
  · split at h
    · obtain ⟨x, hx, h⟩ := bind_eq_ok.mp h
      cases h
      exact bitComp_within (hi x (by simp [hx]))
    · cases h
  · split at h
    · obtain ⟨x, hx, h⟩ := bind_eq_ok.mp h
      obtain ⟨y, hy, h⟩ := bind_eq_ok.mp h
      have hwx := hi x (by simp [hx])
      have hwy := hi y (by simp [hy])
      have hxy : ∀ z ∈ [x, y], z.Within P Q :=
        List.forall_mem_cons.mpr ⟨hwx, List.forall_mem_singleton.mpr hwy⟩
      split at h
      · exact nary_within hxy (made_eq_ok.mp h)
      · split at h
        · exact nary_within hxy (made_eq_ok.mp h)
        · split at h
          · exact binary_within hwx hwy (made_eq_ok.mp h)
          · cases h
    · cases h

/-- The head and the operands of an accepted form. -/
theorem refuseAt_list {x : Datum} {xs : List Datum} {n : Int}
    (h : refuseAt place (.list (x :: xs) n) = .ok ()) :
    (Datum.list (x :: xs) n).head ≠ "at" ∧ refuseAtAll place xs = .ok () := by
  rw [refuseAt] at h
  split at h
  · cases h
  · next hhead =>
    rw [refuseAtAll] at h
    obtain ⟨⟨⟩, -, h⟩ := bind_eq_ok.mp h
    exact ⟨hhead, h⟩

theorem readAtom_within (hsc : ∀ t p, sc.position t = some p → P p) {d : Datum} {e : IExpr}
    (h : readAtom sc d = .ok e) : e.Within P Q := by
  unfold readAtom at h
  split at h
  · cases h
    exact IExpr.within_const _
  · split at h
    · next p hp =>
      cases h
      exact IExpr.within_var.mpr (hsc _ p hp)
    · split at h
      · cases h
      · cases h

mutual

/-- Without an access, a datum reads the scalars of the scope and no cell. -/
theorem readInt_within (hsc : ∀ t p, sc.position t = some p → P p) : (d : Datum) →
    ∀ {e : IExpr}, refuseAt place d = .ok () →
    readInt R sc d = .ok e → e.Within P Q
  | .atom t n, e, _, h => by
    rw [readInt] at h
    exact readAtom_within hsc h
  | .list [] n, e, _, h => by
    rw [readInt] at h
    cases h
  | .list (x :: xs) n, e, hat, h => by
    obtain ⟨hhead, hxs⟩ := refuseAt_list hat
    have hi := fun e => readInts_within (e := e) hsc xs hxs
    have hb := fun b => readBools_within (b := b) hsc xs hxs
    rw [readInt] at h
    split at h
    · obtain ⟨b, hb', h⟩ := bind_eq_ok.mp h
      cases h
      exact wrap_within (boolForm_within hi hb hb')
    · exact intForm_within hhead hi h

theorem readBool_within (hsc : ∀ t p, sc.position t = some p → P p) : (d : Datum) →
    ∀ {b : BExpr}, refuseAt place d = .ok () →
    readBool R sc d = .ok b → b.Within P Q
  | .atom t n, b, _, h => by
    rw [readBool] at h
    obtain ⟨e, he, h⟩ := bind_eq_ok.mp h
    cases h
    exact compare_within (readAtom_within hsc he) (IExpr.within_const 0)
  | .list [] n, b, _, h => by
    rw [readBool] at h
    cases h
  | .list (x :: xs) n, b, hat, h => by
    obtain ⟨hhead, hxs⟩ := refuseAt_list hat
    have hi := fun e => readInts_within (e := e) hsc xs hxs
    have hb := fun b => readBools_within (b := b) hsc xs hxs
    rw [readBool] at h
    split at h
    · exact boolForm_within hi hb h
    · obtain ⟨e, he, h⟩ := bind_eq_ok.mp h
      cases h
      exact compare_within (intForm_within hhead hi he) (IExpr.within_const 0)

theorem readInts_within (hsc : ∀ t p, sc.position t = some p → P p) : (xs : List Datum) →
    ∀ {e : IExpr}, refuseAtAll place xs = .ok () →
    .ok e ∈ readInts R sc xs → e.Within P Q
  | [], e, _, h => by
    rw [readInts] at h
    exact absurd h List.not_mem_nil
  | x :: xs, e, hat, h => by
    rw [refuseAtAll] at hat
    obtain ⟨⟨⟩, hx, hxs⟩ := bind_eq_ok.mp hat
    rw [readInts] at h
    rcases List.mem_cons.mp h with h | h
    · exact readInt_within hsc x hx h.symm
    · exact readInts_within hsc xs hxs h

theorem readBools_within (hsc : ∀ t p, sc.position t = some p → P p) : (xs : List Datum) →
    ∀ {b : BExpr}, refuseAtAll place xs = .ok () →
    .ok b ∈ readBools R sc xs → b.Within P Q
  | [], b, _, h => by
    rw [readBools] at h
    exact absurd h List.not_mem_nil
  | x :: xs, b, hat, h => by
    rw [refuseAtAll] at hat
    obtain ⟨⟨⟩, hx, hxs⟩ := bind_eq_ok.mp hat
    rw [readBools] at h
    rcases List.mem_cons.mp h with h | h
    · exact readBool_within hsc x hx h.symm
    · exact readBools_within hsc xs hxs h

end

end Within

/-! ## Evaluation reads what an expression names -/

/-- No cell is named. -/
abbrev NoCell : Nat → Prop := fun _ => False

section Local

variable {P : Nat → Prop} {env env' : Xpl.Word}

theorem evalInt_within {e : IExpr} (h : e.Within P NoCell) (hlen : env.length = env'.length)
    (hsame : ∀ p, P p → env[p]? = env'[p]?) : Xpl.evalInt env e = Xpl.evalInt env' e :=
  evalInt_congr e ⟨hlen, fun p hp => hsame p (h.scalars p hp)⟩
    ⟨hlen, fun p hp => (h.cells p hp).elim⟩

theorem evalBool_within {b : BExpr} (h : b.Within P NoCell) (hlen : env.length = env'.length)
    (hsame : ∀ p, P p → env[p]? = env'[p]?) : Xpl.evalBool env b = Xpl.evalBool env' b :=
  evalBool_congr b ⟨hlen, fun p hp => hsame p (h.scalars p hp)⟩
    ⟨hlen, fun p hp => (h.cells p hp).elim⟩

theorem strictInt_within {e : IExpr} (h : e.Within P NoCell) (hlen : env.length = env'.length)
    (hsame : ∀ p, P p → env[p]? = env'[p]?) : strictInt env e = strictInt env' e := by
  unfold strictInt
  rw [evalInt_within h hlen hsame]

theorem flattenConn_yes {xs : List BExpr} :
    (∀ x ∈ flattenConn .conj xs, Xpl.evalBool env x = .ok .yes) ↔
      ∀ x ∈ xs, Xpl.evalBool env x = .ok .yes := by
  induction xs with
  | nil => simp [flattenConn]
  | cons x xs ih =>
    rw [List.forall_mem_cons]
    unfold flattenConn
    split
    · simp_all
    · next heq =>
      cases heq
      split
      · next hk =>
        subst hk
        rw [List.forall_mem_append, ih, Xpl.evalBool, evalConn_conj]
        simp
      · rw [List.forall_mem_cons, ih]
    · next heq =>
      cases heq
      split
      · next hx =>
        rw [ih, hx]
        simp [ConnOp.neutral, Xpl.evalBool]
      · rw [List.forall_mem_cons, ih]

theorem evalBool_conj {R : ExprIds} {a b : BExpr} :
    Xpl.evalBool env (conj R a b) = .ok .yes ↔
      Xpl.evalBool env a = .ok .yes ∧ Xpl.evalBool env b = .ok .yes := by
  have hflat : (∀ x ∈ sortBools R (flattenConn .conj [a, b]).dedup, Xpl.evalBool env x = .ok .yes) ↔
      Xpl.evalBool env a = .ok .yes ∧ Xpl.evalBool env b = .ok .yes := by
    have hmem : ∀ x, x ∈ sortBools R (flattenConn .conj [a, b]).dedup ↔
        x ∈ flattenConn .conj [a, b] := by
      intro x
      rw [sortBools, (List.perm_insertionSort _ _).mem_iff, List.mem_dedup]
    simp only [hmem, flattenConn_yes]
    simp
  unfold conj conn
  split
  · next habs =>
    have hfalse : Xpl.evalBool env .bfalse ≠ .ok .yes := by simp [Xpl.evalBool]
    refine iff_of_false (by simpa [ConnOp.absorbing] using hfalse) ?_
    rintro ⟨ha, hb⟩
    rcases List.mem_cons.mp habs with h | h
    · exact hfalse (by rw [← ha, ← h]; rfl)
    · exact hfalse (by rw [← hb, ← List.mem_singleton.mp h]; rfl)
  · rw [← hflat]
    unfold packBools
    split
    · simp [ConnOp.neutral, Xpl.evalBool, *]
    · next x hx => simp [hx]
    · rw [Xpl.evalBool, evalConn_conj]
      simp

end Local

/-! ## The two readings of an event -/

/-- An assignment to a leaf. -/
def assignOf (x : Nat × IExpr) : Action := .assign ⟨[x.1], none⟩ x.2

/-- The atoms and right-hand sides of the bridge, `ev`, against the filter and the updates of
the explicit reader. The updates are the actions cut at the clauses, no leaf twice in one. -/
structure Mirrors (n : Nat) (ev : LocalEvent) (guard : BExpr) (kids : List Xpl.Term) : Prop where
  guard : ∀ w : Xpl.Word, w.length = n → (Xpl.evalBool w guard = .ok .yes ↔
    ev.dead = false ∧ ∀ x ∈ ev.guards, Xpl.evalBool w x.2 = .ok .yes)
  guards : ∀ x ∈ ev.guards, x.1 < n ∧ x.2.Within (· = x.1) NoCell
  acts : ∀ x ∈ ev.acts, x.1 < n ∧ x.2.Within (· = x.1) NoCell
  updates : ∃ cs : List (List (Nat × IExpr)), kids = cs.map (fun c => .update (c.map assignOf)) ∧
    ev.acts = cs.flatten ∧ ∀ c ∈ cs, (c.map Prod.fst).Nodup

section Mirrors

variable {R : ExprIds} {sc : Scope} {seed : Xpl.Word} {n : Nat}

theorem mem_of_supportBool {b : BExpr} {ps : List Nat} (h : supportBool b = ps) {p : Nat} :
    p ∈ collectBool b ↔ p ∈ ps := by
  rw [← h, supportBool, mem_sortPositions]

/-- The position of a leaf is on the frontier. -/
abbrev Scope.Bounded (sc : Scope) (n : Nat) : Prop := ∀ t p, sc.position t = some p → p < n

namespace Mirrors

variable {ev : LocalEvent} {guard b : BExpr} {kids : List Xpl.Term}

/-- A constant atom that holds. -/
theorem hoist_yes (hm : Mirrors n ev guard kids)
    (hb : ∀ w : Xpl.Word, w.length = n → Xpl.evalBool w b = .ok .yes) :
    Mirrors n ev (conj R guard b) kids where
  guard w hw := by
    rw [evalBool_conj, hb w hw, hm.guard w hw]
    simp
  guards := hm.guards
  acts := hm.acts
  updates := hm.updates

/-- A constant atom that fails: the event never fires. -/
theorem hoist_no (hm : Mirrors n ev guard kids)
    (hb : ∀ w : Xpl.Word, w.length = n → Xpl.evalBool w b = .ok .no) :
    Mirrors n { ev with dead := true } (conj R guard b) kids where
  guard w hw := by
    rw [evalBool_conj, hb w hw]
    simp
  guards := hm.guards
  acts := hm.acts
  updates := hm.updates

theorem hoist_local (hm : Mirrors n ev guard kids) {p : Nat} (hp : p < n)
    (hb : b.Within (· = p) NoCell) :
    Mirrors n { ev with guards := ev.guards ++ [(p, b)] } (conj R guard b) kids where
  guard w hw := by
    rw [evalBool_conj, hm.guard w hw, List.forall_mem_append, List.forall_mem_singleton, and_assoc]
  guards x hx := by
    rcases List.mem_append.mp hx with hx | hx
    · exact hm.guards x hx
    · obtain rfl := List.mem_singleton.mp hx
      exact ⟨hp, hb⟩
  acts := hm.acts
  updates := hm.updates

/-- One `do` more. -/
theorem update (hm : Mirrors n ev guard kids) {c : List (Nat × IExpr)}
    (hnd : (c.map Prod.fst).Nodup) (hc : ∀ x ∈ c, x.1 < n ∧ x.2.Within (· = x.1) NoCell) :
    Mirrors n { ev with acts := ev.acts ++ c } guard (kids ++ [.update (c.map assignOf)]) where
  guard := hm.guard
  guards := hm.guards
  acts := List.forall_mem_append.mpr ⟨hm.acts, hc⟩
  updates := by
    obtain ⟨cs, rfl, hacts, hcs⟩ := hm.updates
    refine ⟨cs ++ [c], by simp, by simp [hacts], ?_⟩
    exact List.forall_mem_append.mpr ⟨hcs, List.forall_mem_singleton.mpr hnd⟩

end Mirrors

/-- An action of the fragment, as the explicit reader has it. -/
theorem readAction_assign {act x lhs e : Datum} {p : Nat} {rhs : IExpr}
    (hitems : act.items = [x, lhs, e])
    (hhead : act.head = ":=" ∨ act.head = "+=" ∨ act.head = "-=") (hatom : lhs.isAtom = true)
    (hp : sc.position lhs.text = some p) (hrhs : readRhs R sc act.head p e = .ok rhs) :
    readAction R sc act = .ok (assignOf (p, rhs)) := by
  have htarget : readTarget R sc lhs = .ok (⟨[p], none⟩, .var p) := by
    rw [readTarget, if_pos hatom, hp]
  obtain ⟨v, hv, hrhs⟩ := bind_eq_ok.mp hrhs
  have hhavoc : act.head ≠ "havoc" := by
    rcases hhead with h | h | h
    · simp [h]
    · simp [h]
    · simp [h]
  unfold readAction
  rw [hitems, if_neg (by simp), if_neg hhavoc, if_pos hhead]
  simp only [htarget, hv, bind, Except.bind]
  rcases hhead with h | h | h
  · simp only [h, if_true] at hrhs ⊢
    cases hrhs
    rfl
  · simp only [h, String.reduceEq, if_false, if_true] at hrhs ⊢
    rw [hrhs]
    rfl
  · simp only [h, String.reduceEq, if_false] at hrhs ⊢
    rw [hrhs]
    rfl

theorem readRhs_within {op : String} {p : Nat} {e : Datum} {rhs : IExpr} {place : String}
    (hsc : sc.Bounded n) (hp : p < n) (hat : refuseAt place e = .ok ())
    (h : readRhs R sc op p e = .ok rhs) : rhs.Within (· < n) NoCell := by
  obtain ⟨v, hv, h⟩ := bind_eq_ok.mp h
  have hwv : v.Within (· < n) NoCell := readInt_within hsc e hat hv
  have hwp : (IExpr.var p).Within (· < n) NoCell := IExpr.within_var.mpr hp
  split at h
  · cases h
    exact hwv
  · split at h
    · exact add_within hwp hwv (made_eq_ok.mp h)
    · exact binary_within hwp hwv (made_eq_ok.mp h)

variable (hsc : sc.Bounded n)

include hsc

/-- The actions of one `do`, as the explicit reader has them. -/
theorem readActs_assigns : ∀ {acts : List Datum} {written : List Nat} {ev ev' : LocalEvent},
    written.Nodup → readActs R sc acts written ev = .ok ev' →
    ∃ c : List (Nat × IExpr), acts.mapM (readAction R sc) = .ok (c.map assignOf) ∧
      ev' = { ev with acts := ev.acts ++ c } ∧ (written ++ c.map Prod.fst).Nodup ∧
      ∀ x ∈ c, x.1 < n ∧ x.2.Within (· = x.1) NoCell := by
  intro acts
  induction acts with
  | nil =>
    intro written ev ev' hnd h
    cases h
    exact ⟨[], rfl, by simp, by simpa using hnd, by simp⟩
  | cons act acts ih =>
    intro written ev ev' hnd h
    rw [readActs] at h
    split at h
    · next x lhs e hitems =>
      split at h
      · cases h
      · next hhead =>
        split at h
        · cases h
        · next hatom =>
          split at h
          · cases h
          · next p hp =>
            split at h
            · cases h
            · next hw =>
              obtain ⟨⟨⟩, hat, h⟩ := bind_eq_ok.mp h
              obtain ⟨rhs, hrhs, h⟩ := bind_eq_ok.mp h
              split at h
              · cases h
              · next hlocal =>
                have hnd' : (written ++ [p]).Nodup :=
                  List.nodup_append.mpr ⟨hnd, by simp, fun a ha b hb he =>
                    hw (List.mem_singleton.mp hb ▸ he ▸ ha)⟩
                obtain ⟨c, hc, rfl, hcnd, hcw⟩ := ih hnd' h
                have hact := readAction_assign hitems (not_not.mp hhead)
                  (by simpa using hatom) hp hrhs
                have hwr := readRhs_within hsc (hsc _ p hp) hat hrhs
                refine ⟨(p, rhs) :: c, ?_, by simp, by simpa using hcnd,
                  List.forall_mem_cons.mpr ⟨⟨hsc _ p hp, ?_, hwr.cells⟩, hcw⟩⟩
                · rw [List.mapM_cons, hact, hc]
                  rfl
                · intro q hq
                  by_contra hne
                  exact hlocal (List.any_eq_true.mpr
                    ⟨q, mem_sortPositions.mpr hq, decide_eq_true hne⟩)
    · cases h

variable (hseed : seed.length = n)

include hseed

/-- The atoms of one `when`: a constant one is the same in every state. -/
theorem readAtoms_mirrors {kids : List Xpl.Term} : ∀ {atoms : List Datum} {ev ev' : LocalEvent}
    {guard : BExpr}, Mirrors n ev guard kids → readAtoms R sc seed atoms ev = .ok ev' →
    ∃ guard', hoist R sc atoms guard = .ok guard' ∧ Mirrors n ev' guard' kids := by
  intro atoms
  induction atoms with
  | nil =>
    intro ev ev' guard hm h
    cases h
    exact ⟨guard, rfl, hm⟩
  | cons atom atoms ih =>
    intro ev ev' guard hm h
    rw [readAtoms] at h
    obtain ⟨⟨⟩, hat, h⟩ := bind_eq_ok.mp h
    obtain ⟨b, hb, h⟩ := bind_eq_ok.mp h
    have hwithin : b.Within (· < n) NoCell := readBool_within hsc atom hat hb
    have hhoist : hoist R sc (atom :: atoms) guard = hoist R sc atoms (conj R guard b) := by
      rw [hoist, hb]
      rfl
    rw [hhoist]
    split at h
    · next hsup =>
      have hconst : b.Within (fun _ => False) NoCell :=
        ⟨fun p hp => by simpa using (mem_of_supportBool hsup).mp hp, hwithin.cells⟩
      have hsame : ∀ w : Xpl.Word, w.length = n → Xpl.evalBool w b = Xpl.evalBool seed b :=
        fun w hw => evalBool_within hconst (hw.trans hseed.symm) fun p hp => hp.elim
      split at h
      · cases h
      · cases h
      · next hno => exact ih (hm.hoist_no fun w hw => (hsame w hw).trans hno) h
      · next hyes => exact ih (hm.hoist_yes fun w hw => (hsame w hw).trans hyes) h
    · next p hsup =>
      have hp : p < n := hwithin.scalars p ((mem_of_supportBool hsup).mpr (by simp))
      have hlocal : b.Within (· = p) NoCell :=
        ⟨fun q hq => by simpa using (mem_of_supportBool hsup).mp hq, hwithin.cells⟩
      exact ih (hm.hoist_local hp hlocal) h
    · cases h

theorem readEventClauses_mirrors : ∀ {cls : List Datum} {ev ev' : LocalEvent} {guard : BExpr}
    {kids : List Xpl.Term}, Mirrors n ev guard kids → readEventClauses R sc seed cls ev = .ok ev' →
    ∃ guard' kids', readClauses R sc cls guard kids = .ok (guard', kids') ∧
      Mirrors n ev' guard' kids' := by
  intro cls
  induction cls with
  | nil =>
    intro ev ev' guard kids hm h
    cases h
    exact ⟨guard, kids, rfl, hm⟩
  | cons cl cls ih =>
    intro ev ev' guard kids hm h
    rw [readEventClauses] at h
    rw [readClauses]
    split at h
    · cases h
    · next hne =>
      rw [if_neg hne]
      split at h
      · next hwhen =>
        obtain ⟨ev₁, hev₁, h⟩ := bind_eq_ok.mp h
        obtain ⟨guard₁, hguard₁, hm₁⟩ := readAtoms_mirrors hsc hseed hm hev₁
        rw [if_pos hwhen, hguard₁]
        exact ih hm₁ h
      · next hwhen =>
        split at h
        · next hdo =>
          obtain ⟨ev₁, hev₁, h⟩ := bind_eq_ok.mp h
          obtain ⟨c, hc, rfl, hnd, hcw⟩ := readActs_assigns hsc List.nodup_nil hev₁
          rw [if_neg hwhen, if_pos hdo, hc]
          exact ih (hm.update (by simpa using hnd) hcw) h
        · cases h

/-- An event the bridge reads is one the explicit reader reads. -/
theorem readEvent_mirrors {src : Source} {ev : LocalEvent} (h : readEvent R sc seed src = .ok ev) :
    ∃ guard kids, buildEvent R sc src = .ok ⟨src.name, src.line, rootOf guard kids, guard⟩ ∧
      Mirrors n ev guard kids := by
  have hstart : Mirrors n ⟨src.name, src.line, false, [], []⟩ .btrue [] := by
    refine ⟨fun w _ => ?_, by simp, by simp, [], rfl, rfl, by simp⟩
    simp [Xpl.evalBool]
  obtain ⟨guard, kids, hread, hm⟩ := readEventClauses_mirrors hsc hseed hstart h
  refine ⟨guard, kids, ?_, hm⟩
  rw [buildEvent, hread]
  rfl

end Mirrors

/-! ## Firing -/

/-- The assignments one after the other. -/
def runAssigns : List (Nat × IExpr) → Xpl.Word → Except EvalError Xpl.Word
  | [], w => .ok w
  | x :: c, w => do runAssigns c (w.set x.1 (← strictInt w x.2))

theorem runAssigns_append (c d : List (Nat × IExpr)) (w : Xpl.Word) :
    runAssigns (c ++ d) w = (runAssigns c w >>= runAssigns d) := by
  induction c generalizing w with
  | nil => rfl
  | cons x c ih =>
    rw [List.cons_append, runAssigns, runAssigns]
    cases strictInt w x.2 with
    | error e => rfl
    | ok v => exact ih (w.set x.1 v)

/-- The values of the right-hand sides, all in one state. -/
def writesOf (w : Xpl.Word) : List (Nat × IExpr) → Except EvalError (List (Nat × Int))
  | [] => .ok []
  | x :: c => do
      let v ← strictInt w x.2
      return (x.1, v) :: (← writesOf w c)

theorem gather_assigns (w : Xpl.Word) (c : List (Nat × IExpr)) :
    Xpl.gather w (c.map assignOf) = (writesOf w c).map fun ws => (ws, []) := by
  induction c with
  | nil => rfl
  | cons x c ih =>
    rw [List.map_cons, assignOf, Xpl.gather, writesOf, ih]
    cases strictInt w x.2 with
    | error e => rfl
    | ok v =>
      cases writesOf w c with
      | error e => rfl
      | ok ws => rfl

theorem writesOf_fst {w : Xpl.Word} {c : List (Nat × IExpr)} : ∀ {ws : List (Nat × Int)},
    writesOf w c = .ok ws → ws.map Prod.fst = c.map Prod.fst := by
  induction c with
  | nil =>
    intro ws h
    cases h
    rfl
  | cons x c ih =>
    intro ws h
    obtain ⟨v, -, h⟩ := bind_eq_ok.mp h
    obtain ⟨ws', hws', h⟩ := bind_eq_ok.mp h
    cases h
    rw [List.map_cons, List.map_cons, ih hws']

/-- A clause that writes no leaf twice and reads, for each, the leaf alone: simultaneous is
one after the other. -/
theorem runAssigns_eq_writesOf {w : Xpl.Word} {c : List (Nat × IExpr)} : ∀ {u : Xpl.Word},
    (c.map Prod.fst).Nodup → (∀ x ∈ c, x.2.Within (· = x.1) NoCell) → u.length = w.length →
    (∀ x ∈ c, u[x.1]? = w[x.1]?) →
    runAssigns c u = (writesOf w c).map fun ws => ws.foldl (fun u y => u.set y.1 y.2) u := by
  induction c with
  | nil => exact fun _ _ _ _ => rfl
  | cons x c ih =>
    intro u hnd hlocal hlen hsame
    obtain ⟨hx, hnd⟩ := List.nodup_cons.mp hnd
    obtain ⟨hlx, hlocal⟩ := List.forall_mem_cons.mp hlocal
    obtain ⟨hsx, hsame⟩ := List.forall_mem_cons.mp hsame
    have hv : strictInt u x.2 = strictInt w x.2 :=
      strictInt_within hlx hlen fun p hp => hp ▸ hsx
    rw [runAssigns, writesOf, hv]
    cases strictInt w x.2 with
    | error e => rfl
    | ok v =>
      have hrest : ∀ y ∈ c, (u.set x.1 v)[y.1]? = w[y.1]? := by
        intro y hy
        rw [List.getElem?_set_ne fun he => hx (List.mem_map.mpr ⟨y, hy, he.symm⟩)]
        exact hsame y hy
      have hnext := ih hnd hlocal (by rw [List.length_set]; exact hlen) hrest
      cases hws : writesOf w c with
      | error e =>
        rw [hws] at hnext
        exact hnext
      | ok ws =>
        rw [hws] at hnext
        exact hnext

theorem foldl_write (ws : List (Nat × Int)) : ∀ b : Branch,
    ws.foldl (fun b x => b.write x.1 x.2) b =
      ⟨ws.foldl (fun u y => u.set y.1 y.2) b.s, b.touched ++ ws.map Prod.fst⟩ := by
  induction ws with
  | nil =>
    intro b
    simp
  | cons x ws ih =>
    intro b
    rw [List.foldl_cons, List.foldl_cons, ih]
    simp [Branch.write]

theorem applyUpdate_assigns {c : List (Nat × IExpr)} (hnd : (c.map Prod.fst).Nodup)
    (hlocal : ∀ x ∈ c, x.2.Within (· = x.1) NoCell) (b : Branch) :
    applyUpdate (c.map assignOf) b =
      (runAssigns c b.s).map fun w => [⟨w, b.touched ++ c.map Prod.fst⟩] := by
  rw [runAssigns_eq_writesOf hnd hlocal rfl fun _ _ => rfl, applyUpdate, gather_assigns]
  cases hws : writesOf b.s c with
  | error e => rfl
  | ok ws =>
    have hfst := writesOf_fst hws
    show (if (ws.map Prod.fst ++ []).Nodup then _ else _) = _
    rw [List.append_nil, hfst, if_pos hnd, ← hfst]
    exact congrArg (fun b => Except.ok [b]) (foldl_write ws b)

/-- The updates of an event, clause by clause. -/
theorem interpSeq_updates {cs : List (List (Nat × IExpr))} : ∀ {b : Branch},
    (∀ c ∈ cs, (c.map Prod.fst).Nodup) → (∀ c ∈ cs, ∀ x ∈ c, x.2.Within (· = x.1) NoCell) →
    interpSeq (cs.map fun c => .update (c.map assignOf)) [b] =
      (runAssigns cs.flatten b.s).map fun w =>
        [⟨w, b.touched ++ cs.flatten.map Prod.fst⟩] := by
  induction cs with
  | nil =>
    intro b _ _
    simp [interpSeq, runAssigns, Except.map]
  | cons c cs ih =>
    intro b hnd hlocal
    obtain ⟨hc, hnd⟩ := List.forall_mem_cons.mp hnd
    obtain ⟨hlc, hlocal⟩ := List.forall_mem_cons.mp hlocal
    rw [List.map_cons, interpSeq, interp, updateAll, updateAll, applyUpdate_assigns hc hlc,
      List.flatten_cons, runAssigns_append]
    cases runAssigns c b.s with
    | error e => rfl
    | ok w =>
      have hnext := ih (b := ⟨w, b.touched ++ c.map Prod.fst⟩) hnd hlocal
      simp only [Except.map, bind, Except.bind, pure, Except.pure, List.append_nil,
        List.isEmpty_cons, Bool.false_eq_true, if_false]
      rw [hnext]
      simp only [List.map_append, List.append_assoc]
      rfl

theorem interpSeq_singleton (kid : Xpl.Term) (bs : List Branch) :
    interpSeq [kid] bs = interp kid bs := by
  rw [interpSeq]
  cases interp kid bs with
  | error e => rfl
  | ok bs' =>
    cases bs' with
    | nil => rfl
    | cons b bs' => rfl

theorem interp_rootOf (guard : BExpr) (kids : List Xpl.Term) (bs : List Branch) :
    interp (rootOf guard kids) bs =
      interpSeq (if guard = .btrue then kids else .filter guard :: kids) bs := by
  unfold rootOf
  split
  · next kid hkid => rw [hkid, interpSeq_singleton]
  · rw [interp]

/-- The successors of a state: the guard decides, the assignments give the one successor. -/
theorem interp_updates {guard : BExpr} {cs : List (List (Nat × IExpr))}
    (hnd : ∀ c ∈ cs, (c.map Prod.fst).Nodup)
    (hlocal : ∀ c ∈ cs, ∀ x ∈ c, x.2.Within (· = x.1) NoCell) {w t : Xpl.Word} :
    (∃ bs, Xpl.interp (rootOf guard (cs.map fun c => .update (c.map assignOf))) [⟨w, []⟩] =
        .ok bs ∧ ∃ b ∈ bs, b.s = t) ↔
      Xpl.evalBool w guard = .ok .yes ∧ runAssigns cs.flatten w = .ok t := by
  have hseq := interpSeq_updates (b := ⟨w, []⟩) hnd hlocal
  have hrun : (∃ bs, interpSeq (cs.map fun c => .update (c.map assignOf)) [⟨w, []⟩] = .ok bs ∧
      ∃ b ∈ bs, b.s = t) ↔ runAssigns cs.flatten w = .ok t := by
    rw [hseq]
    cases runAssigns cs.flatten w with
    | error e => simp [Except.map]
    | ok u => simp [Except.map]
  rw [interp_rootOf, ← hrun]
  by_cases hg : guard = .btrue
  · rw [if_pos hg, hg]
    simp [Xpl.evalBool]
  · rw [if_neg hg, interpSeq, Xpl.interp, keepDecided, keepDecided, decideGuard]
    cases Xpl.evalBool w guard with
    | error e => simp [bind, Except.bind]
    | ok r =>
      cases r with
      | yes => simp [bind, Except.bind, pure, Except.pure]
      | no => simp [bind, Except.bind, pure, Except.pure]
      | undef => simp [bind, Except.bind]

theorem Mirrors.interp {n : Nat} {ev : LocalEvent} {guard : BExpr} {kids : List Xpl.Term}
    (hm : Mirrors n ev guard kids) {w t : Xpl.Word} :
    (∃ bs, Xpl.interp (rootOf guard kids) [⟨w, []⟩] = .ok bs ∧ ∃ b ∈ bs, b.s = t) ↔
      Xpl.evalBool w guard = .ok .yes ∧ runAssigns ev.acts w = .ok t := by
  obtain ⟨cs, rfl, hacts, hnd⟩ := hm.updates
  rw [hacts]
  refine interp_updates hnd fun c hc x hx => ?_
  exact (hm.acts x (hacts ▸ List.mem_flatten.mpr ⟨c, hc, hx⟩)).2

/-! ## Leaf by leaf -/

/-- What an event does on the leaf `p`, in the seed with the leaf's own value. -/
structure LocalMove (ev : LocalEvent) (seed : Xpl.Word) (p : Nat) (v v' : Int) : Prop where
  guards : ∀ b ∈ ev.guardsAt p, Xpl.evalBool (seed.set p v) b = .ok .yes
  acts : runActs ev p seed (ev.actsAt p) v = .ok v'

section LeafByLeaf

theorem select_cons_self {α : Type} {p : Nat} {a : α} {xs : List (Nat × α)} :
    ((p, a) :: xs).filterMap (fun x => if x.1 = p then some x.2 else none) =
      a :: xs.filterMap fun x => if x.1 = p then some x.2 else none := by
  simp

theorem select_cons_ne {α : Type} {p q : Nat} (h : p ≠ q) {a : α} {xs : List (Nat × α)} :
    ((p, a) :: xs).filterMap (fun x => if x.1 = q then some x.2 else none) =
      xs.filterMap fun x => if x.1 = q then some x.2 else none := by
  simp [h]

variable {seed : Xpl.Word} {n : Nat} (hseed : seed.length = n)

theorem getElem?_eq_getD {w : Xpl.Word} {p : Nat} (hp : p < w.length) : w[p]? =
    some (w.getD p 0) := by
  rw [List.getD_eq_getElem?_getD, List.getElem?_eq_getElem hp]
  rfl

theorem word_ext {w t : Xpl.Word} (hlen : w.length = t.length)
    (h : ∀ p < w.length, w.getD p 0 = t.getD p 0) : w = t := by
  refine List.ext_getElem? fun p => ?_
  by_cases hp : p < w.length
  · rw [getElem?_eq_getD hp, getElem?_eq_getD (hlen ▸ hp), h p hp]
  · rw [List.getElem?_eq_none (by omega), List.getElem?_eq_none (by omega)]

include hseed

theorem seed_agrees {w : Xpl.Word} (hw : w.length = n) {p : Nat} (hp : p < n) :
    ∀ q, q = p → w[q]? = (seed.set p (w.getD p 0))[q]? := by
  rintro q rfl
  rw [List.getElem?_set_self (by omega), getElem?_eq_getD (by omega)]

/-- The assignments of a separable event run leaf by leaf. By induction on them: the first
one moves its own leaf. -/
theorem runAssigns_iff (ev : LocalEvent) {acts : List (Nat × IExpr)} : ∀ {w t : Xpl.Word},
    (∀ x ∈ acts, x.1 < n ∧ x.2.Within (· = x.1) NoCell) → w.length = n →
    (runAssigns acts w = .ok t ↔ t.length = n ∧ ∀ p < n,
      runActs ev p seed (acts.filterMap fun x => if x.1 = p then some x.2 else none)
        (w.getD p 0) = .ok (t.getD p 0)) := by
  induction acts with
  | nil =>
    intro w t _ hw
    simp only [runAssigns, List.filterMap_nil, runActs, Except.ok.injEq]
    constructor
    · rintro rfl
      exact ⟨hw, fun _ _ => rfl⟩
    · rintro ⟨ht, h⟩
      exact word_ext (hw.trans ht.symm) (hw ▸ h)
  | cons x acts ih =>
    intro w t hacts hw
    obtain ⟨p, e⟩ := x
    obtain ⟨⟨hp, hlocal⟩, hacts⟩ := List.forall_mem_cons.mp hacts
    have hv : strictInt w e = strictInt (seed.set p (w.getD p 0)) e :=
      strictInt_within hlocal (by rw [List.length_set, hw, hseed]) (seed_agrees hseed hw hp)
    rw [runAssigns, hv]
    cases hr : strictInt (seed.set p (w.getD p 0)) e with
    | error err =>
      refine iff_of_false (by simp [bind, Except.bind]) ?_
      rintro ⟨-, h⟩
      have hpp := h p hp
      rw [select_cons_self, runActs, hr] at hpp
      cases hpp
    | ok v =>
      have hset : (w.set p v).length = n := by rw [List.length_set, hw]
      show runAssigns acts (w.set p v) = .ok t ↔ _
      rw [ih hacts hset]
      refine and_congr_right fun _ => forall₂_congr fun q hq => ?_
      by_cases hpq : p = q
      · subst hpq
        rw [select_cons_self, runActs, hr, List.getD_eq_getElem?_getD,
          List.getElem?_set_self (by omega)]
        rfl
      · rw [select_cons_ne hpq, List.getD_eq_getElem?_getD,
          List.getElem?_set_ne hpq, ← List.getD_eq_getElem?_getD]

/-- A firing is a move of every leaf. -/
theorem Mirrors.fires_iff {ev : LocalEvent} {guard : BExpr} {kids : List Xpl.Term}
    (hm : Mirrors n ev guard kids) {w t : Xpl.Word} (hw : w.length = n) :
    (∃ bs, Xpl.interp (rootOf guard kids) [⟨w, []⟩] = .ok bs ∧ ∃ b ∈ bs, b.s = t) ↔
      ev.dead = false ∧ t.length = n ∧ ∀ p < n, LocalMove ev seed p (w.getD p 0) (t.getD p 0) := by
  have hguards : (∀ x ∈ ev.guards, Xpl.evalBool w x.2 = .ok .yes) ↔
      ∀ p < n, ∀ b ∈ ev.guardsAt p, Xpl.evalBool (seed.set p (w.getD p 0)) b = .ok .yes := by
    have hsame : ∀ x ∈ ev.guards,
        Xpl.evalBool w x.2 = Xpl.evalBool (seed.set x.1 (w.getD x.1 0)) x.2 := by
      intro x hx
      obtain ⟨hp, hlocal⟩ := hm.guards x hx
      exact evalBool_within hlocal (by rw [List.length_set, hw, hseed]) (seed_agrees hseed hw hp)
    constructor
    · intro h p hp b hb
      obtain ⟨x, hx, hxb⟩ := List.mem_filterMap.mp hb
      split at hxb
      · next hxp =>
        cases hxb
        rw [← hxp, ← hsame x hx]
        exact h x hx
      · cases hxb
    · intro h x hx
      rw [hsame x hx]
      exact h x.1 (hm.guards x hx).1 x.2 (List.mem_filterMap.mpr ⟨x, hx, if_pos rfl⟩)
  rw [hm.interp, hm.guard w hw, hguards, runAssigns_iff hseed ev hm.acts hw]
  constructor
  · rintro ⟨⟨hdead, hg⟩, ht, ha⟩
    exact ⟨hdead, ht, fun p hp => ⟨hg p hp, ha p hp⟩⟩
  · rintro ⟨hdead, ht, h⟩
    exact ⟨⟨hdead, fun p hp => (h p hp).guards⟩, ht, fun p hp => (h p hp).acts⟩

end LeafByLeaf

end LibHSC.Surface
