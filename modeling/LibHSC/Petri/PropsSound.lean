import LibHSC.Petri.Props

/-!
The text of a property means the property: linear forms are read without a refusal, as
sums of places and multiples of places, and atoms, connectives and the enabling of
transitions are read to guards that hold exactly at the markings they speak of.
-/

namespace LibHSC.Petri

open Surface Xpl Lia PetriNets

/-! ## Linear forms -/

section Sums

variable {R : ExprIds} {c : Int} {p : Nat}

theorem mult_linear (hc : InInt32 c) : ∃ x, nary R .mult [.const c, .var p] = .ok x ∧ Linear x := by
  have h64 : checked64 c = .ok c := by
    rw [checked64, if_pos]
    unfold InInt32 at hc
    exact decide_eq_true ⟨by omega, by omega⟩
  by_cases hzero : c = 0
  · subst hzero
    refine ⟨.const 0, ?_, .inl rfl⟩
    simp [nary, gatherOps, NaryOp.accumulate, NaryOp.neutral, h64, bind, Except.bind, pure,
      Except.pure]
  · by_cases hone : c = 1
    · subst hone
      refine ⟨.var p, ?_, .inr (.inl (.inl ⟨p, rfl⟩))⟩
      simp [nary, gatherOps, NaryOp.accumulate, NaryOp.neutral, h64, narrow, hc, withConst,
        packOps, bind, Except.bind, pure, Except.pure]
    · refine ⟨.nary .mult (sortOps R [.var p, .const c]), ?_, .inr (.inl (.inr ⟨_, rfl⟩))⟩
      simp [nary, gatherOps, NaryOp.accumulate, NaryOp.neutral, h64, hzero, narrow, hc, withConst,
        hone, packOps, bind, Except.bind, pure, Except.pure]

theorem spliceOps_summands : ∀ {ops : List IExpr} {flat : List IExpr}, (∀ o ∈ ops, Summand o) →
    spliceOps .plus ops 0 flat = .ok (0, flat ++ ops) := by
  intro ops
  induction ops with
  | nil => simp [spliceOps]
  | cons o ops ih =>
    intro flat h
    obtain ⟨ho, hops⟩ := List.forall_mem_cons.mp h
    rcases ho with ⟨p, rfl⟩ | ⟨xs, rfl⟩
    · simp [spliceOps, ih hops]
    · simp [spliceOps, ih hops]

/-- The operands a linear form adds to a sum. -/
theorem gatherOps_linear {x : IExpr} (h : Linear x) : ∃ ops, (∀ o ∈ ops, Summand o) ∧
    ∀ xs flat, gatherOps .plus (x :: xs) 0 flat = gatherOps .plus xs 0 (flat ++ ops) := by
  rcases h with rfl | h | ⟨ops, rfl, hops⟩
  · exact ⟨[], by simp, fun xs flat => by simp [gatherOps, NaryOp.accumulate, bind, Except.bind]⟩
  · refine ⟨[x], List.forall_mem_singleton.mpr h, fun xs flat => ?_⟩
    rcases h with ⟨p, rfl⟩ | ⟨ops, rfl⟩
    · simp [gatherOps]
    · simp [gatherOps]
  · refine ⟨ops, hops, fun xs flat => ?_⟩
    simp [gatherOps, spliceOps_summands hops, bind, Except.bind]

theorem plus_linear {a b : IExpr} (ha : Linear a) (hb : Linear b) :
    ∃ x, nary R .plus [a, b] = .ok x ∧ Linear x := by
  obtain ⟨opsa, hopsa, hga⟩ := gatherOps_linear ha
  obtain ⟨opsb, hopsb, hgb⟩ := gatherOps_linear hb
  have hgather : gatherOps .plus [a, b] 0 [] = .ok (some (0, opsa ++ opsb)) := by
    rw [hga, hgb, gatherOps, List.nil_append]
  have hall : ∀ o ∈ opsa ++ opsb, Summand o := List.forall_mem_append.mpr ⟨hopsa, hopsb⟩
  have hmade : nary R .plus [a, b] = .ok (packOps R .plus (withConst .plus 0 (opsa ++ opsb))) := by
    have hz : InInt32 0 := by decide
    simp [nary, NaryOp.neutral, hgather, narrow, hz, bind, Except.bind, pure, Except.pure]
  refine ⟨_, hmade, ?_⟩
  generalize opsa ++ opsb = ops at hall
  cases ops with
  | nil => exact .inl rfl
  | cons o ops =>
    cases ops with
    | nil => exact .inr (.inl (List.forall_mem_singleton.mp hall))
    | cons o' ops =>
      refine .inr (.inr ⟨sortOps R (o :: o' :: ops), ?_, fun y hy => ?_⟩)
      · simp [withConst, NaryOp.neutral, packOps]
      · exact hall y ((List.perm_insertionSort _ _).mem_iff.mp hy)

end Sums

/-! ## Meaning, form by form -/

section Means

variable {R : ExprIds} {sc : Scope} {net : SparsePetriNet} {names : List String}

/-- The leaves of the scope are the places, at their positions. -/
structure Resolves (sc : Scope) (net : SparsePetriNet) (names : List String) : Prop where
  nodup : net.pnames.Nodup
  perm : names.Perm net.pnames
  place : ∀ p ∈ net.pnames, IsName p ∧ IsSymbol p
  found : ∀ p ∈ net.pnames, sc.position p = some (names.idxOf p)

variable (h : Resolves sc net names)

include h

theorem resolves_var {p : Nat} (hp : p < net.pnames.length) {d : Datum}
    (hd : d.erase = atom (placeName net p)) :
    readInt R sc d = .ok (.var (position net names p)) ∧ ∀ m, InRange m →
      Dve.Good (wordOf net names m) (.var (position net names p)) ∧
        exactInt (ofState (wordOf net names m)) (.var (position net names p)) =
          some (m ⟨p, hp⟩) := by
  obtain ⟨l, rfl⟩ := erase_eq_atom.mp hd
  have hmem : placeName net p ∈ net.pnames := placeName_mem hp
  refine ⟨readInt_symbol (h.place _ hmem).2 (h.found _ hmem), fun m _ => ?_⟩
  have hget := wordOf_get (m := m) h.nodup h.perm ⟨p, hp⟩
  have hlt : position net names p < (wordOf net names m).length :=
    (List.getElem?_eq_some_iff.mp hget).1
  exact ⟨⟨trivial, IExpr.within_var.mpr hlt⟩, hget⟩

theorem meansInt_place {p : Nat} (hp : p < net.pnames.length) :
    MeansInt R sc net names (placeName net p) fun m => m ⟨p, hp⟩ := by
  refine ⟨_, .atom (h.place _ (placeName_mem hp)).1.token, fun d' hd' => ?_⟩
  obtain ⟨hread, hval⟩ := resolves_var h (R := R) hp hd'
  exact ⟨_, hread, .inr (.inl (.inl ⟨_, rfl⟩)), hval⟩

theorem readsInt_var {p : Nat} (hp : p < net.pnames.length) {d : Datum}
    (hd : d.erase = atom (placeName net p)) {m : Fin net.pnames.length → Int} (hm : InRange m) :
    Dve.ReadsInt R sc (wordOf net names m) d (some (m ⟨p, hp⟩)) := by
  obtain ⟨hread, hval⟩ := resolves_var h (R := R) hp hd
  unfold Dve.ReadsInt
  rw [hread]
  obtain ⟨hgood, hx⟩ := hval m hm
  exact ⟨hgood, fun v hv => by rw [hx, hv]⟩

omit h in
theorem reads_numeral {c : Int} (hc : InInt32 c) {env : Xpl.Word} {l : Int} :
    Dve.ReadsInt R sc env (.atom (toString c) l) (some c) := by
  unfold Dve.ReadsInt
  rw [readInt_numeral hc]
  exact ⟨⟨hc, IExpr.within_const c⟩, .refl _⟩

theorem meansInt_multiple {p : Nat} (hp : p < net.pnames.length) {c : Int} (hc : InInt32 c) :
    MeansInt R sc net names (form "*" [toString c, placeName net p]) fun m => c * m ⟨p, hp⟩ := by
  refine ⟨_, spells_form (by decide) (.cons (.num c)
    (.cons (.atom (h.place _ (placeName_mem hp)).1.token) .nil)), fun d' hd' => ?_⟩
  obtain ⟨l₁, l₂, l₃, l, rfl⟩ := erase_eq_triple.mp hd'
  obtain ⟨x, hx, hlin⟩ := mult_linear (R := R) (p := position net names p) hc
  have hvar := (resolves_var h (R := R) hp (d := .atom (placeName net p) l₃) rfl).1
  have hread : readInt R sc (.list [.atom "*" l₁, .atom (toString c) l₂,
      .atom (placeName net p) l₃] l) = .ok x := by
    rw [Dve.readInt_pair (by decide) (by decide) (by decide), readInt_numeral hc, hvar]
    simp only [bind, Except.bind, String.reduceEq, if_false, if_true, hx]
    rfl
  refine ⟨x, hread, hlin, fun m hm => ?_⟩
  have hmult : Dve.naryOp "*" = some .mult := rfl
  have := Dve.readsInt_nary (R := R) (l := l₁) (n := l) hmult
    (reads_numeral hc (l := l₂)) (readsInt_var h hp (d := .atom (placeName net p) l₃) rfl hm)
  unfold Dve.ReadsInt at this
  rw [hread] at this
  exact ⟨this.1, this.2 _ rfl⟩

omit h in
theorem meansInt_plus {s t : String} {f g : (Fin net.pnames.length → Int) → Int}
    (hs : MeansInt R sc net names s f) (ht : MeansInt R sc net names t g) :
    MeansInt R sc net names (form "+" [s, t]) fun m => f m + g m := by
  obtain ⟨ds, hds, hreads⟩ := hs
  obtain ⟨dt, hdt, hreadt⟩ := ht
  refine ⟨_, spells_form (by decide) (.cons hds (.cons hdt .nil)), fun d' hd' => ?_⟩
  obtain ⟨l, xs, n, rfl, hxs⟩ := erase_eq_form.mp hd'
  obtain ⟨a, ys, rfl, ha, hys⟩ := map_erase_eq_cons.mp hxs
  obtain ⟨b, zs, rfl, hb, hzs⟩ := map_erase_eq_cons.mp hys
  obtain rfl := List.map_eq_nil_iff.mp hzs
  obtain ⟨x, hx, hlx, hxm⟩ := hreads a ha
  obtain ⟨y, hy, hly, hym⟩ := hreadt b hb
  obtain ⟨z, hz, hlz⟩ := plus_linear (R := R) hlx hly
  have hread : readInt R sc (.list [.atom "+" l, a, b] n) = .ok z := by
    rw [Dve.readInt_pair (by decide) (by decide) (by decide), hx, hy]
    simp only [bind, Except.bind, if_true, hz]
    rfl
  refine ⟨z, hread, hlz, fun m hm => ?_⟩
  have hva : Dve.ReadsInt R sc (wordOf net names m) a (some (f m)) := by
    unfold Dve.ReadsInt
    rw [hx]
    exact ⟨(hxm m hm).1, fun v hv => by rw [(hxm m hm).2, hv]⟩
  have hvb : Dve.ReadsInt R sc (wordOf net names m) b (some (g m)) := by
    unfold Dve.ReadsInt
    rw [hy]
    exact ⟨(hym m hm).1, fun v hv => by rw [(hym m hm).2, hv]⟩
  have hplus : Dve.naryOp "+" = some .plus := rfl
  have := Dve.readsInt_nary (l := l) (n := n) hplus hva hvb
  unfold Dve.ReadsInt at this
  rw [hread] at this
  exact ⟨this.1, this.2 _ rfl⟩

/-! ## Atoms and connectives -/

def Cmp.toOp : Cmp → CmpOp
  | .eq => .eq
  | .neq => .neq
  | .le => .leq
  | .ge => .geq
  | .lt => .lt
  | .gt => .gt

omit h in
theorem cmpEval_toOp (k : Cmp) (x y : Int) : cmpEval k.toOp x y = k.holds x y := by
  cases k <;> simp [Cmp.toOp, cmpEval, Cmp.holds, bne, beq_eq_decide]

omit h in
theorem means_compare {s : String} {f : (Fin net.pnames.length → Int) → Int} {c : Int} (k : Cmp)
    (hs : MeansInt R sc net names s f) (hc : InInt32 c) :
    Means R sc net names (form (cmpText k) [s, toString c]) fun m => k.holds (f m) c := by
  obtain ⟨ds, hds, hreads⟩ := hs
  have htoken : tokenText (cmpText k) = true := by cases k <;> decide
  have hcomp : comparison (cmpText k) = some k.toOp := by cases k <;> rfl
  refine ⟨_, spells_form htoken (.cons hds (.cons (.num c) .nil)), fun d' hd' => ?_⟩
  obtain ⟨l, xs, n, rfl, hxs⟩ := erase_eq_form.mp hd'
  obtain ⟨a, ys, rfl, ha, hys⟩ := map_erase_eq_cons.mp hxs
  obtain ⟨b, zs, rfl, hb, hzs⟩ := map_erase_eq_cons.mp hys
  obtain rfl := List.map_eq_nil_iff.mp hzs
  obtain ⟨l', rfl⟩ := erase_eq_atom.mp hb
  obtain ⟨x, hx, -, hxm⟩ := hreads a ha
  have hread : readBool R sc (.list [.atom (cmpText k) l, a, .atom (toString c) l'] n) =
      .ok (compare R k.toOp x (.const c)) := by
    rw [Dve.readBool_head (by simp [isBoolHead, hcomp])]
    unfold boolForm
    rw [hcomp]
    simp only [readInts, hx, readInt_numeral hc]
    rfl
  refine ⟨_, hread, fun m hm => ?_⟩
  have hva : Dve.ReadsInt R sc (wordOf net names m) a (some (f m)) := by
    unfold Dve.ReadsInt
    rw [hx]
    exact ⟨(hxm m hm).1, fun v hv => by rw [(hxm m hm).2, hv]⟩
  have := Dve.readsBool_compare (l := l) (n := n) hcomp hva (reads_numeral hc (l := l'))
  unfold Dve.ReadsBool at this
  rw [hread] at this
  obtain ⟨hgood, hbelow⟩ := this
  have htruth : cmpExact k.toOp (some (f m)) (some c) = Truth.ofBool (k.holds (f m) c) := by
    rw [cmpExact, cmpEval_toOp]
  rw [htruth] at hbelow
  exact ⟨hgood, hbelow (by cases k.holds (f m) c <;> decide)⟩

omit h in
theorem means_not {s : String} {P : (Fin net.pnames.length → Int) → Bool}
    (hs : Means R sc net names s P) : Means R sc net names (form "not" [s]) fun m => !P m := by
  obtain ⟨ds, hds, hreads⟩ := hs
  refine ⟨_, spells_form (by decide) (.cons hds .nil), fun d' hd' => ?_⟩
  obtain ⟨l, xs, n, rfl, hxs⟩ := erase_eq_form.mp hd'
  obtain ⟨a, ys, rfl, ha, hys⟩ := map_erase_eq_cons.mp hxs
  obtain rfl := List.map_eq_nil_iff.mp hys
  obtain ⟨b, hb, hbm⟩ := hreads a ha
  have hread : readBool R sc (.list [.atom "not" l, a] n) = .ok (neg R b) := by
    rw [Dve.readBool_head (by decide)]
    simp only [boolForm, comparison, readBools, hb]
    rfl
  refine ⟨_, hread, fun m hm => ?_⟩
  have hva : Dve.ReadsBool R sc (wordOf net names m) a (Truth.ofBool (P m)) := by
    unfold Dve.ReadsBool
    rw [hb]
    exact ⟨(hbm m hm).1, fun _ => (hbm m hm).2⟩
  have := Dve.readsBool_not (l := l) (n := n) hva
  unfold Dve.ReadsBool at this
  rw [hread] at this
  obtain ⟨hgood, hbelow⟩ := this
  have htruth : (Truth.ofBool (P m)).not = Truth.ofBool (!P m) := by cases P m <;> rfl
  rw [htruth] at hbelow
  exact ⟨hgood, hbelow (by cases P m <;> decide)⟩

/-- The connective of a list of truth values. -/
def connHolds : ConnOp → List Bool → Bool
  | .conj, bs => bs.all id
  | .disj, bs => bs.any id

def connText : ConnOp → String
  | .conj => "and"
  | .disj => "or"

omit h in
theorem exactConn_bools {ρ : Lia.Reading} (k : ConnOp) {bs : List BExpr} {vs : List Bool}
    (hbs : List.Forall₂ (fun b v => exactBool ρ b = Truth.ofBool v) bs vs) :
    exactConn ρ k bs = Truth.ofBool (connHolds k vs) := by
  induction hbs with
  | nil => cases k <;> rfl
  | @cons b v bs vs hb _ ih =>
    rw [exactConn, hb, ih]
    cases k <;> cases v <;> simp only [connHolds, List.all_cons, List.any_cons, id_eq,
      Bool.true_and, Bool.false_and, Bool.true_or, Bool.false_or] <;>
      cases List.all vs id <;> cases List.any vs id <;> rfl

omit h in
/-- A connective of any number of operands. -/
theorem means_conn (k : ConnOp) {ss : List String}
    {Ps : List ((Fin net.pnames.length → Int) → Bool)}
    (hs : List.Forall₂ (Means R sc net names) ss Ps) :
    Means R sc net names (form (connText k) ss) fun m => connHolds k (Ps.map (· m)) := by
  have hall : ∃ ds, List.Forall₂ Spells ss ds ∧ ∀ xs : List Datum, xs.map Datum.erase = ds →
      ∃ bs, (readBools R sc xs).mapM id = .ok bs ∧ ∀ m, InRange m →
        (∀ b ∈ bs, Dve.GoodBool (wordOf net names m) b) ∧
        List.Forall₂ (fun b v => exactBool (ofState (wordOf net names m)) b = Truth.ofBool v) bs
          (Ps.map (· m)) := by
    induction hs with
    | nil =>
      refine ⟨[], .nil, fun xs hxs => ?_⟩
      obtain rfl := List.map_eq_nil_iff.mp hxs
      exact ⟨[], rfl, fun m _ => ⟨by simp, .nil⟩⟩
    | cons hsP _ ih =>
      obtain ⟨d, hd, hread⟩ := hsP
      obtain ⟨ds, hds, hreads⟩ := ih
      refine ⟨d :: ds, .cons hd hds, fun xs hxs => ?_⟩
      obtain ⟨a, ys, rfl, ha, hys⟩ := map_erase_eq_cons.mp hxs
      obtain ⟨b, hb, hbm⟩ := hread a ha
      obtain ⟨bs, hbs, hbsm⟩ := hreads ys hys
      refine ⟨b :: bs, ?_, fun m hm => ⟨?_, .cons (hbm m hm).2 (hbsm m hm).2⟩⟩
      · rw [readBools, List.mapM_cons, hb, hbs]
        rfl
      · exact List.forall_mem_cons.mpr ⟨(hbm m hm).1, (hbsm m hm).1⟩
  obtain ⟨ds, hds, hreads⟩ := hall
  have htoken : tokenText (connText k) = true := by cases k <;> decide
  refine ⟨_, spells_form htoken hds, fun d' hd' => ?_⟩
  obtain ⟨l, xs, n, rfl, hxs⟩ := erase_eq_form.mp hd'
  obtain ⟨bs, hbs, hbsm⟩ := hreads xs hxs
  have hread : readBool R sc (.list (.atom (connText k) l :: xs) n) = .ok (conn R k bs) := by
    cases k with
    | conj =>
      rw [connText, Dve.readBool_head (by decide)]
      simp only [boolForm, comparison, if_true, hbs]
      rfl
    | disj =>
      rw [connText, Dve.readBool_head (by decide)]
      simp only [boolForm, comparison, String.reduceEq, if_false, if_true, hbs]
      rfl
  refine ⟨_, hread, fun m hm => ?_⟩
  obtain ⟨hgood, hvals⟩ := hbsm m hm
  refine ⟨⟨conn_normal fun b hb => (hgood b hb).normal,
    conn_within fun b hb => (hgood b hb).within⟩, ?_⟩
  rw [conn_exact, exactConn_bools k hvals]

end Means

/-! ## Properties -/

/-- Places of the net, machine constants. -/
def LinearAtom.InNet (places : Nat) (a : LinearAtom) : Prop :=
  (∀ t ∈ a.terms, t.1 < places ∧ InInt32 t.2) ∧ InInt32 a.constant

def Expression.InNet (places : Nat) (e : Expression) : Prop :=
  e.AllAtoms (LinearAtom.InNet places)

section Properties

variable {R : ExprIds} {sc : Scope} {net : SparsePetriNet} {names : List String}
  (h : Resolves sc net names)

theorem means_congr {s : String} {P Q : (Fin net.pnames.length → Int) → Bool}
    (hs : Means R sc net names s P) (heq : ∀ m, InRange m → P m = Q m) :
    Means R sc net names s Q := by
  obtain ⟨d, hd, hreads⟩ := hs
  refine ⟨d, hd, fun d' hd' => ?_⟩
  obtain ⟨b, hb, hbm⟩ := hreads d' hd'
  exact ⟨b, hb, fun m hm => heq m hm ▸ hbm m hm⟩

include h

theorem termText_means {t : Nat × Int} (ht : t.1 < net.pnames.length) (hc : InInt32 t.2) :
    ∃ s, termText net.pnames t = .ok s ∧ MeansInt R sc net names s fun m => t.2 * markAt m t.1 := by
  have hname : net.pnames[t.1]? = some (placeName net t.1) := by
    rw [placeName, List.getD_eq_getElem _ _ ht, List.getElem?_eq_getElem ht]
  have hmark : ∀ m : Fin net.pnames.length → Int, markAt m t.1 = m ⟨t.1, ht⟩ :=
    fun m => dif_pos ht
  simp only [termText, hname, hmark]
  by_cases hone : t.2 = 1
  · rw [if_pos hone]
    simp only [hone, one_mul]
    exact ⟨_, rfl, meansInt_place h ht⟩
  · rw [if_neg hone]
    exact ⟨_, rfl, meansInt_multiple h ht hc⟩

theorem linearForm_means {ts : List (Nat × Int)} (hne : ts ≠ [])
    (hts : ∀ t ∈ ts, t.1 < net.pnames.length ∧ InInt32 t.2) :
    ∃ s, linearForm net.pnames ts = .ok s ∧
      MeansInt R sc net names s fun m => termsValue (markAt m) ts := by
  induction ts with
  | nil => exact absurd rfl hne
  | cons t ts ih =>
    obtain ⟨ht, hts⟩ := List.forall_mem_cons.mp hts
    obtain ⟨s, hs, hmeans⟩ := termText_means (R := R) h ht.1 ht.2
    cases ts with
    | nil => exact ⟨s, hs, by simpa [termsValue] using hmeans⟩
    | cons t' ts =>
      obtain ⟨acc, hacc, hrest⟩ := ih (by simp) hts
      refine ⟨form "+" [s, acc], ?_, meansInt_plus hmeans hrest⟩
      rw [linearForm, hacc, hs]
      · rfl
      · simp

theorem constantAtom_means (hne : net.pnames ≠ []) (v : Bool) :
    ∃ s, constantAtom net.pnames v = .ok s ∧ Means R sc net names s fun _ => v := by
  obtain ⟨p, ps, hps⟩ := List.exists_cons_of_ne_nil hne
  have hlt : 0 < net.pnames.length := by simp [hps]
  have hname : placeName net 0 = p := by simp [placeName, hps]
  have hplace := meansInt_place (R := R) h hlt
  rw [hname] at hplace
  have hconst : ∀ v : Bool, constantAtom net.pnames v =
      .ok (if v then form ">=" [p, "0"] else form "<=" [p, "-1"]) := by
    intro v
    rw [hps]
    rfl
  have hzero : "0" = toString (0 : Int) := by decide +kernel
  have hminus : "-1" = toString (-1 : Int) := by decide +kernel
  rw [hconst, hzero, hminus]
  cases v with
  | true =>
    have hge := means_compare .ge hplace (c := 0) (by decide)
    refine ⟨_, rfl, means_congr hge fun m hm => ?_⟩
    simpa [Cmp.holds] using (hm ⟨0, hlt⟩).1
  | false =>
    have hle := means_compare .le hplace (c := -1) (by decide)
    refine ⟨_, rfl, means_congr hle fun m hm => ?_⟩
    have := (hm ⟨0, hlt⟩).1
    simp only [Cmp.holds, decide_eq_false_iff_not]
    omega

theorem atomText_means (hne : net.pnames ≠ []) {a : LinearAtom}
    (ha : a.InNet net.pnames.length) : ∃ s, atomText net.pnames a = .ok s ∧
      Means R sc net names s fun m => a.holds (markAt m) := by
  unfold atomText
  split
  · next hnil =>
    obtain ⟨s, hs, hmeans⟩ := constantAtom_means (R := R) h hne (a.op.holds 0 a.constant)
    refine ⟨s, hs, means_congr hmeans fun m _ => ?_⟩
    rw [LinearAtom.holds, hnil, termsValue]
  · next hcons =>
    obtain ⟨s, hs, hmeans⟩ := linearForm_means (R := R) h hcons ha.1
    rw [hs]
    exact ⟨_, rfl, means_compare a.op hmeans ha.2⟩

omit h in
mutual

/-- The atom of a property holds exactly at the markings where the property does. -/
theorem queryAtom_sound (h : Resolves sc net names) (hne : net.pnames ≠ []) : (e : Expression) →
    e.InNet net.pnames.length → ∃ s, queryAtom net.pnames e = .ok s ∧
      Means R sc net names s fun m => e.eval (markAt m)
  | .true, _ => constantAtom_means h hne true
  | .false, _ => constantAtom_means h hne false
  | .atom a, ha => atomText_means h hne ha
  | .not e, he => by
    obtain ⟨s, hs, hmeans⟩ := queryAtom_sound h hne e he
    exact ⟨_, by rw [queryAtom, hs]; rfl, means_not hmeans⟩
  | .and [e], he => by
    obtain ⟨s, hs, hmeans⟩ := queryAtom_sound h hne e he.1
    refine ⟨s, hs, means_congr hmeans fun m _ => ?_⟩
    simp [Expression.eval, evalAll]
  | .and [], _ => ⟨_, rfl, means_conn .conj .nil⟩
  | .and (e :: e' :: es), he => by
    obtain ⟨ss, Ps, hss, hmeans, hall⟩ := queryAtoms_sound h hne (e :: e' :: es) he
    refine ⟨_, ?_, means_congr (means_conn .conj hmeans) fun m _ => (hall m).1⟩
    rw [queryAtom, hss]
    · rfl
    · simp
  | .or [e], he => by
    obtain ⟨s, hs, hmeans⟩ := queryAtom_sound h hne e he.1
    refine ⟨s, hs, means_congr hmeans fun m _ => ?_⟩
    simp [Expression.eval, evalAny]
  | .or [], _ => ⟨_, rfl, means_conn .disj .nil⟩
  | .or (e :: e' :: es), he => by
    obtain ⟨ss, Ps, hss, hmeans, hall⟩ := queryAtoms_sound h hne (e :: e' :: es) he
    refine ⟨_, ?_, means_congr (means_conn .disj hmeans) fun m _ => (hall m).2⟩
    rw [queryAtom, hss]
    · rfl
    · simp

theorem queryAtoms_sound (h : Resolves sc net names) (hne : net.pnames ≠ []) :
    (es : List Expression) →
    EachAllAtoms (LinearAtom.InNet net.pnames.length) es →
    ∃ ss Ps, queryAtoms net.pnames es = .ok ss ∧ List.Forall₂ (Means R sc net names) ss Ps ∧
      ∀ m, connHolds .conj (Ps.map (· m)) = evalAll (markAt m) es ∧
        connHolds .disj (Ps.map (· m)) = evalAny (markAt m) es
  | [], _ => ⟨[], [], rfl, .nil, fun m => ⟨rfl, rfl⟩⟩
  | e :: es, he => by
    obtain ⟨s, hs, hmeans⟩ := queryAtom_sound h hne e he.1
    obtain ⟨ss, Ps, hss, hmeanss, hall⟩ := queryAtoms_sound h hne es he.2
    refine ⟨s :: ss, _ :: Ps, by rw [queryAtoms, hs, hss]; rfl, .cons hmeans hmeanss, fun m => ?_⟩
    obtain ⟨hand, hor⟩ := hall m
    simp only [connHolds, List.map_cons, List.all_cons, List.any_cons, id_eq] at hand hor ⊢
    rw [evalAll, evalAny, hand, hor]
    exact ⟨rfl, rfl⟩

end

/-! ## Enabling and deadlock -/

theorem guardText_means {e : Nat × Int} (he : e.1 < net.pnames.length) (hc : InInt32 e.2) :
    Means R sc net names (guardText net e) fun m => decide (e.2 ≤ markAt m e.1) := by
  refine means_congr (means_compare .ge (meansInt_place h he) hc) fun m _ => ?_
  simp [Cmp.holds, markAt, he]

/-- The enabling condition of a transition. -/
theorem guardAtom_means (hw : net.WF) {t : Nat} {s : String} (hs : guardAtom net t = some s) :
    Means R sc net names s fun m =>
      (net.pre t).entries.all fun e => decide (e.2 ≤ markAt m e.1) := by
  have hone : ∀ e ∈ (net.pre t).entries, Means R sc net names (guardText net e)
      fun m => decide (e.2 ≤ markAt m e.1) := fun e he =>
    guardText_means h ((hw.pre_ok t).place e he) ((hw.pre_ok t).weight e he).2
  unfold guardAtom at hs
  split at hs
  · cases hs
  · next e he =>
    cases hs
    refine means_congr (hone e (by simp [he])) fun m _ => ?_
    simp [he]
  · cases hs
    have hall : List.Forall₂ (Means R sc net names) ((net.pre t).entries.map (guardText net))
        ((net.pre t).entries.map fun e m => decide (e.2 ≤ markAt m e.1)) := by
      rw [List.forall₂_map_left_iff, List.forall₂_map_right_iff, List.forall₂_same]
      exact hone
    refine means_congr (means_conn .conj hall) fun m _ => ?_
    simp [connHolds, Function.comp_def]

omit h in
theorem exists_mapM_some {α β : Type} {f : α → Option β} {xs : List α}
    (hxs : ∀ x ∈ xs, ∃ y, f x = some y) : ∃ ys, xs.mapM f = some ys := by
  induction xs with
  | nil => exact ⟨[], rfl⟩
  | cons x xs ih =>
    obtain ⟨⟨y, hy⟩, hxs⟩ := List.forall_mem_cons.mp hxs
    obtain ⟨ys, hys⟩ := ih hxs
    exact ⟨y :: ys, by simp [hy, hys]⟩

omit h in
theorem entries_all_iff (hw : net.WF) {t : Fin net.tnames.length}
    {m : Fin net.pnames.length → Int} (hm : InRange m) :
    ((net.pre t).entries.all fun e => decide (e.2 ≤ markAt m e.1)) = true ↔
      net.toNet.Enabled t m := by
  rw [SparsePetriNet.enabled_iff fun p => (hm p).1]
  simp only [List.all_eq_true, decide_eq_true_eq]
  refine forall₂_congr fun e he => ?_
  have hlt := (hw.pre_ok t).place e he
  simp [markAt, hlt]

omit h in
theorem guardAtom_none_iff {t : Nat} : guardAtom net t = none ↔ (net.pre t).entries = [] := by
  unfold guardAtom
  split
  · next he => simp [he]
  · next he => simp [he]
  · next hne _ => simpa using hne

omit h in
theorem mapM_guardAtom_none_iff : (List.range net.tnames.length).mapM (guardAtom net) = none ↔
    ∃ t : Fin net.tnames.length, (net.pre t).entries = [] := by
  constructor
  · intro hnone
    by_contra hno
    have hall : ∀ t ∈ List.range net.tnames.length, ∃ g, guardAtom net t = some g :=
      fun t ht => Option.ne_none_iff_exists'.mp fun hg =>
        hno ⟨⟨t, List.mem_range.mp ht⟩, guardAtom_none_iff.mp hg⟩
    obtain ⟨gs, hgs⟩ := exists_mapM_some hall
    rw [hgs] at hnone
    cases hnone
  · rintro ⟨t, ht⟩
    refine Option.eq_none_iff_forall_ne_some.mpr fun gs hgs => ?_
    obtain ⟨g, -, hg⟩ := forall₂_mem_left (mapM_some_iff.mp hgs) (List.mem_range.mpr t.isLt)
    rw [guardAtom_none_iff.mpr ht] at hg
    cases hg

omit h in
/-- The atom is refused exactly when some transition asks for nothing. -/
theorem deadlockAtom_none_iff :
    deadlockAtom net = .ok none ↔ ∃ t : Fin net.tnames.length, (net.pre t).entries = [] := by
  unfold deadlockAtom
  split
  · next hzero =>
    constructor
    · intro hnone
      obtain ⟨s, -, hs⟩ := bind_eq_ok.mp hnone
      cases hs
    · rintro ⟨t, -⟩
      have := t.isLt
      omega
  · rw [Except.ok.injEq, Option.map_eq_none_iff]
    exact mapM_guardAtom_none_iff

/-- The deadlock atom holds exactly at the dead markings; there is none exactly where some
transition asks for nothing, and then no marking is dead. -/
theorem deadlockAtom_sound (hw : net.WF) (hne : net.pnames ≠ []) :
    ∃ a, deadlockAtom net = .ok a ∧ (∀ s, a = some s → ∃ P, Means R sc net names s P ∧
        ∀ m, InRange m → (P m = true ↔ net.toNet.Dead m)) ∧
      (a = none → ∀ m, InRange m → ¬ net.toNet.Dead m) := by
  unfold deadlockAtom
  split
  · next hzero =>
    obtain ⟨s, hs, hmeans⟩ := constantAtom_means (R := R) h hne true
    rw [hs]
    refine ⟨some s, rfl, ?_, by simp⟩
    rintro _ ⟨⟩
    refine ⟨_, hmeans, fun m _ => ?_⟩
    simp only [true_iff]
    intro t
    have := t.isLt
    omega
  · refine ⟨_, rfl, ?_, ?_⟩
    · rintro s hs
      obtain ⟨gs, hgs, rfl⟩ := Option.map_eq_some_iff.mp hs
      have hrel := mapM_some_iff.mp hgs
      have hmeans : List.Forall₂ (Means R sc net names) gs ((List.range net.tnames.length).map
          fun t m => (net.pre t).entries.all fun e => decide (e.2 ≤ markAt m e.1)) := by
        rw [List.forall₂_map_right_iff]
        exact hrel.flip.imp fun g t hg => guardAtom_means h hw hg
      refine ⟨_, means_not (means_conn .disj hmeans), fun m hm => ?_⟩
      simp only [connHolds, List.map_map, List.any_map, Bool.not_eq_true', List.any_eq_false,
        List.mem_range, Function.comp_def, id_eq]
      constructor
      · intro hall t ht
        exact hall t t.isLt ((entries_all_iff hw hm).mpr ht)
      · intro hdead t ht hen
        exact hdead ⟨t, ht⟩ ((entries_all_iff hw (t := ⟨t, ht⟩) hm).mp hen)
    · intro hnone m hm hdead
      obtain ⟨t, ht⟩ := mapM_guardAtom_none_iff.mp (Option.map_eq_none_iff.mp hnone)
      refine hdead t ((entries_all_iff hw hm).mp ?_)
      simp [ht]

end Properties

/-! ## The texts beside the model -/

section Model

variable {net : SparsePetriNet} {units : UnitTree} {opts : EmitOptions} {fuel : Nat}

theorem Emits.resolves {s : Spec} {names : List String} {events : List Datum}
    (h : Emits net opts s names events) (hn : net.Named) : Resolves s.scope net names where
  nodup := hn.nodup
  perm := h.perm
  place _ hp := ⟨hn.place _ hp, hn.symbol _ hp⟩
  found _ hp := h.spec.position (h.perm.mem_iff.mpr hp)

/-- The text parses to one datum, which is read to a guard that says `P` at every marking. -/
def HoldsAt (R : ExprIds) (sc : Scope) (net : SparsePetriNet) (names : List String)
    (text : String) (P : (Fin net.pnames.length → Int) → Bool) : Prop :=
  ∃ d b, parse text.toList = .ok [d] ∧ readBool R sc d = .ok b ∧ ∀ m, InRange m →
    exactBool (ofState (wordOf net names m)) b = Truth.ofBool (P m) ∧
      Comes (Xpl.evalBool (wordOf net names m) b) (· = Truth.ofBool (P m)) Dve.Overflowed

theorem Means.holdsAt {R : ExprIds} {sc : Scope} {names : List String} {text : String}
    {P : (Fin net.pnames.length → Int) → Bool} (h : Means R sc net names text P) :
    HoldsAt R sc net names text P := by
  obtain ⟨d, hd, hreads⟩ := h
  obtain ⟨forms, hparse, herase⟩ :=
    (parse_eq_ok_iff text.toList [d]).mpr ⟨_, [], by simp, hd, .inl rfl⟩
  obtain ⟨d', ds, rfl, hd', hds⟩ := map_erase_eq_cons.mp herase
  obtain rfl := List.map_eq_nil_iff.mp hds
  obtain ⟨b, hb, hbm⟩ := hreads d' hd'
  refine ⟨d', b, hparse, hb, fun m hm => ⟨(hbm m hm).2, ?_⟩⟩
  have hrange : ∀ v ∈ wordOf net names m, InInt32 v := by
    intro v hv
    obtain ⟨_, -, rfl⟩ := List.mem_map.mp hv
    unfold tokens
    split
    · exact (hm _).2
    · decide
  exact Dve.evalBool_value hrange (hbm m hm).1 (hbm m hm).2

/-- Every property of the net is printed as a text that the reader of the emitted model
takes to mean the property: exactly true at the markings where it holds. -/
theorem queryAtom_exact (hw : net.WF) (hn : net.Named) (hne : net.pnames ≠ [])
    (hb : InInt32 opts.bound) (h : ListsPlaces net units opts fuel) (R : ExprIds) :
    ∃ lines forms s, toSurface net units opts fuel = some lines ∧
      parse (ofLines lines).toList = .ok forms ∧ Spec.read forms = .ok s ∧
      ∀ e : Expression, e.InNet net.pnames.length → ∃ text, queryAtom net.pnames e = .ok text ∧
          HoldsAt R s.scope net s.order text fun m => e.eval (markAt m) := by
  obtain ⟨lines, forms, s, names, events, hlines, hparse, hread, hemits⟩ :=
    toSurface_read hw hn hne hb h
  have horder := hemits.spec.order
  subst horder
  refine ⟨lines, forms, s, hlines, hparse, hread, fun e he => ?_⟩
  obtain ⟨text, htext, hmeans⟩ := queryAtom_sound (R := R) (hemits.resolves hn) hne e he
  exact ⟨text, htext, hmeans.holdsAt⟩

theorem queryAtom_exact_shuttle :
    ∃ lines forms s, toSurface shuttle shuttleUnits plainOptions 2 = some lines ∧
      parse (ofLines lines).toList = .ok forms ∧ Spec.read forms = .ok s ∧
      ∀ e : Expression, e.InNet shuttle.pnames.length →
        ∃ text, queryAtom shuttle.pnames e = .ok text ∧
          HoldsAt ⟨fun _ => 0, fun _ => 0⟩ s.scope shuttle s.order text
            fun m => e.eval (markAt m) :=
  queryAtom_exact shuttle_wf shuttle_named (by decide) (by decide) shuttle_lists _

/-- The deadlock atom is true exactly at the dead markings of the net. It is refused exactly
when there is a transition without input, which makes every marking live. -/
theorem deadlockAtom_exact (hw : net.WF) (hn : net.Named) (hne : net.pnames ≠ [])
    (hb : InInt32 opts.bound) (h : ListsPlaces net units opts fuel) (R : ExprIds) :
    ∃ lines forms s, toSurface net units opts fuel = some lines ∧
      parse (ofLines lines).toList = .ok forms ∧ Spec.read forms = .ok s ∧
      (deadlockAtom net = .ok none ↔ ∃ t : Fin net.tnames.length, (net.pre t).entries = []) ∧
      ((∃ text P, deadlockAtom net = .ok (some text) ∧ HoldsAt R s.scope net s.order text P ∧
        ∀ m, InRange m → (P m = true ↔ net.toNet.Dead m)) ∨
      deadlockAtom net = .ok none ∧ ∀ m, InRange m → ¬ net.toNet.Dead m) := by
  obtain ⟨lines, forms, s, names, events, hlines, hparse, hread, hemits⟩ :=
    toSurface_read hw hn hne hb h
  have horder := hemits.spec.order
  subst horder
  refine ⟨lines, forms, s, hlines, hparse, hread, deadlockAtom_none_iff, ?_⟩
  obtain ⟨a, ha, hsome, hnone⟩ := deadlockAtom_sound (R := R) (hemits.resolves hn) hw hne
  cases a with
  | none => exact .inr ⟨ha, hnone rfl⟩
  | some text =>
    obtain ⟨P, hmeans, hP⟩ := hsome text rfl
    exact .inl ⟨text, P, ha, hmeans.holdsAt, hP⟩

theorem deadlockAtom_exact_shuttle :
    ∃ lines forms s, toSurface shuttle shuttleUnits plainOptions 2 = some lines ∧
      parse (ofLines lines).toList = .ok forms ∧ Spec.read forms = .ok s ∧
      (deadlockAtom shuttle = .ok none ↔
        ∃ t : Fin shuttle.tnames.length, (shuttle.pre t).entries = []) ∧
      ((∃ text P, deadlockAtom shuttle = .ok (some text) ∧
        HoldsAt ⟨fun _ => 0, fun _ => 0⟩ s.scope shuttle s.order text P ∧
        ∀ m, InRange m → (P m = true ↔ shuttle.toNet.Dead m)) ∨
      deadlockAtom shuttle = .ok none ∧ ∀ m, InRange m → ¬ shuttle.toNet.Dead m) :=
  deadlockAtom_exact shuttle_wf shuttle_named (by decide) (by decide) shuttle_lists _

end Model

end LibHSC.Petri
