import LibHSC.Linear.Box
import LibHSC.Linear.Conjunction
import LibHSC.Surface.DeclareNeutral
import LibHSC.Surface.Spelling

/-!
The forms that build a set from linear facts: `(full NAME (LEAF LO HI)*)`, whose ranges
`boxOf` reads, and `(constrain NAME SOURCE (eq K (* C LEAF)*)* (le K (* C LEAF)*)*)`. What
is printed for a list of bounds and of sums is read back as that list.
-/

namespace LibHSC.Surface

open Lia Linear

/-! ## The reader of constraints -/

namespace Frame

variable (fr : Frame)

/-- Where a leaf is on the frontier. -/
def position (name : String) : Option Nat :=
  (fr.leaves.lookup name).bind fun pl => if pl.placed then some pl.index else none

def readLinearTerm (t : Datum) : Except Thrown (Nat × Int) :=
  if t.isAtom ∨ t.items.length ≠ 3 ∨ t.head ≠ "*" then refuseForm t "expected (* C LEAF)"
  else do
    match fr.position (← sym (t.item 2)) with
    | none => refuseForm t "unknown constraint leaf"
    | some p =>
      match stoll (t.item 1).text with
      | none => .error .number
      | some k => return (p, k)

def readConstraint (f : Datum) : Except Thrown Constraint :=
  if f.isAtom ∨ f.items.length < 2 ∨ f.head ≠ "eq" ∧ f.head ≠ "le" then
    refuseForm f "constrain takes (eq K terms...) or (le K terms...)"
  else
    match stoll (f.item 1).text with
    | none => .error .number
    | some target => do
        let terms ← (f.items.drop 2).mapM fr.readLinearTerm
        return ⟨terms, target, decide (f.head = "le")⟩

/-- The result, the source and the constraints of a `constrain`. -/
def doConstrain (f : Datum) : Except Thrown (String × String × List Constraint) := do
  let name ← sym (← arg f 1 "result name")
  let input ← sym (← arg f 2 "input diagram")
  let constraints ← (f.items.drop 3).mapM fr.readConstraint
  return (name, input, constraints)

end Frame

/-! ## Numerals -/

theorem leadingNumber_toString (v : Int) :
    leadingNumber (toString v) = some (decide (v < 0), v.natAbs) := by
  have hall : ∀ n : Nat, (Nat.toDigits 10 n).takeWhile Char.isDigit = Nat.toDigits 10 n := fun n =>
    List.takeWhile_eq_self_iff.mpr fun c hc =>
      Nat.isDigit_of_mem_toDigits (by omega) (by omega) hc
  unfold leadingNumber
  rw [toString_int_toList]
  by_cases hpos : 0 ≤ v
  · rw [if_pos hpos]
    have hdig : ∀ c ∈ Nat.toDigits 10 v.toNat, c.isDigit = true := fun c hc =>
      Nat.isDigit_of_mem_toDigits (by omega) (by omega) hc
    dsimp only
    split
    · next heq =>
      have hminus := hdig '-' (heq ▸ List.mem_cons_self ..)
      cases hminus
    · next heq =>
      have hplus := hdig '+' (heq ▸ List.mem_cons_self ..)
      cases hplus
    · dsimp only
      rw [hall, digits_toDigits, Option.map_some, decide_eq_false (by omega),
        show v.natAbs = v.toNat by omega]
  · rw [if_neg hpos]
    show (digits ((Nat.toDigits 10 (-v).toNat).takeWhile Char.isDigit)).map (fun n => (true, n)) = _
    rw [hall, digits_toDigits, Option.map_some, decide_eq_true (by omega),
      show v.natAbs = (-v).toNat by omega]

/-- The numeral of a 64-bit value is read as that value. -/
theorem stoll_toString {v : Int} (h : InLong v) : stoll (toString v) = some v := by
  unfold stoll
  rw [leadingNumber_toString, Option.map_some]
  have hval :
      (if decide (v < 0) = true then -((v.natAbs : Nat) : Int) else (v.natAbs : Int)) = v := by
    by_cases hv : v < 0
    · rw [decide_eq_true hv, if_pos rfl]
      omega
    · rw [decide_eq_false hv, if_neg (by simp)]
      omega
  rw [hval]
  refine Option.filter_eq_some_iff.mpr ⟨rfl, ?_⟩
  unfold InLong maxLong minLong at h
  simp
  omega

/-! ## Forms of names and numbers -/

/-- A term `(* C LEAF)`. -/
def termDatum (t : String × Int) : Datum :=
  .list [.atom "*" 0, .atom (toString t.2) 0, .atom t.1 0] 0

def sumDatum (atMost : Bool) (target : Int) (terms : List (String × Int)) : Datum :=
  .list (.atom (if atMost then "le" else "eq") 0 :: .atom (toString target) 0 ::
    terms.map termDatum) 0

def rangeDatum (r : String × Int × Int) : Datum :=
  .list [.atom r.1 0, .atom (toString r.2.1) 0, .atom (toString r.2.2) 0] 0

section Reading

variable {fr : Frame} {pos : String → Nat}

theorem readLinearTerm_datum {t : Datum} {x : String × Int} (ht : t.erase = termDatum x)
    (hpos : fr.position x.1 = some (pos x.1)) (hx : InLong x.2) :
    fr.readLinearTerm t = .ok (pos x.1, x.2) := by
  obtain ⟨l, xs, n, rfl, hxs⟩ := erase_eq_form.mp ht
  obtain ⟨c, ys, rfl, hc, hys⟩ := map_erase_eq_cons.mp hxs
  obtain ⟨leaf, zs, rfl, hleaf, hzs⟩ := map_erase_eq_cons.mp hys
  obtain rfl := List.map_eq_nil_iff.mp hzs
  obtain ⟨k, rfl⟩ := erase_eq_atom.mp hc
  obtain ⟨j, rfl⟩ := erase_eq_atom.mp hleaf
  unfold Frame.readLinearTerm
  rw [if_neg (by simp [Datum.isAtom, Datum.items, Datum.head])]
  show (match fr.position x.1 with
    | none => _
    | some p => _) = _
  rw [hpos]
  show (match stoll (toString x.2) with
    | none => _
    | some k => _) = _
  rw [stoll_toString hx]
  rfl

theorem readConstraint_datum {f : Datum} {atMost : Bool} {target : Int}
    {terms : List (String × Int)} (hf : f.erase = sumDatum atMost target terms)
    (htarget : InLong target)
    (hterms : ∀ x ∈ terms, fr.position x.1 = some (pos x.1) ∧ InLong x.2) :
    fr.readConstraint f = .ok ⟨terms.map fun x => (pos x.1, x.2), target, atMost⟩ := by
  obtain ⟨l, xs, n, rfl, hxs⟩ := erase_eq_form.mp hf
  obtain ⟨k, ts, rfl, hk, hts⟩ := map_erase_eq_cons.mp hxs
  obtain ⟨j, rfl⟩ := erase_eq_atom.mp hk
  have hall := map_erase_forall₂ hts
  have hread : ts.mapM fr.readLinearTerm = .ok (terms.map fun x => (pos x.1, x.2)) := by
    refine mapM_forall₂_ok (List.forall₂_map_right_iff.mpr ?_)
    clear hf hxs hts
    induction hall with
    | nil => exact .nil
    | cons ht _ ih =>
      obtain ⟨hx, hterms⟩ := List.forall_mem_cons.mp hterms
      exact .cons (readLinearTerm_datum ht hx.1 hx.2) (ih hterms)
  unfold Frame.readConstraint
  have hkw : ∀ b : Bool,
      ¬ ((if b then "le" else "eq") ≠ "eq" ∧ (if b then "le" else "eq") ≠ "le") := by decide
  rw [if_neg (by
    simp only [Datum.isAtom, Datum.items, Datum.head, List.length_cons]
    have := hkw atMost
    grind)]
  show (match stoll (toString target) with
    | none => _
    | some k => _) = _
  rw [stoll_toString htarget]
  show (ts.mapM fr.readLinearTerm >>= _) = _
  rw [hread]
  cases atMost <;> rfl

/-- A `constrain` whose constraints were printed from sums. -/
theorem doConstrain_datum (pos : String → Nat) {f : Datum} {name input : String}
    {cs : List (Bool × Int × List (String × Int))}
    (hf : f.erase = .list (.atom "constrain" 0 :: .atom name 0 :: .atom input 0 ::
      cs.map fun c => sumDatum c.1 c.2.1 c.2.2) 0)
    (hcs : ∀ c ∈ cs, InLong c.2.1 ∧ ∀ x ∈ c.2.2, fr.position x.1 = some (pos x.1) ∧ InLong x.2) :
    fr.doConstrain f = .ok (name, input,
      cs.map fun c => ⟨c.2.2.map fun x => (pos x.1, x.2), c.2.1, c.1⟩) := by
  obtain ⟨l, xs, n, rfl, hxs⟩ := erase_eq_form.mp hf
  obtain ⟨d, ys, rfl, hd, hys⟩ := map_erase_eq_cons.mp hxs
  obtain ⟨e, zs, rfl, he, hzs⟩ := map_erase_eq_cons.mp hys
  obtain ⟨i, rfl⟩ := erase_eq_atom.mp hd
  obtain ⟨j, rfl⟩ := erase_eq_atom.mp he
  have hall := map_erase_forall₂ hzs
  have hread : zs.mapM fr.readConstraint =
      .ok (cs.map fun c => ⟨c.2.2.map fun x => (pos x.1, x.2), c.2.1, c.1⟩) := by
    refine mapM_forall₂_ok (List.forall₂_map_right_iff.mpr ?_)
    clear hf hxs hys hzs
    induction hall with
    | nil => exact .nil
    | cons hc _ ih =>
      obtain ⟨hx, hcs⟩ := List.forall_mem_cons.mp hcs
      exact .cons (readConstraint_datum hc hx.1 hx.2) (ih hcs)
  unfold Frame.doConstrain
  show (zs.mapM fr.readConstraint >>= _) = _
  rw [hread]
  rfl

end Reading

/-! ## Boxes -/

section Boxes

variable {d : Decls} {names : List String}

/-- The frontier of a session: the shape is there, and each name stands where it is found. -/
structure Frame.Fronts (fr : Frame) (names : List String) : Prop where
  shaped : fr.top.isSome = true
  ok : fr.Ok
  order : fr.order.Perm names

theorem Frame.Fronts.lookup {fr : Frame} (h : fr.Fronts names) {name : String}
    (hn : name ∈ names) : fr.leaves.lookup name = some ⟨true, fr.order.idxOf name⟩ := by
  have hlt := List.idxOf_lt_length_of_mem (h.order.mem_iff.mpr hn)
  refine h.ok _ _ ?_
  rw [List.getElem?_eq_getElem hlt, List.getElem_idxOf]

theorem Frame.Fronts.position {fr : Frame} (h : fr.Fronts names) {name : String}
    (hn : name ∈ names) : fr.position name = some (fr.order.idxOf name) := by
  rw [Frame.position, h.lookup hn]
  rfl

theorem setRanges_datum (h : d.frame.Fronts names) {rs : List (String × Int × Int)} :
    ∀ {ts : List Datum}, List.Forall₂ (fun t r => t.erase = rangeDatum r) ts rs →
      (∀ r ∈ rs, r.1 ∈ names ∧ InInt32 r.2.1 ∧ InInt32 r.2.2) → ∀ range,
      d.setRanges ts range =
        .ok (rs.foldl (fun range r => range.set (d.frame.order.idxOf r.1) r.2) range) := by
  intro ts hall
  induction hall with
  | nil => exact fun _ _ => rfl
  | @cons t r ts rs ht _ ih =>
    intro hrs range
    obtain ⟨⟨hname, hlo, hhi⟩, hrs⟩ := List.forall_mem_cons.mp hrs
    obtain ⟨l, xs, n, rfl, hxs⟩ := erase_eq_form.mp ht
    obtain ⟨a, ys, rfl, ha, hys⟩ := map_erase_eq_cons.mp hxs
    obtain ⟨b, zs, rfl, hb, hzs⟩ := map_erase_eq_cons.mp hys
    obtain rfl := List.map_eq_nil_iff.mp hzs
    obtain ⟨i, rfl⟩ := erase_eq_atom.mp ha
    obtain ⟨j, rfl⟩ := erase_eq_atom.mp hb
    have hlong : ∀ {v : Int}, InInt32 v → InLong v := fun hv => by
      unfold InLong maxLong minLong
      unfold InInt32 at hv
      omega
    have hint : ∀ {v : Int}, InInt32 v → int32 v = v := fun hv => by
      unfold int32
      unfold InInt32 at hv
      omega
    rw [Decls.setRanges, if_neg (by simp [Datum.items])]
    have hsym : sym (Datum.item (.list [.atom r.1 l, .atom (toString r.2.1) i,
        .atom (toString r.2.2) j] n) 0) = .ok r.1 := rfl
    rw [hsym]
    simp only [bind, Except.bind, h.lookup hname, Datum.item, Datum.items, Datum.text,
      List.getD_cons_succ, List.getD_cons_zero, stoll_toString (hlong hlo),
      stoll_toString (hlong hhi)]
    show d.setRanges ts (range.set _ (int32 r.2.1, int32 r.2.2)) = _
    rw [hint hlo, hint hhi, ih hrs]
    rfl

theorem set_all {order : List String} (hnd : order.Nodup) (r : String → Int × Int) :
    ∀ {ns : List String} {range : List (Int × Int)}, range.length = order.length →
      (∀ n ∈ ns, n ∈ order) →
      ∀ p (hp : p < order.length),
        (ns.foldl (fun range n => range.set (order.idxOf n) (r n)) range)[p]? =
          if order.get ⟨p, hp⟩ ∈ ns then some (r (order.get ⟨p, hp⟩)) else range[p]? := by
  intro ns
  induction ns with
  | nil =>
    intro range _ _ p hp
    simp
  | cons n ns ih =>
    intro range hlen hns p hp
    obtain ⟨hn, hns⟩ := List.forall_mem_cons.mp hns
    rw [List.foldl_cons, ih (by rw [List.length_set, hlen]) hns p hp, List.getElem?_set]
    by_cases hin : order.get ⟨p, hp⟩ ∈ ns
    · rw [if_pos hin, if_pos (List.mem_cons_of_mem _ hin)]
    · rw [if_neg hin]
      by_cases heq : order.idxOf n = p
      · have hname : order.get ⟨p, hp⟩ = n := by
          subst heq
          exact List.getElem_idxOf hp
        rw [if_pos heq, if_pos (by omega), if_pos (by rw [hname]; exact List.mem_cons_self ..),
          hname]
      · have hname : order.get ⟨p, hp⟩ ≠ n := by
          rintro rfl
          exact heq (hnd.idxOf_getElem p hp)
        rw [if_neg heq, if_neg fun hmem => (List.mem_cons.mp hmem).elim hname hin]

/-- A `full` whose ranges were printed for every leaf of the frontier. -/
theorem boxOf_datum (h : d.frame.Fronts names) (hnd : names.Nodup) {f : Datum} {name : String}
    {r : String → Int × Int}
    (hf : f.erase = .list (.atom "full" 0 :: .atom name 0 ::
      names.map fun n => rangeDatum (n, r n)) 0)
    (hr : ∀ n ∈ names, InInt32 (r n).1 ∧ InInt32 (r n).2 ∧ (r n).1 ≤ (r n).2) :
    d.boxOf f = .ok (d.frame.order.map r) := by
  obtain ⟨l, xs, k, rfl, hxs⟩ := erase_eq_form.mp hf
  obtain ⟨e, ts, rfl, he, hts⟩ := map_erase_eq_cons.mp hxs
  obtain ⟨i, rfl⟩ := erase_eq_atom.mp he
  have hall : List.Forall₂ (fun t x => t.erase = rangeDatum x) ts
      (names.map fun n => (n, r n)) := by
    rw [List.forall₂_map_right_iff]
    exact map_erase_forall₂ hts
  have hset := setRanges_datum h hall (by
    intro x hx
    obtain ⟨n, hn, rfl⟩ := List.mem_map.mp hx
    exact ⟨hn, (hr n hn).1, (hr n hn).2.1⟩) (d.frame.order.map d.rangeOf)
  have hordnd := h.order.nodup_iff.mpr hnd
  have hfold : (names.map fun n => (n, r n)).foldl
      (fun range x => range.set (d.frame.order.idxOf x.1) x.2) (d.frame.order.map d.rangeOf) =
      d.frame.order.map r := by
    rw [List.foldl_map]
    refine List.ext_getElem? fun p => ?_
    by_cases hp : p < d.frame.order.length
    · have hin : d.frame.order.get ⟨p, hp⟩ ∈ names := h.order.mem_iff.mp (List.get_mem _ _)
      have hat := set_all hordnd r (List.length_map d.rangeOf)
        (fun n hn => h.order.mem_iff.mpr hn) p hp
      rw [hat, if_pos hin, List.getElem?_map, List.getElem?_eq_getElem hp]
      rfl
    · have hlen : ∀ (ns : List String) (range : List (Int × Int)),
          (ns.foldl (fun range n => range.set (d.frame.order.idxOf n) (r n)) range).length =
            range.length := by
        intro ns
        induction ns with
        | nil => exact fun _ => rfl
        | cons n ns ih => exact fun range => (ih _).trans List.length_set
      rw [List.getElem?_eq_none (by rw [hlen, List.length_map]; omega),
        List.getElem?_eq_none (by rw [List.length_map]; omega)]
  have hfind : (d.frame.order.zip (d.frame.order.map r)).find?
      (fun x => decide (x.2.2 < x.2.1)) = none := by
    rw [List.find?_eq_none]
    intro x hx
    obtain ⟨n, hn, hx⟩ := List.mem_map.mp (List.of_mem_zip hx).2
    have := (hr n (h.order.mem_iff.mp hn)).2.2
    rw [← hx]
    simpa using this
  have htop : d.frame.top.isNone = false := by
    rw [← Option.not_isSome, h.shaped]
    rfl
  unfold Decls.boxOf
  rw [htop]
  show (d.setRanges ts (d.frame.order.map d.rangeOf) >>= _) = _
  rw [hset, hfold]
  simp only [bind, Except.bind, hfind]
  rfl

end Boxes

end LibHSC.Surface
