import Tce.OpSet.BaseOperations

/-!
# Alternatives of operations

What an operation computes is the same for its trigger and for each of the
graphs that it can be lowered by; the unordered float comparisons `EQUF`,
`GTUF`, `GEUF` and `LEUF` have a graph that is ordered.
-/

namespace Tce.OpSet

/-! ## Results of comparisons -/

theorem ofBool_or (p q : Bool) : ofBool p ||| ofBool q = ofBool (p || q) := by
  cases p <;> cases q <;> rfl

theorem ofBool_and (p q : Bool) : ofBool p &&& ofBool q = ofBool (p && q) := by
  cases p <;> cases q <;> rfl

theorem ofBool_xor_one (p : Bool) : ofBool p ^^^ 1#32 = ofBool (!p) := by
  cases p <;> rfl

theorem ofBool_inj {p q : Bool} : ofBool p = ofBool q ↔ p = q := by
  cases p <;> cases q <;> decide

section words
variable (a b : Word)

theorem ne_eq_either : eq a b ^^^ 1#32 = gt a b ||| gt b a := by
  unfold eq gt
  rw [ofBool_xor_one, ofBool_or, ofBool_inj, Bool.eq_iff_iff]
  simp only [Bool.not_eq_true', decide_eq_false_iff_not, Bool.or_eq_true, decide_eq_true_eq, ← BitVec.toInt_inj]
  omega

theorem ge_eq_either : gt b a ^^^ 1#32 = gt a b ||| eq a b := by
  unfold eq gt
  rw [ofBool_xor_one, ofBool_or, ofBool_inj, Bool.eq_iff_iff]
  simp only [Bool.not_eq_true', decide_eq_false_iff_not, Bool.or_eq_true, decide_eq_true_eq, ← BitVec.toInt_inj]
  omega

theorem geu_eq_either : gtu b a ^^^ 1#32 = gtu a b ||| eq a b := by
  unfold eq gtu
  rw [ofBool_xor_one, ofBool_or, ofBool_inj, Bool.eq_iff_iff]
  simp only [Bool.not_eq_true', decide_eq_false_iff_not, Bool.or_eq_true, decide_eq_true_eq, ← BitVec.toNat_inj]
  omega

theorem eq_swap : eq a b = eq b a := congrArg ofBool (decide_eq_decide.2 Eq.comm)

theorem le_eq_either : gt a b ^^^ 1#32 = eq a b ||| gt b a := by
  rw [ge_eq_either b a, eq_swap b a, BitVec.or_comm]

theorem leu_eq_either : gtu a b ^^^ 1#32 = eq a b ||| gtu b a := by
  rw [geu_eq_either b a, eq_swap b a, BitVec.or_comm]

end words

section numbers
variable {α : Type} (a b : Option α)

/-- There is an order between the operands. -/
def AreNumbers : Prop := isnan a = false ∧ isnan b = false

/-- Ordered and unordered comparisons differ when there is an operand that is not a number. -/
theorem unordered_eq_ordered_iff {test : Bool} (htest : ¬AreNumbers a b → test = false) :
    unordered test a b = ordered test a b ↔ AreNumbers a b := by
  unfold unordered ordered
  rw [ofBool_inj]
  by_cases h : AreNumbers a b
  · rw [h.1, h.2]
    exact iff_of_true rfl h
  · rw [htest h]
    unfold AreNumbers at h ⊢
    cases isnan a <;> cases isnan b <;> simp_all

theorem compareNumbers_eq_false {a b : Option α} (h : ¬AreNumbers a b) (test : α → α → Bool) :
    compareNumbers test a b = false := by
  cases a with
  | none => rfl
  | some x =>
    cases b with
    | none => rfl
    | some y => exact absurd ⟨rfl, rfl⟩ h

end numbers

section floats
variable {α : Type} [LinearOrder α] (a b : Option α)

theorem nef_eq_either : nef a b = gtf a b ||| gtf b a := by
  unfold nef gtf ordered
  rw [ofBool_or, ofBool_inj]
  cases a with
  | none => cases b <;> rfl
  | some x =>
    cases b with
    | none => rfl
    | some y =>
      change (!decide (x = y)) = (decide (y < x) || decide (x < y))
      rw [Bool.eq_iff_iff]
      simp only [Bool.not_eq_true', decide_eq_false_iff_not, Bool.or_eq_true, decide_eq_true_eq]
      exact ne_iff_lt_or_gt.trans or_comm

theorem gef_eq_either : gef a b = gtf a b ||| eqf a b := by
  unfold gef gtf eqf ordered
  rw [ofBool_or, ofBool_inj]
  cases a with
  | none => rfl
  | some x =>
    cases b with
    | none => rfl
    | some y =>
      change decide (y ≤ x) = (decide (y < x) || decide (x = y))
      rw [Bool.eq_iff_iff]
      simp only [Bool.or_eq_true, decide_eq_true_eq]
      exact le_iff_lt_or_eq.trans (or_congr_right Eq.comm)

theorem ltf_eq_swap : ltf a b = gtf b a := by
  unfold ltf gtf ordered
  rw [ofBool_inj]
  cases a with
  | none => cases b <;> rfl
  | some x => cases b <;> rfl

theorem eqf_swap : eqf a b = eqf b a := by
  unfold eqf ordered
  rw [ofBool_inj]
  cases a with
  | none => cases b <;> rfl
  | some x =>
    cases b with
    | none => rfl
    | some y => exact decide_eq_decide.2 Eq.comm

theorem lef_eq_either : lef a b = eqf a b ||| gtf b a := by
  have hswap : lef a b = gef b a := by
    unfold lef gef ordered
    rw [ofBool_inj]
    cases a with
    | none => cases b <;> rfl
    | some x => cases b <;> rfl
  rw [hswap, gef_eq_either, eqf_swap b a, BitVec.or_comm]

theorem neuf_eq_negated : neuf a b = eqf a b ^^^ 1#32 := by
  unfold neuf eqf ordered unordered
  rw [ofBool_xor_one, ofBool_inj]
  cases a with
  | none => rfl
  | some x => cases b <;> rfl

theorem ltuf_eq_negated : ltuf a b = (gtf a b ||| eqf a b) ^^^ 1#32 := by
  rw [← gef_eq_either]
  unfold ltuf gef ordered unordered
  rw [ofBool_xor_one, ofBool_inj]
  cases a with
  | none => rfl
  | some x =>
    cases b with
    | none => rfl
    | some y =>
      change decide (x < y) = !decide (y ≤ x)
      rw [Bool.eq_iff_iff]
      simp only [Bool.not_eq_true', decide_eq_false_iff_not, decide_eq_true_eq, not_le]

theorem leuf_eq_negated : leuf a b = gtf a b ^^^ 1#32 := by
  unfold leuf gtf ordered unordered
  rw [ofBool_xor_one, ofBool_inj]
  cases a with
  | none => rfl
  | some x =>
    cases b with
    | none => rfl
    | some y =>
      change decide (x ≤ y) = !decide (y < x)
      rw [Bool.eq_iff_iff]
      simp only [Bool.not_eq_true', decide_eq_false_iff_not, decide_eq_true_eq, not_lt]

theorem eqf_self : eqf a a = ofBool !isnan a := by
  unfold eqf ordered
  rw [ofBool_inj]
  cases a with
  | none => rfl
  | some x => exact decide_eq_true rfl

theorem ordf_eq : ordf a b = eqf a a &&& eqf b b := by
  rw [eqf_self, eqf_self, ofBool_and]
  rfl

theorem uordf_eq : uordf a b = (eqf a a &&& eqf b b) ^^^ 1#32 := by
  rw [eqf_self, eqf_self, ofBool_and, ofBool_xor_one]
  unfold uordf
  rw [ofBool_inj]
  cases a with
  | none => rfl
  | some x => cases b <;> rfl

theorem equf_eq_iff : equf a b = eqf a b ↔ AreNumbers a b :=
  unordered_eq_ordered_iff a b fun h => compareNumbers_eq_false h _

theorem gtuf_eq_iff : gtuf a b = gtf a b ↔ AreNumbers a b :=
  unordered_eq_ordered_iff a b fun h => compareNumbers_eq_false h _

theorem geuf_eq_iff : geuf a b = gtf a b ||| eqf a b ↔ AreNumbers a b := by
  rw [← gef_eq_either]
  exact unordered_eq_ordered_iff a b fun h => compareNumbers_eq_false h _

theorem leuf_eq_iff : leuf a b = eqf a b ||| gtf b a ↔ AreNumbers a b := by
  rw [← lef_eq_either]
  exact unordered_eq_ordered_iff a b fun h => compareNumbers_eq_false h _

end floats

/-! ## Agreement -/

namespace BaseOperation
variable {α : Type} [LinearOrder α] {format : FloatFormat α} {op : BaseOperation} {uint : Nat → Word}

/-- Unordered comparisons of which a graph is ordered. -/
def IsLoweredOrdered (op : BaseOperation) : Bool :=
  op = EQUF || op = GTUF || op = GEUF || op = LEUF

theorem agree_once {r : Except OperationFault Word} (h : op.alternatives format uint = [some r]) :
    AlternativesAgree format op uint := by
  refine ⟨r, ?_⟩
  simp only [h, List.forall_mem_singleton]

theorem agree_twice {r r' : Except OperationFault Word} (h : op.alternatives format uint = [some r, some r']) :
    AlternativesAgree format op uint ↔ r = r' := by
  unfold AlternativesAgree
  simp only [h, List.forall_mem_cons, Option.some.injEq, List.not_mem_nil, false_implies, implies_true, and_true]
  exact ⟨fun ⟨_, hr, hr'⟩ => hr.trans hr'.symm, fun h => ⟨r, rfl, h.symm⟩⟩

theorem agree_thrice {r r' r'' : Except OperationFault Word}
    (h : op.alternatives format uint = [some r, some r', some r'']) :
    AlternativesAgree format op uint ↔ r = r' ∧ r = r'' := by
  unfold AlternativesAgree
  simp only [h, List.forall_mem_cons, Option.some.injEq, List.not_mem_nil, false_implies, implies_true, and_true]
  exact ⟨fun ⟨_, hr, hr', hr''⟩ => ⟨hr.trans hr'.symm, hr.trans hr''.symm⟩,
    fun h => ⟨r, rfl, h.1.symm, h.2.symm⟩⟩

/-- A graph that executes the operation itself gives its faults too. -/
theorem outcome_faultOf (r : Except OperationFault Word) : outcome (assigned (some r)) (faultOf (some r)) = r := by
  cases r <;> rfl

theorem agree_itself {r : Except OperationFault Word}
    (h : op.alternatives format uint = [some r, some (outcome (assigned (some r)) (faultOf (some r)))]) :
    AlternativesAgree format op uint :=
  (agree_twice h).2 (outcome_faultOf r).symm

theorem agree_of_not_isLoweredOrdered (h : op.IsLoweredOrdered = false) : AlternativesAgree format op uint := by
  let a := uint 1
  let b := uint 2
  let x := format.float a
  let y := format.float b
  -- halves are compared as the floats that they are converted to
  let u := format.float (format.chf a)
  let v := format.float (format.chf b)
  cases op with
  | NOT | LT | LTU | ANDN | NEUH => exact agree_once rfl
  | NE => exact (agree_twice rfl).2 (congrArg Except.ok (ne_eq_either a b))
  | GE => exact (agree_twice rfl).2 (congrArg Except.ok (ge_eq_either a b))
  | GEU => exact (agree_twice rfl).2 (congrArg Except.ok (geu_eq_either a b))
  | LE => exact (agree_twice rfl).2 (congrArg Except.ok (le_eq_either a b))
  | LEU => exact (agree_twice rfl).2 (congrArg Except.ok (leu_eq_either a b))
  | NEF => exact (agree_thrice rfl).2 ⟨rfl, congrArg Except.ok (nef_eq_either x y)⟩
  | GEF => exact (agree_thrice rfl).2 ⟨rfl, congrArg Except.ok (gef_eq_either x y)⟩
  | LTF => exact (agree_thrice rfl).2 ⟨rfl, congrArg Except.ok (ltf_eq_swap x y)⟩
  | LEF => exact (agree_thrice rfl).2 ⟨rfl, congrArg Except.ok (lef_eq_either x y)⟩
  | NEUF => exact (agree_twice rfl).2 (congrArg Except.ok (neuf_eq_negated x y))
  | LTUF => exact (agree_twice rfl).2 (congrArg Except.ok (ltuf_eq_negated x y))
  | ORDF => exact (agree_twice rfl).2 (congrArg Except.ok (ordf_eq x y))
  | UORDF => exact (agree_twice rfl).2 (congrArg Except.ok (uordf_eq x y))
  | NEH => exact (agree_thrice rfl).2 ⟨rfl, congrArg Except.ok (nef_eq_either u v)⟩
  | GEH => exact (agree_thrice rfl).2 ⟨rfl, congrArg Except.ok (gef_eq_either u v)⟩
  | LTH => exact (agree_thrice rfl).2 ⟨rfl, congrArg Except.ok (ltf_eq_swap u v)⟩
  | LEH => exact (agree_thrice rfl).2 ⟨rfl, congrArg Except.ok (lef_eq_either u v)⟩
  | EQUF | GTUF | GEUF | LEUF => cases h
  | _ => exact agree_itself rfl

/-- The alternatives of an operation agree, but for operands that are not numbers
of the unordered comparisons with an ordered graph. -/
theorem alternatives_agree_iff (format : FloatFormat α) (op : BaseOperation) (uint : Nat → Word) :
    AlternativesAgree format op uint ↔
      (op.IsLoweredOrdered = true → AreNumbers (format.float (uint 1)) (format.float (uint 2))) := by
  let x := format.float (uint 1)
  let y := format.float (uint 2)
  let result (word : Word) : Except OperationFault Word := .ok word
  have hresult {word word' : Word} : result word = result word' ↔ word = word' := ⟨Except.ok.inj, congrArg result⟩
  by_cases h : op.IsLoweredOrdered = true
  · rw [forall_prop_of_true h]
    cases op with
    | EQUF =>
      have hagree : AlternativesAgree format EQUF uint ↔ result (equf x y) = result (eqf x y) := agree_twice rfl
      exact (hagree.trans hresult).trans (equf_eq_iff x y)
    | GTUF =>
      have hagree : AlternativesAgree format GTUF uint ↔ result (gtuf x y) = result (gtf x y) := agree_twice rfl
      exact (hagree.trans hresult).trans (gtuf_eq_iff x y)
    | GEUF =>
      have hagree : AlternativesAgree format GEUF uint ↔ result (geuf x y) = result (gtf x y ||| eqf x y) :=
        agree_twice rfl
      exact (hagree.trans hresult).trans (geuf_eq_iff x y)
    | LEUF =>
      -- the negated graph agrees, the other one does not
      have hagree : AlternativesAgree format LEUF uint ↔ result (leuf x y) = result (gtf x y ^^^ 1#32) ∧
          result (leuf x y) = result (eqf x y ||| gtf y x) := agree_thrice rfl
      rw [hagree, leuf_eq_negated x y, and_iff_right rfl, ← leuf_eq_negated x y]
      exact hresult.trans (leuf_eq_iff x y)
    | _ => cases h
  · exact iff_of_true (agree_of_not_isLoweredOrdered (by simpa using h)) fun hlowered => absurd hlowered h

/-- Words are read as numbers, but for one of them. -/
def plainFormat : FloatFormat Nat where
  float word := if word = 0x7FC00000 then none else some word.toNat
  chf word := word

/-- The trigger of `EQUF` gives one for an operand that is not a number, and its graph gives zero. -/
theorem not_agree_EQUF : ¬ ∀ op uint, AlternativesAgree plainFormat op uint := by
  intro h
  obtain ⟨result, hresult⟩ := h EQUF fun operand => if operand = 1 then 0x7FC00000 else 0x3F800000
  have htrigger := hresult (some (.ok 1)) (by decide)
  have hgraph := hresult (some (.ok 0)) (by decide)
  rw [← htrigger] at hgraph
  exact absurd hgraph (by decide)

end BaseOperation

end Tce.OpSet
