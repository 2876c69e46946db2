import Mathlib.Algebra.Order.Group.Abs
import Mathlib.Algebra.Order.Ring.Rat
import Mathlib.Tactic.FinCases
import Mathlib.Tactic.Linarith
import NanoDB.Evaluator
import NanoDB.Library.LexCompare

/-!
The two ways to compare fields: the operators of storage/Field.h, which go through
`compare`, and `applyOp` on the values a clause is evaluated with. Both reduce to a
three-way result; they differ for doubles, where `compare` has a tolerance, and may
differ for strings, where one path compares bytes and the other signed characters.
-/
namespace NanoDB

open CTypes LexCompare

section ExactDoubles

def decimalValue (s : List Byte) : ℚ :=
  let fraction := (s.dropWhile isDigit).drop 1
  if (s.dropWhile isDigit).head? = some 46 then
    digitsValue s + digitsValue fraction / 10 ^ (fraction.takeWhile isDigit).length
  else digitsValue s

def atofExact (s : List Byte) : ℚ :=
  match s.dropWhile isSpace with
  | [] => 0
  | b :: rest =>
    if b = 45 then -decimalValue rest
    else if b = 43 then decimalValue rest
    else decimalValue (b :: rest)

/-- Doubles as exact rationals; only whole numbers have a byte form here. -/
instance : CDouble ℚ where
  ofInt v := v
  toInt v := v.num.tdiv v.den
  add x y := x + y
  sub x y := x - y
  mul x y := x * y
  div x y := x / y
  eq x y := x = y
  lt x y := x < y
  le x y := x ≤ y
  atof := atofExact
  toBytes v k := intByte v.num k.val
  ofBytes b := ((List.finRange 8).foldr (fun k acc => acc * 256 + (b k).toNat) 0 : ℕ)

end ExactDoubles

variable {D : Type} [CDouble D]

/-- The constant `1e-9`, which is the quotient of two whole doubles. -/
def tolerance : D := CDouble.div (CDouble.ofInt 1) (CDouble.ofInt 1000000000)

/-- `strcmp` compares the characters as unsigned bytes. -/
def strcmp (s t : List Byte) : ℤ := lexCompare UInt8.toNat s t

namespace Field

/-- On fields of different types the cast of the source is undefined. -/
def compare : Field D → Field D → ℤ
  | .int a, .int b => if a < b then -1 else if a > b then 1 else 0
  | .float a, .float b =>
    if CDouble.lt a (CDouble.sub b tolerance) then -1
    else if CDouble.lt (CDouble.add b tolerance) a then 1
    else 0
  | .string a, .string b => strcmp a.val b.val
  | _, _ => 0

def operator (op : TokenType) (a b : Field D) : Bool :=
  match op with
  | .EQ => a.compare b = 0
  | .NEQ => a.compare b ≠ 0
  | .LT => a.compare b < 0
  | .LTE => a.compare b ≤ 0
  | .GT => a.compare b > 0
  | .GTE => a.compare b ≥ 0
  | _ => false

end Field

namespace FieldCompare

open Executor

def comparisons : List TokenType := [.EQ, .NEQ, .LT, .LTE, .GT, .GTE]

/-- A clause and the operator of `Field` answer alike on the two fields. -/
def PathsAgree (op : TokenType) (a b : Field D) : Prop :=
  applyOp op (fieldToVal a) (fieldToVal b) = .fromBool (a.operator op b)

def answer (op : TokenType) (c : ℤ) : Bool :=
  match op with
  | .EQ => c = 0
  | .NEQ => c ≠ 0
  | .LT => c < 0
  | .LTE => c ≤ 0
  | .GT => c > 0
  | .GTE => c ≥ 0
  | _ => false

def threeWay (x y : ℚ) : ℤ := if x < y then -1 else if y < x then 1 else 0

theorem threeWay_neg (x y : ℚ) : threeWay x y < 0 ↔ x < y := by
  unfold threeWay
  split
  · simp [*]
  · split <;> simp [*]

theorem threeWay_pos (x y : ℚ) : 0 < threeWay x y ↔ y < x := by
  unfold threeWay
  split
  · rename_i hlt
    simp [hlt.le]
  · split <;> simp [*]

theorem threeWay_eq_zero (x y : ℚ) : threeWay x y = 0 ↔ x = y := by
  have hneg := threeWay_neg x y
  have hpos := threeWay_pos x y
  rw [le_antisymm_iff (a := x), ← not_lt, ← not_lt, ← hneg, ← hpos]
  omega

theorem operator_eq_answer (op : TokenType) (a b : Field D) :
    a.operator op b = answer op (a.compare b) := by
  cases op <;> rfl

/-- Two three-way results are the same for what a comparison asks about. -/
def SameFor (op : TokenType) (c c' : ℤ) : Prop :=
  match op with
  | .EQ | .NEQ => c = 0 ↔ c' = 0
  | .LT | .GTE => c < 0 ↔ c' < 0
  | _ => 0 < c ↔ 0 < c'

theorem answer_eq_iff {op : TokenType} (hop : op ∈ comparisons) (c c' : ℤ) :
    answer op c = answer op c' ↔ SameFor op c c' := by
  fin_cases hop <;> simp only [answer, SameFor, decide_eq_decide] <;> omega

section Paths

theorem applyOp_string (op : TokenType) (hop : op ∈ comparisons) (s t : CStr (MAX_LEN + 1)) :
    applyOp op (fieldToVal (.string s : Field D)) (fieldToVal (.string t)) =
      .fromBool (answer op (strCompare s.val t.val)) := by
  have hs : (snprintf 256 (by decide) s.val).val = s.val :=
    snprintf_val 256 _ s.val s.nulFree (s.fits.trans (by decide))
  have ht : (snprintf 256 (by decide) t.val).val = t.val :=
    snprintf_val 256 _ t.val t.nulFree (t.fits.trans (by decide))
  have happly : applyString op (fieldToVal (.string s : Field D)) (fieldToVal (.string t)) =
      .fromBool (answer op (strCompare s.val t.val)) := by
    simp only [applyString, fieldToVal, EvalVal.fromStr, if_true, hs, ht]
    fin_cases hop <;> rfl
  fin_cases hop <;> exact happly

theorem applyNumeric_exact (op : TokenType) (hop : op ∈ comparisons) (L R : EvalVal ℚ) :
    applyNumeric op L R = .fromBool (answer op (threeWay L.asNum R.asNum)) := by
  have hneg := threeWay_neg L.asNum R.asNum
  have hpos := threeWay_pos L.asNum R.asNum
  have heq := threeWay_eq_zero L.asNum R.asNum
  have hle : threeWay L.asNum R.asNum ≤ 0 ↔ L.asNum ≤ R.asNum := by
    rw [← not_lt, hpos, not_lt]
  have hge : threeWay L.asNum R.asNum ≥ 0 ↔ R.asNum ≤ L.asNum := by
    rw [ge_iff_le, ← not_lt, hneg, not_lt]
  fin_cases hop
  · exact congrArg EvalVal.fromBool (decide_eq_decide.mpr heq.symm)
  · exact congrArg EvalVal.fromBool
      (by simp only [answer, ne_eq, decide_not, heq]; rfl)
  · exact congrArg EvalVal.fromBool (decide_eq_decide.mpr hneg.symm)
  · exact congrArg EvalVal.fromBool (decide_eq_decide.mpr hle.symm)
  · exact congrArg EvalVal.fromBool (decide_eq_decide.mpr hpos.symm)
  · exact congrArg EvalVal.fromBool (decide_eq_decide.mpr hge.symm)

theorem applyOp_numeric (op : TokenType) (hop : op ∈ comparisons) {L R : EvalVal ℚ}
    (hL : L.kind ≠ .STRING_K) (hR : R.kind ≠ .STRING_K) :
    applyOp op L R = .fromBool (answer op (threeWay L.asNum R.asNum)) := by
  rw [← applyNumeric_exact op hop]
  fin_cases hop <;> simp [applyOp, hL, hR]

theorem fromBool_inj {b c : Bool} (h : (EvalVal.fromBool b : EvalVal D) = .fromBool c) : b = c :=
  congrArg EvalVal.bval h

/-- The paths agree where the result behind the clause answers as `compare` does. -/
theorem pathsAgree_iff {op : TokenType} (hop : op ∈ comparisons) {a b : Field D} {c : ℤ}
    (h : applyOp op (fieldToVal a) (fieldToVal b) = .fromBool (answer op c)) :
    PathsAgree op a b ↔ SameFor op c (a.compare b) := by
  rw [PathsAgree, h, operator_eq_answer, ← answer_eq_iff hop]
  exact ⟨fromBool_inj, congrArg EvalVal.fromBool⟩

end Paths

section Types

theorem int_pathsAgree {op : TokenType} (hop : op ∈ comparisons) (i j : Int32) :
    PathsAgree op (.int i : Field ℚ) (.int j) := by
  have hlt : ((i.toInt : ℚ) < j.toInt) ↔ i < j := by
    rw [Int.cast_lt, Int32.lt_iff_toInt_lt]
  have hgt : ((j.toInt : ℚ) < i.toInt) ↔ j < i := by
    rw [Int.cast_lt, Int32.lt_iff_toInt_lt]
  have hsame : threeWay (i.toInt : ℚ) j.toInt = Field.compare (.int i : Field ℚ) (.int j) := by
    simp only [threeWay, Field.compare, hlt, hgt, gt_iff_lt]
  rw [pathsAgree_iff hop (applyOp_numeric op hop EvalKind.noConfusion EvalKind.noConfusion),
    ← answer_eq_iff hop]
  exact congrArg (answer op) hsame

theorem float_compare_neg (x y : ℚ) :
    Field.compare (.float x) (.float y) < 0 ↔ x < y - tolerance := by
  change (if decide (x < y - tolerance) = true then (-1 : ℤ)
    else if decide (y + tolerance < x) = true then 1 else 0) < 0 ↔ _
  split
  · simp_all
  · split <;> simp_all

theorem tolerance_eq : (tolerance : ℚ) = 1 / 1000000000 := rfl

theorem float_compare_pos (x y : ℚ) :
    0 < Field.compare (.float x) (.float y) ↔ y + tolerance < x := by
  change 0 < (if decide (x < y - tolerance) = true then (-1 : ℤ)
    else if decide (y + tolerance < x) = true then 1 else 0) ↔ _
  split
  · rename_i hlt
    have hlt := of_decide_eq_true hlt
    have hle : x ≤ y + tolerance := by
      rw [tolerance_eq] at hlt ⊢
      linarith
    simp [hle]
  · split <;> simp_all

theorem iff_not_iff_or {P Q : Prop} (h : P → ¬ Q) : (P ↔ ¬ Q) ↔ P ∨ Q := by tauto

theorem iff_iff_or_not {P Q : Prop} (h : Q → P) : (P ↔ Q) ↔ Q ∨ ¬ P := by tauto

def Apart (op : TokenType) (x y : ℚ) : Prop :=
  match op with
  | .EQ | .NEQ => x = y ∨ 1 / 1000000000 < |x - y|
  | .LT | .GTE => x < y - 1 / 1000000000 ∨ y ≤ x
  | _ => y + 1 / 1000000000 < x ∨ x ≤ y

/-- Within the tolerance `compare` finds two doubles equal. -/
theorem float_compare_zero (x y : ℚ) :
    Field.compare (.float x) (.float y) = 0 ↔ ¬ (1 / 1000000000 < |x - y|) := by
  have hneg := float_compare_neg x y
  have hpos := float_compare_pos x y
  have hfar : 1 / 1000000000 < |x - y| ↔ x < y - tolerance ∨ y + tolerance < x := by
    rw [lt_abs, tolerance_eq, or_comm]
    refine or_congr ⟨fun h => ?_, fun h => ?_⟩ ⟨fun h => ?_, fun h => ?_⟩ <;> linarith
  rw [hfar, not_or, ← hneg, ← hpos]
  omega

theorem float_sameEqual_iff (x y : ℚ) :
    (threeWay x y = 0 ↔ Field.compare (.float x) (.float y) = 0) ↔
      x = y ∨ 1 / 1000000000 < |x - y| := by
  have hself : x = y → ¬ (1 / 1000000000 < |x - y|) := by
    rintro rfl
    rw [sub_self, abs_zero]
    norm_num
  rw [threeWay_eq_zero, float_compare_zero]
  exact iff_not_iff_or hself

theorem float_sameBelow_iff (x y : ℚ) :
    (threeWay x y < 0 ↔ Field.compare (.float x) (.float y) < 0) ↔
      x < y - 1 / 1000000000 ∨ y ≤ x := by
  have hless : x < y - 1 / 1000000000 → x < y := fun h => by linarith
  rw [threeWay_neg, float_compare_neg, tolerance_eq, ← not_lt]
  exact iff_iff_or_not hless

theorem float_sameAbove_iff (x y : ℚ) :
    (0 < threeWay x y ↔ 0 < Field.compare (.float x) (.float y)) ↔
      y + 1 / 1000000000 < x ∨ x ≤ y := by
  have hmore : y + 1 / 1000000000 < x → y < x := fun h => by linarith
  rw [threeWay_pos, float_compare_pos, tolerance_eq, ← not_lt]
  exact iff_iff_or_not hmore

theorem float_pathsAgree_iff {op : TokenType} (hop : op ∈ comparisons) (x y : ℚ) :
    PathsAgree op (.float x) (.float y) ↔ Apart op x y := by
  have hagree : PathsAgree op (.float x) (.float y) ↔
      SameFor op (threeWay x y) (Field.compare (.float x) (.float y)) :=
    pathsAgree_iff hop (applyOp_numeric op hop EvalKind.noConfusion EvalKind.noConfusion)
  rw [hagree]
  fin_cases hop
  · exact float_sameEqual_iff x y
  · exact float_sameEqual_iff x y
  · exact float_sameBelow_iff x y
  · exact float_sameAbove_iff x y
  · exact float_sameAbove_iff x y
  · exact float_sameBelow_iff x y

theorem strCompare_eq (s t : List Byte) :
    strCompare s t = lexCompare (fun b : Byte => b.toInt8.toInt) s t := by
  induction s generalizing t with
  | nil => cases t <;> rfl
  | cons a s ih =>
    cases t with
    | nil => rfl
    | cons b t =>
      simp only [strCompare, lexCompare, gt_iff_lt, Int8.lt_iff_toInt_lt, ih]

/-- The first two different bytes are both below 128 or both not. -/
def SameSide (s t : List Byte) : Prop :=
  ∀ a b, firstDifference s t = some (a, b) → (a < 128 ↔ b < 128)

theorem firstDifference_ne {s t : List Byte} {a b : Byte} (h : firstDifference s t = some (a, b)) :
    a ≠ b := by
  induction s generalizing t with
  | nil => simp [firstDifference] at h
  | cons x s ih =>
    cases t with
    | nil => simp [firstDifference] at h
    | cons y t =>
      rw [firstDifference] at h
      split at h
      · exact ih h
      · rename_i hne
        simp only [Option.some.injEq, Prod.mk.injEq] at h
        rw [← h.1, ← h.2]
        exact hne

theorem signed_eq (b : Byte) :
    b.toInt8.toInt = if b < 128 then (b.toNat : ℤ) else b.toNat - 256 := by
  have hcond : b.toInt8.toInt = if 2 * b.toNat < 256 then (b.toNat : ℤ) else b.toNat - 256 :=
    BitVec.toInt_eq_toNat_cond b.toBitVec
  have hlt : b < 128 ↔ b.toNat < 128 := UInt8.lt_iff_toNat_lt
  rw [hcond]
  by_cases hb : b < 128
  · have hnat := hlt.mp hb
    rw [if_pos hb, if_pos (by omega)]
  · have hnat : ¬ b.toNat < 128 := fun hnat => hb (hlt.mpr hnat)
    rw [if_neg hb, if_neg (by omega)]

/-- Bytes on the same side of 128 have the same order with and without a sign. -/
theorem signed_lt_iff {a b : Byte} (h : a < 128 ↔ b < 128) :
    a.toInt8.toInt < b.toInt8.toInt ↔ a.toNat < b.toNat := by
  rw [signed_eq, signed_eq]
  by_cases ha : a < 128
  · rw [if_pos ha, if_pos (h.mp ha)]
    omega
  · rw [if_neg ha, if_neg fun hb => ha (h.mpr hb)]
    omega

/-- On different sides of 128 the sign turns the order round. -/
theorem signed_gt_iff {a b : Byte} (h : ¬ (a < 128 ↔ b < 128)) :
    a.toInt8.toInt < b.toInt8.toInt ↔ b.toNat < a.toNat := by
  have ha : a < 128 ↔ a.toNat < 128 := UInt8.lt_iff_toNat_lt
  have hb : b < 128 ↔ b.toNat < 128 := UInt8.lt_iff_toNat_lt
  have hamax := a.toNat_lt
  have hbmax := b.toNat_lt
  rw [signed_eq, signed_eq]
  by_cases hless : a < 128
  · have hmore : ¬ b < 128 := fun hless' => h (iff_of_true hless hless')
    rw [if_pos hless, if_neg hmore]
    rw [ha] at hless
    rw [hb] at hmore
    omega
  · have hless' : b < 128 := by
      by_contra hmore
      exact h (iff_of_false hless hmore)
    rw [if_neg hless, if_pos hless']
    rw [ha] at hless
    rw [hb] at hless'
    omega

theorem signed_injective : Function.Injective fun b : Byte => b.toInt8.toInt :=
  fun _ _ h => congrArg Int8.toUInt8 (Int8.toInt_inj.mp h)

theorem strCompare_eq_zero_iff (s t : List Byte) : strCompare s t = 0 ↔ strcmp s t = 0 := by
  rw [strCompare_eq, strcmp, lexCompare_eq_zero_iff signed_injective,
    lexCompare_eq_zero_iff fun _ _ => UInt8.toNat_inj.mp]

theorem strCompare_of_sameSide {s t : List Byte} (h : SameSide s t) :
    strCompare s t = strcmp s t := by
  rw [strCompare_eq, strcmp]
  apply lexCompare_congr
  intro a b hdiff
  have hside := h a b hdiff
  refine ⟨fun heq => ?_, signed_lt_iff hside, signed_lt_iff hside.symm⟩
  exact firstDifference_ne hdiff (signed_injective heq)

/-- Where the sign of a byte comes in, the two comparisons are opposite. -/
theorem strCompare_of_not_sameSide {s t : List Byte} (h : ¬ SameSide s t) :
    strCompare s t = -strcmp s t ∧ strcmp s t ≠ 0 := by
  obtain ⟨a, b, hdiff, hside⟩ : ∃ a b, firstDifference s t = some (a, b) ∧
      ¬ (a < 128 ↔ b < 128) := by
    by_contra hnone
    exact h fun a b hdiff => by_contra fun hside => hnone ⟨a, b, hdiff, hside⟩
  have hne := firstDifference_ne hdiff
  have hnat : a.toNat ≠ b.toNat := fun heq => hne (UInt8.toNat_inj.mp heq)
  have hturn := signed_gt_iff hside
  rw [strCompare_eq, strcmp, lexCompare_of_firstDifference _ hdiff (signed_injective.ne hne),
    lexCompare_of_firstDifference _ hdiff hnat]
  by_cases hlt : a.toNat < b.toNat
  · rw [if_neg (by omega), if_pos hlt]
    decide
  · rw [if_pos (by omega), if_neg hlt]
    decide

theorem strCompare_sameBelow_iff (s t : List Byte) :
    (strCompare s t < 0 ↔ strcmp s t < 0) ↔ SameSide s t := by
  by_cases h : SameSide s t
  · rw [strCompare_of_sameSide h]
    exact iff_of_true Iff.rfl h
  · obtain ⟨hturn, hne⟩ := strCompare_of_not_sameSide h
    rw [iff_false_right h, hturn]
    omega

theorem strCompare_sameAbove_iff (s t : List Byte) :
    (0 < strCompare s t ↔ 0 < strcmp s t) ↔ SameSide s t := by
  have hequal := strCompare_eq_zero_iff s t
  rw [← strCompare_sameBelow_iff]
  omega

/-- Equality of strings is the same on both paths. Their order is exactly when the first two
different bytes are on one side of 128. -/
theorem string_pathsAgree_iff {op : TokenType} (hop : op ∈ comparisons)
    (s t : CStr (MAX_LEN + 1)) :
    PathsAgree op (.string s : Field D) (.string t) ↔
      op = .EQ ∨ op = .NEQ ∨ SameSide s.val t.val := by
  have hagree : PathsAgree op (.string s : Field D) (.string t) ↔
      SameFor op (strCompare s.val t.val) (strcmp s.val t.val) :=
    pathsAgree_iff hop (applyOp_string op hop s t)
  rw [hagree]
  fin_cases hop
  · exact iff_of_true (strCompare_eq_zero_iff s.val t.val) (Or.inl rfl)
  · exact iff_of_true (strCompare_eq_zero_iff s.val t.val) (Or.inr (Or.inl rfl))
  · exact (strCompare_sameBelow_iff s.val t.val).trans (by simp)
  · exact (strCompare_sameAbove_iff s.val t.val).trans (by simp)
  · exact (strCompare_sameAbove_iff s.val t.val).trans (by simp)
  · exact (strCompare_sameBelow_iff s.val t.val).trans (by simp)

end Types

section Preorder

theorem int_compare_le (i j : Int32) : Field.compare (.int i : Field D) (.int j) ≤ 0 ↔ i ≤ j := by
  simp only [Field.compare]
  rcases lt_trichotomy i j with h | h | h
  · simp [h, h.le]
  · simp [h]
  · simp [h, h.not_gt]

theorem compare_refl (a : Field ℚ) : a.compare a = 0 := by
  cases a with
  | int i => simp [Field.compare]
  | float x =>
    have hlow : ¬ x < x - tolerance := by
      rw [tolerance_eq]
      linarith
    have hup : ¬ x + tolerance < x := by
      rw [tolerance_eq]
      linarith
    have hneg := (float_compare_neg x x).not.mpr hlow
    have hpos := (float_compare_pos x x).not.mpr hup
    omega
  | string s => exact lexCompare_self UInt8.toNat s.val

theorem compare_swap (a b : Field ℚ) (htype : a.type = b.type) :
    b.compare a = -a.compare b := by
  cases a <;> cases b <;> try contradiction
  · rename_i i j
    simp only [Field.compare, gt_iff_lt]
    rcases lt_trichotomy i j with h | h | h
    · simp [h, h.not_gt]
    · simp [h]
    · simp [h, h.not_gt]
  · rename_i x y
    change (if decide (y < x - tolerance) = true then (-1 : ℤ)
        else if decide (x + tolerance < y) = true then 1 else 0) =
      -if decide (x < y - tolerance) = true then (-1 : ℤ)
        else if decide (y + tolerance < x) = true then 1 else 0
    have hless : y < x - tolerance ↔ y + tolerance < x := lt_sub_iff_add_lt
    have hmore : x + tolerance < y ↔ x < y - tolerance := lt_sub_iff_add_lt.symm
    have hpos : (0 : ℚ) < tolerance := by
      rw [tolerance_eq]
      norm_num
    simp only [hless, hmore, decide_eq_true_eq]
    by_cases hlow : x < y - tolerance
    · rw [if_neg (by linarith), if_pos hlow, if_pos hlow]
      rfl
    · rw [if_neg hlow, if_neg hlow]
      split <;> rfl
  · rename_i s t
    exact lexCompare_swap UInt8.toNat s.val t.val

theorem compare_total (a b : Field ℚ) (htype : a.type = b.type) :
    a.compare b ≤ 0 ∨ b.compare a ≤ 0 := by
  rw [compare_swap a b htype]
  omega

/-- Without a tolerance `compare` is transitive. -/
theorem compare_trans (a b c : Field ℚ) (hab : a.type = b.type) (hbc : b.type = c.type)
    (hfloat : a.type ≠ .FLOAT) (h : a.compare b ≤ 0) (h' : b.compare c ≤ 0) :
    a.compare c ≤ 0 := by
  cases a with
  | int i =>
    cases b <;> cases c <;> try contradiction
    rw [int_compare_le] at h h' ⊢
    exact h.trans h'
  | float x => exact absurd rfl hfloat
  | string s =>
    cases b <;> cases c <;> try contradiction
    exact lexCompare_trans UInt8.toNat _ _ _ h h'

end Preorder

/-- Two fields on which a comparison sees neither the tolerance nor a byte's sign. -/
def Separated (op : TokenType) : Field ℚ → Field ℚ → Prop
  | .float x, .float y => Apart op x y
  | .string s, .string t => op = .EQ ∨ op = .NEQ ∨ SameSide s.val t.val
  | _, _ => True

/-- `compare` is reflexive, antisymmetric in sign and total within a type, and transitive
except for doubles, which it compares up to `1e-9`. On separated fields, and on no others,
both paths give the answer to a comparison alike. -/
theorem compare_paths :
    (∀ a : Field ℚ, a.compare a = 0) ∧
    (∀ a b : Field ℚ, a.type = b.type →
      b.compare a = -a.compare b ∧ (a.compare b ≤ 0 ∨ b.compare a ≤ 0)) ∧
    (∀ a b c : Field ℚ, a.type = b.type → b.type = c.type → a.type ≠ .FLOAT →
      a.compare b ≤ 0 → b.compare c ≤ 0 → a.compare c ≤ 0) ∧
    (∀ x y : ℚ, (Field.compare (.float x) (.float y) < 0 ↔ x < y - 1 / 1000000000) ∧
      (0 < Field.compare (.float x) (.float y) ↔ y + 1 / 1000000000 < x)) ∧
    (∀ op ∈ comparisons, ∀ a b : Field ℚ, a.type = b.type →
      (PathsAgree op a b ↔ Separated op a b)) := by
  refine ⟨compare_refl, fun a b h => ⟨compare_swap a b h, compare_total a b h⟩, compare_trans,
    fun x y => ⟨float_compare_neg x y, float_compare_pos x y⟩, ?_⟩
  intro op hop a b htype
  cases a <;> cases b <;> try contradiction
  · exact iff_of_true (int_pathsAgree hop _ _) trivial
  · exact float_pathsAgree_iff hop _ _
  · exact string_pathsAgree_iff hop _ _

def letterA : Field ℚ := .ofString [97]

def letterZ : Field ℚ := .ofString [122]

def letterE : Field ℚ := .ofString [195, 169]

theorem compare_paths_letters : PathsAgree .LT letterA letterZ ∧
    ¬ PathsAgree .LT letterZ letterE ∧ PathsAgree .EQ letterZ letterE := by
  have hpaths := compare_paths.2.2.2.2
  refine ⟨(hpaths .LT (by decide) letterA letterZ rfl).mpr (Or.inr (Or.inr ?_)), fun h => ?_,
    (hpaths .EQ (by decide) letterZ letterE rfl).mpr (Or.inl rfl)⟩
  · intro a b h
    have hdiff : some ((97 : Byte), (122 : Byte)) = some (a, b) := h
    obtain ⟨rfl, rfl⟩ := Prod.mk.inj (Option.some.inj hdiff)
    decide
  · have hside := (hpaths .LT (by decide) letterZ letterE rfl).mp h
    exact absurd (hside.resolve_left (by decide)) fun hside' =>
      absurd (hside'.resolve_left (by decide) 122 195 rfl) (by decide)

/-- Three doubles on which `compare` is not transitive, two of which the paths compare
differently, and two strings that they order differently. -/
theorem compare_paths_disagree :
    (¬ ∀ a b c : Field ℚ, a.type = b.type → b.type = c.type → a.compare b ≤ 0 →
        b.compare c ≤ 0 → a.compare c ≤ 0) ∧
      ¬ PathsAgree .EQ (.float (6 / 10000000000) : Field ℚ) (.float 0) ∧
      ¬ PathsAgree .LT letterZ letterE := by
  refine ⟨?_, ?_, ?_⟩
  · intro h
    have hfar := h (.float (12 / 10000000000)) (.float (6 / 10000000000)) (.float 0) rfl rfl
      (by decide +kernel) (by decide +kernel)
    revert hfar
    decide +kernel
  · intro h
    have heq := fromBool_inj h
    revert heq
    decide +kernel
  · intro h
    have hlt := fromBool_inj h
    revert hlt
    decide +kernel

end FieldCompare

end NanoDB
