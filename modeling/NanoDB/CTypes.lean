import Mathlib.Data.List.TakeWhile
import Mathlib.Data.Nat.Notation
import Mathlib.Data.Int.Notation
import Mathlib.Order.Defs.LinearOrder
import Mathlib.Tactic.IntervalCases

/-!
The C++ base types of the engine. A `char` is a byte, an `int` is either an
`Int32` or, where the engine only counts with it, an unbounded integer that is
wrapped explicitly where the source can leave the 32-bit range. A fixed
`char[n]` field is a list of bytes that carries its own length bound.
-/
namespace NanoDB.CTypes

abbrev Byte := UInt8

/-- The order of `int`, as the comparison operators compute it. -/
instance instLinearOrderInt32 : LinearOrder Int32 where
  le_refl := Int32.le_refl
  le_trans _ _ _ := Int32.le_trans
  lt_iff_le_not_ge a b := by
    rw [Int32.lt_iff_toInt_lt, Int32.le_iff_toInt_le, Int32.le_iff_toInt_le]
    omega
  le_antisymm _ _ := Int32.le_antisymm
  le_total := Int32.le_total
  toDecidableLE := inferInstance
  toDecidableEq := inferInstance

def ascii (s : String) : List Byte := s.toList.map fun c => UInt8.ofNat c.toNat

def wrap32 (x : ℤ) : ℤ := (BitVec.ofInt 32 x).toInt

theorem wrap32_eq_bmod (x : ℤ) : wrap32 x = x.bmod 4294967296 := BitVec.toInt_ofInt x

theorem wrap32_upper (x : ℤ) : wrap32 x < 2147483648 := by
  rw [wrap32_eq_bmod]
  have h := Int.bmod_lt (x := x) (m := 4294967296) (by omega)
  omega

theorem wrap32_eq_self (x : ℤ) (hlow : -2147483648 ≤ x) (hup : x < 2147483648) :
    wrap32 x = x := by
  rw [wrap32_eq_bmod]
  apply Int.bmod_eq_of_le <;> omega

/-- Wrapping only forgets a multiple of `2^32`. -/
theorem wrap32_eq_iff (x y : ℤ) : wrap32 x = wrap32 y ↔ x % 4294967296 = y % 4294967296 := by
  rw [wrap32_eq_bmod, wrap32_eq_bmod]
  constructor
  · intro h
    have hx := Int.bmod_emod (x := x) (m := 4294967296)
    have hy := Int.bmod_emod (x := y) (m := 4294967296)
    rw [h] at hx
    exact hx.symm.trans hy
  · intro h
    rw [← Int.emod_bmod (x := x), ← Int.emod_bmod (x := y)]
    exact congrArg (fun z => Int.bmod z 4294967296) h

/-- Byte `k` of the little-endian form, `(v >> 8k) & 0xFF`. -/
def intByte (v : ℤ) (k : ℕ) : Byte := UInt8.ofNat (v / 256 ^ k % 256).toNat

def intBytes (v : ℤ) : List Byte := [intByte v 0, intByte v 1, intByte v 2, intByte v 3]

/-- `b0 | b1 << 8 | b2 << 16 | b3 << 24` on unsigned bytes, read as an `int`. -/
def bytesInt (b0 b1 b2 b3 : Byte) : ℤ :=
  wrap32 (b0.toNat + 256 * b1.toNat + 65536 * b2.toNat + 16777216 * b3.toNat : ℕ)

theorem intBytes_length (v : ℤ) : (intBytes v).length = 4 := rfl

theorem intByte_toNat (v : ℤ) (k : ℕ) : ((intByte v k).toNat : ℤ) = v / 256 ^ k % 256 := by
  have hlow : 0 ≤ v / 256 ^ k % 256 := Int.emod_nonneg _ (by omega)
  have hup : v / 256 ^ k % 256 < 256 := Int.emod_lt_of_pos _ (by omega)
  have hnat : (v / 256 ^ k % 256).toNat < UInt8.size := by
    change (v / 256 ^ k % 256).toNat < 256
    omega
  rw [intByte, UInt8.toNat_ofNat_of_lt' hnat]
  omega

theorem bytesInt_intBytes (v : ℤ) :
    bytesInt (intByte v 0) (intByte v 1) (intByte v 2) (intByte v 3) = wrap32 v := by
  have h0 := intByte_toNat v 0
  have h1 := intByte_toNat v 1
  have h2 := intByte_toNat v 2
  have h3 := intByte_toNat v 3
  unfold bytesInt
  rw [wrap32_eq_iff]
  norm_num at h0 h1 h2 h3
  omega

/-- The NUL-terminated string at the start of a buffer. -/
def cstr (bs : List Byte) : List Byte := bs.takeWhile (fun b => b ≠ 0)

theorem cstr_nulFree (bs : List Byte) : ∀ b ∈ cstr bs, b ≠ 0 := by
  intro b hb
  simpa using List.mem_takeWhile_imp hb

theorem cstr_eq_self (bs : List Byte) (h : ∀ b ∈ bs, b ≠ 0) : cstr bs = bs := by
  unfold cstr
  rw [List.takeWhile_eq_self_iff]
  intro b hb
  simpa using h b hb

/-- The string held by a `char[n]` field: no NUL inside, room for the terminator. -/
structure CStr (n : ℕ) where
  val : List Byte
  nulFree : ∀ b ∈ val, b ≠ 0
  fits : val.length < n
deriving DecidableEq

namespace CStr

theorem ext_val {n : ℕ} {s t : CStr n} (h : s.val = t.val) : s = t := by
  cases s
  cases t
  simpa using h

def empty (n : ℕ) (hn : 0 < n) : CStr n := ⟨[], by simp, hn⟩

end CStr

/-- The buffers for names, texts, clauses and translated clauses are not empty. -/
theorem nameSize_pos : 0 < 64 := by decide

theorem textSize_pos : 0 < 256 := by decide

theorem clauseSize_pos : 0 < 512 := by decide

theorem postfixSize_pos : 0 < 1024 := by decide

/-- `snprintf(dst, n, "%s", src)` on a field of `n` bytes. -/
def snprintf (n : ℕ) (hn : 0 < n) (src : List Byte) : CStr n where
  val := (cstr src).take (n - 1)
  nulFree b hb := cstr_nulFree src b (List.mem_of_mem_take hb)
  fits := by
    rw [List.length_take]
    omega

/-- Copying a string that fits changes nothing. -/
theorem snprintf_val (n : ℕ) (hn : 0 < n) (src : List Byte)
    (hnul : ∀ b ∈ src, b ≠ 0) (hlen : src.length < n) : (snprintf n hn src).val = src := by
  change (cstr src).take (n - 1) = src
  rw [cstr_eq_self src hnul]
  exact List.take_of_length_le (by omega)

theorem snprintf_self {n : ℕ} (hn : 0 < n) (s : CStr n) : snprintf n hn s.val = s :=
  CStr.ext_val (snprintf_val n hn s.val s.nulFree s.fits)

def isDigit (b : Byte) : Bool := 48 ≤ b && b ≤ 57

def isAlpha (b : Byte) : Bool := (65 ≤ b && b ≤ 90) || (97 ≤ b && b ≤ 122)

def isAlnum (b : Byte) : Bool := isAlpha b || isDigit b

def toUpper (b : Byte) : Byte := if 97 ≤ b && b ≤ 122 then b - 32 else b

/-- `isspace` in the C locale. -/
def isSpace (b : Byte) : Bool := b = 32 || (9 ≤ b && b ≤ 13)

def digitsValue (bs : List Byte) : ℕ :=
  (bs.takeWhile isDigit).foldl (fun acc b => acc * 10 + (b.toNat - 48)) 0

/-- `strtol` in base ten: leading blanks, a sign, digits, saturating at `long`. -/
def strtol (s : List Byte) : ℤ :=
  match s.dropWhile isSpace with
  | [] => 0
  | b :: rest =>
    if b = 45 then max (-9223372036854775808) (-(digitsValue rest : ℤ))
    else if b = 43 then min 9223372036854775807 (digitsValue rest : ℤ)
    else min 9223372036854775807 (digitsValue (b :: rest) : ℤ)

/-- `atoi` as the C library computes it, `(int) strtol(s)`. -/
def atoi (s : List Byte) : Int32 := Int32.ofInt (strtol s)

/-- The `double` operations the engine uses. Nothing is assumed about them here:
a result about doubles holds for every implementation of this interface. -/
class CDouble (D : Type) where
  ofInt : ℤ → D
  toInt : D → ℤ
  add : D → D → D
  sub : D → D → D
  mul : D → D → D
  div : D → D → D
  eq : D → D → Bool
  lt : D → D → Bool
  le : D → D → Bool
  atof : List Byte → D
  toBytes : D → Fin 8 → Byte
  ofBytes : (Fin 8 → Byte) → D

/-- Doubles without a fraction, enough to run the engine on whole numbers. -/
instance : CDouble ℤ where
  ofInt v := v
  toInt v := v
  add x y := x + y
  sub x y := x - y
  mul x y := x * y
  div x y := x.tdiv y
  eq x y := x = y
  lt x y := x < y
  le x y := x ≤ y
  atof := strtol
  toBytes v k := intByte v k.val
  ofBytes b := (List.finRange 8).foldr (fun k acc => acc * 256 + (b k).toNat) 0

end NanoDB.CTypes
