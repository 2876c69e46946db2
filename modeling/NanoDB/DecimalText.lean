import Mathlib.Data.Nat.Digits.Lemmas
import NanoDB.CTypes

/-!
Decimal numbers as text. `atoi` reads back the number that was written, whatever zeros
stand before its digits.
-/
namespace NanoDB.LexerRoundTrip

open CTypes

def decimalDigits (n : ℕ) : List Byte :=
  if n = 0 then [48] else (Nat.digits 10 n).reverse.map fun d => UInt8.ofNat (48 + d)

theorem decimalDigits_digit (n : ℕ) : ∀ b ∈ decimalDigits n, isDigit b = true := by
  intro b hb
  unfold decimalDigits at hb
  split at hb
  · obtain rfl := List.mem_singleton.mp hb
    decide
  · obtain ⟨d, hd, rfl⟩ := List.mem_map.mp hb
    have hlt : d < 10 := Nat.digits_lt_base (by omega) (List.mem_reverse.mp hd)
    interval_cases d <;> decide

theorem decimalDigits_ne_nil (n : ℕ) : decimalDigits n ≠ [] := by
  unfold decimalDigits
  split
  · simp
  · rename_i hn
    simp [Nat.digits_ne_nil_iff_ne_zero.mpr hn]

/-- A number of the `int` range has at most ten digits. -/
theorem decimalDigits_length (n : ℕ) (hn : n < 2147483648) : (decimalDigits n).length ≤ 10 := by
  unfold decimalDigits
  split
  · simp
  · have hlen : (Nat.digits 10 n).length ≤ 10 :=
      (Nat.digits_length_le_iff (by omega) n).mpr (by omega)
    simpa using hlen

private theorem foldl_digits (ds : List ℕ) (hds : ∀ d ∈ ds, d < 10) :
    (ds.reverse.map fun d => UInt8.ofNat (48 + d)).foldl
      (fun acc b => acc * 10 + (b.toNat - 48)) 0 = Nat.ofDigits 10 ds := by
  induction ds with
  | nil => rfl
  | cons d ds ih =>
    have hd : d < 10 := hds d (List.mem_cons_self ..)
    have hbyte : (UInt8.ofNat (48 + d)).toNat = 48 + d :=
      UInt8.toNat_ofNat_of_lt' (by change 48 + d < 256; omega)
    have hrest := ih fun e he => hds e (List.mem_cons_of_mem _ he)
    rw [List.reverse_cons, List.map_append, List.foldl_append, hrest, Nat.ofDigits_cons]
    simp only [List.map_cons, List.map_nil, List.foldl_cons, List.foldl_nil, hbyte]
    omega

theorem written_digits (zeros n : ℕ) :
    ∀ b ∈ List.replicate zeros 48 ++ decimalDigits n, isDigit b = true := by
  intro b hb
  rcases List.mem_append.mp hb with hb | hb
  · obtain rfl := List.eq_of_mem_replicate hb
    decide
  · exact decimalDigits_digit n b hb

/-- Reading the digits back, whatever zeros stand before them. -/
theorem digitsValue_written (zeros n : ℕ) :
    digitsValue (List.replicate zeros 48 ++ decimalDigits n) = n := by
  have hzeros : ∀ k : ℕ, (List.replicate k (48 : Byte)).foldl
      (fun acc b => acc * 10 + (b.toNat - 48)) 0 = 0 := by
    intro k
    induction k with
    | zero => rfl
    | succ k ih => exact ih
  unfold digitsValue
  rw [List.takeWhile_eq_self_iff.mpr (written_digits zeros n), List.foldl_append, hzeros]
  unfold decimalDigits
  split
  · rename_i hn
    rw [hn]
    rfl
  · rw [foldl_digits _ fun d hd => Nat.digits_lt_base (by omega) hd, Nat.ofDigits_digits]

theorem strtol_of_digit (s : List Byte) (hfirst : ∀ b ∈ s.head?, isDigit b = true) :
    strtol s = min 9223372036854775807 (digitsValue s : ℤ) := by
  cases s with
  | nil => rfl
  | cons b rest =>
    have hb : isDigit b = true := hfirst b rfl
    have hspace : isSpace b = false := by
      simp only [isDigit, isSpace, Bool.and_eq_true, decide_eq_true_eq, Bool.or_eq_false_iff,
        decide_eq_false_iff_not, Bool.and_eq_false_iff, UInt8.le_iff_toNat_le,
        ← UInt8.toNat_inj] at hb ⊢
      have h48 : (48 : Byte).toNat = 48 := rfl
      have h13 : (13 : Byte).toNat = 13 := rfl
      have h32 : (32 : Byte).toNat = 32 := rfl
      omega
    have hminus : b ≠ 45 := fun h => by simp [h, isDigit] at hb
    have hplus : b ≠ 43 := fun h => by simp [h, isDigit] at hb
    simp [strtol, List.dropWhile_cons_of_neg, hspace, hminus, hplus]

theorem atoi_written (zeros n : ℕ) (hn : n < 2147483648) :
    (atoi (List.replicate zeros 48 ++ decimalDigits n)).toInt = (n : ℤ) := by
  have hfirst : ∀ b ∈ (List.replicate zeros (48 : Byte) ++ decimalDigits n).head?,
      isDigit b = true := fun b hb => written_digits zeros n b (List.mem_of_mem_head? hb)
  unfold atoi
  rw [strtol_of_digit _ hfirst, digitsValue_written]
  have hmin : min (9223372036854775807 : ℤ) n = n := by omega
  rw [hmin, Int32.toInt_ofInt]
  change (n : ℤ).bmod 4294967296 = n
  exact Int.bmod_eq_of_le (by omega) (by omega)

end NanoDB.LexerRoundTrip
