import Mathlib.Data.List.Basic
import Mathlib.Data.Nat.Basic
import Mathlib.Algebra.Order.Group.Nat

/-!
Reading lines through a buffer of fixed size. One read takes the input through the next
newline, but no more than the buffer holds, so a longer line comes in several pieces. Any
input is lines that end with a newline and a last one that does not.
-/
namespace LineChunks

variable {A : Type} [DecidableEq A] (nl : A) (n : ℕ)

/-- What one read returns and what it leaves; at the end of the input it returns nothing. -/
def nextLine (input : List A) : Option (List A × List A) :=
  if input = [] then none
  else
    let k := min n (input.findIdx (fun a => decide (a = nl)) + 1)
    some (input.take k, input.drop k)

def readAll : ℕ → List A → List (List A)
  | 0, _ => []
  | fuel + 1, input =>
    match nextLine nl n input with
    | none => []
    | some (chunk, rest) => chunk :: readAll fuel rest

omit [DecidableEq A] in
/-- A list in pieces of `n`, the last one shorter. -/
def pieces (l : List A) : List (List A) :=
  (List.range ((l.length + n - 1) / n)).map fun i => (l.drop (i * n)).take n

variable {nl n}

omit [DecidableEq A] in
theorem pieces_nil (hn : 0 < n) : pieces n ([] : List A) = [] := by
  have hzero : (n - 1) / n = 0 := Nat.div_eq_of_lt (by omega)
  simp [pieces, hzero]

omit [DecidableEq A] in
theorem pieces_cons (hn : 0 < n) {l : List A} (hl : l ≠ []) :
    pieces n l = l.take n :: pieces n (l.drop n) := by
  have hpos : 0 < l.length := List.length_pos_iff.mpr hl
  have hcount : (l.length + n - 1) / n = ((l.drop n).length + n - 1) / n + 1 := by
    rw [List.length_drop, ← Nat.add_div_right _ hn]
    by_cases hle : n ≤ l.length
    · congr 1
      omega
    · have hone : (l.length + n - 1) / n = 1 := Nat.div_eq_of_lt_le (by omega) (by omega)
      have hone' : (l.length - n + n - 1 + n) / n = 1 := Nat.div_eq_of_lt_le (by omega) (by omega)
      rw [hone, hone']
  rw [pieces, hcount, List.range_succ_eq_map, List.map_cons, List.map_map, Nat.zero_mul,
    List.drop_zero, pieces]
  congr 1
  apply List.map_congr_left
  intro i _
  rw [Function.comp_apply, List.drop_drop, Nat.succ_mul, Nat.add_comm]

omit [DecidableEq A] in
theorem pieces_short {l : List A} (hl : l ≠ []) (hn : l.length ≤ n) : pieces n l = [l] := by
  have hpos : 0 < l.length := List.length_pos_iff.mpr hl
  rw [pieces_cons (by omega) hl, List.take_of_length_le hn, List.drop_of_length_le hn,
    pieces_nil (by omega)]

theorem findIdx_line {l : List A} (hl : nl ∉ l) (rest : List A) :
    (l ++ nl :: rest).findIdx (fun a => decide (a = nl)) = l.length := by
  induction l with
  | nil => simp [List.findIdx_cons]
  | cons a l ih =>
    rw [List.mem_cons, not_or] at hl
    rw [List.cons_append, List.findIdx_cons, ih hl.2]
    simp [Ne.symm hl.1]

theorem findIdx_last {l : List A} (hl : nl ∉ l) :
    l.findIdx (fun a => decide (a = nl)) = l.length := by
  rw [List.findIdx_eq_length]
  intro a ha
  simpa using fun heq : a = nl => hl (heq ▸ ha)

/-- A line is read in pieces. -/
theorem readAll_line (hn : 0 < n) {l : List A} (hl : nl ∉ l) (rest : List A) (fuel : ℕ)
    (hfuel : (l ++ nl :: rest).length ≤ fuel) : ∃ fuel', rest.length ≤ fuel' ∧
      readAll nl n fuel (l ++ nl :: rest) =
        pieces n (l ++ [nl]) ++ readAll nl n fuel' rest := by
  induction fuel generalizing l with
  | zero => simp at hfuel
  | succ fuel ih =>
    rw [List.length_append, List.length_cons] at hfuel
    have hnext : nextLine nl n (l ++ nl :: rest) =
        some ((l ++ nl :: rest).take (min n (l.length + 1)),
          (l ++ nl :: rest).drop (min n (l.length + 1))) := by
      rw [nextLine, if_neg (by simp), findIdx_line hl]
    rw [readAll, hnext]
    dsimp only
    have hassoc : l ++ nl :: rest = (l ++ [nl]) ++ rest := by simp
    by_cases hfits : l.length + 1 ≤ n
    · refine ⟨fuel, by omega, ?_⟩
      rw [Nat.min_eq_right hfits, hassoc, List.take_left' (by simp), List.drop_left' (by simp),
        pieces_short (by simp) (by simpa using hfits)]
      rfl
    · obtain ⟨fuel', hrest, hpieces⟩ := ih (l := l.drop n) (fun h => hl (List.mem_of_mem_drop h))
        (by rw [List.length_append, List.length_cons, List.length_drop]; omega)
      refine ⟨fuel', hrest, ?_⟩
      rw [Nat.min_eq_left (by omega), List.drop_append_of_le_length (by omega), hpieces,
        List.take_append_of_le_length (by omega), pieces_cons hn (l := l ++ [nl]) (by simp),
        List.take_append_of_le_length (by omega), List.drop_append_of_le_length (by omega)]
      rfl

theorem readAll_last (hn : 0 < n) {l : List A} (hl : nl ∉ l) (fuel : ℕ) (hfuel : l.length ≤ fuel) :
    readAll nl n fuel l = pieces n l := by
  induction fuel generalizing l with
  | zero =>
    rw [List.length_eq_zero_iff.mp (Nat.le_zero.mp hfuel), pieces_nil hn]
    rfl
  | succ fuel ih =>
    by_cases hnil : l = []
    · rw [hnil, pieces_nil hn]
      rfl
    · have hpos : 0 < l.length := List.length_pos_iff.mpr hnil
      have htake : l.take (min n (l.length + 1)) = l.take n := by
        rw [List.take_eq_take_iff]
        omega
      have hdrop : l.drop (min n (l.length + 1)) = l.drop n := by
        rw [List.drop_eq_drop_iff]
        omega
      rw [readAll, nextLine, if_neg hnil, findIdx_last hl, pieces_cons hn hnil]
      dsimp only
      rw [htake, hdrop, ih (fun h => hl (List.mem_of_mem_drop h))
        (by rw [List.length_drop]; omega)]

/-- Read to its end, an input comes in the pieces of its lines. -/
theorem readAll_lines (hn : 0 < n) (lines : List (List A)) (last : List A)
    (hlines : ∀ l ∈ lines, nl ∉ l) (hlast : nl ∉ last) (fuel : ℕ)
    (hfuel : (lines.flatMap (· ++ [nl]) ++ last).length ≤ fuel) :
    readAll nl n fuel (lines.flatMap (· ++ [nl]) ++ last) =
      lines.flatMap (fun l => pieces n (l ++ [nl])) ++ pieces n last := by
  induction lines generalizing fuel with
  | nil => exact readAll_last hn hlast fuel hfuel
  | cons l lines ih =>
    have hassoc : (l :: lines).flatMap (· ++ [nl]) ++ last =
        l ++ nl :: (lines.flatMap (· ++ [nl]) ++ last) := by simp
    rw [hassoc] at hfuel ⊢
    obtain ⟨fuel', hrest, hread⟩ :=
      readAll_line hn (hlines l (by simp)) (lines.flatMap (· ++ [nl]) ++ last) fuel hfuel
    rw [hread, ih (fun l' hl' => hlines l' (by simp [hl'])) fuel' hrest, List.flatMap_cons,
      List.append_assoc]

end LineChunks
