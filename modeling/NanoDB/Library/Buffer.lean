import Mathlib.Data.List.Basic
import Mathlib.Data.List.GetD
import Mathlib.Data.List.Induction
import Mathlib.Data.Nat.Notation

/-!
Fixed-size buffers as functions on their positions. A read outside the buffer
gives the default value and a write is cut at the end of the buffer; the
results below say when a write is seen by a later read and when it is not.
-/
namespace Buffer

variable {β : Type} {n : ℕ}

def write (b : Fin n → β) (off : ℕ) (bs : List β) : Fin n → β :=
  fun i => if off ≤ i.val then (bs[i.val - off]?).getD (b i) else b i

theorem write_nil (b : Fin n → β) (off : ℕ) : write b off [] = b := by
  funext i
  simp [write]

theorem write_append (b : Fin n → β) (off : ℕ) (xs ys : List β) :
    write b off (xs ++ ys) = write (write b off xs) (off + xs.length) ys := by
  funext i
  unfold write
  by_cases hlow : off ≤ i.val
  · by_cases hx : i.val - off < xs.length
    · have hnot : ¬ off + xs.length ≤ i.val := by omega
      simp [hlow, hnot, List.getElem?_append_left hx]
    · have hle : off + xs.length ≤ i.val := by omega
      have hsub : i.val - off - xs.length = i.val - (off + xs.length) := by omega
      have hnone : xs[i.val - off]? = none := List.getElem?_eq_none (by omega)
      simp [hlow, hle, List.getElem?_append_right (show xs.length ≤ i.val - off by omega),
        hsub, hnone]
  · have hnot : ¬ off + xs.length ≤ i.val := by omega
    simp [hlow, hnot]

def writeEach (b : Fin n → β) (offs : List ℕ) (bs : List β) : Fin n → β :=
  offs.foldl (fun b off => write b off bs) b

theorem writeEach_concat (b : Fin n → β) (offs : List ℕ) (off : ℕ) (bs : List β) :
    writeEach b (offs ++ [off]) bs = write (writeEach b offs bs) off bs := by
  simp [writeEach, List.foldl_append]

variable [Inhabited β]

def read (b : Fin n → β) (i : ℕ) : β := if h : i < n then b ⟨i, h⟩ else default

def slice (b : Fin n → β) (off len : ℕ) : List β := (List.range len).map fun j => read b (off + j)

theorem ext_read {b c : Fin n → β} (h : ∀ i, i < n → read b i = read c i) : b = c := by
  funext i
  have hi := h i.val i.isLt
  simpa [read] using hi

theorem read_write_of_lt (b : Fin n → β) (off i : ℕ) (bs : List β) (h : i < off) :
    read (write b off bs) i = read b i := by
  have hoff : ¬ off ≤ i := by omega
  simp [read, write, hoff]

theorem read_write_of_ge (b : Fin n → β) (off i : ℕ) (bs : List β) (h : off + bs.length ≤ i) :
    read (write b off bs) i = read b i := by
  have hnone : bs[i - off]? = none := List.getElem?_eq_none (by omega)
  simp [read, write, hnone]

theorem read_write (b : Fin n → β) (off j : ℕ) (bs : List β) (hj : j < bs.length)
    (hn : off + j < n) : read (write b off bs) (off + j) = bs[j] := by
  have hsub : off + j - off = j := by omega
  simp [read, write, hn, hsub, List.getElem?_eq_getElem hj]

theorem slice_length (b : Fin n → β) (off len : ℕ) : (slice b off len).length = len := by
  simp [slice]

theorem slice_add (b : Fin n → β) (off len len' : ℕ) :
    slice b off (len + len') = slice b off len ++ slice b (off + len) len' := by
  simp [slice, List.range_add, Nat.add_assoc, Function.comp_def]

theorem slice_write_self (b : Fin n → β) (off : ℕ) (bs : List β) (h : off + bs.length ≤ n) :
    slice (write b off bs) off bs.length = bs := by
  apply List.ext_getElem
  · exact slice_length _ _ _
  · intro j hj hj'
    simp only [slice, List.getElem_map, List.getElem_range]
    exact read_write b off j bs hj' (by omega)

/-- A write does not change a slice that it does not overlap. -/
theorem slice_write_disjoint (b : Fin n → β) (off len at' : ℕ) (bs : List β)
    (h : off + len ≤ at' ∨ at' + bs.length ≤ off) :
    slice (write b at' bs) off len = slice b off len := by
  unfold slice
  apply List.map_congr_left
  intro j hj
  have hlt : j < len := List.mem_range.mp hj
  rcases h with h | h
  · exact read_write_of_lt b at' (off + j) bs (by omega)
  · exact read_write_of_ge b at' (off + j) bs (by omega)

theorem read_eq_of_slice_eq {b c : Fin n → β} {off off' len : ℕ}
    (h : slice b off len = slice c off' len) (j : ℕ) (hj : j < len) :
    read b (off + j) = read c (off' + j) := by
  have hb : (slice b off len)[j]? = (slice c off' len)[j]? := by rw [h]
  simpa [slice, hj] using hb

/-- Inside a block that was copied from another buffer is what was there. -/
theorem slice_write_slice (b c : Fin n → β) (off src size at' len : ℕ) (hlen : at' + len ≤ size)
    (hfit : off + size ≤ n) :
    slice (write b off (slice c src size)) (off + at') len = slice c (src + at') len := by
  unfold slice
  apply List.map_congr_left
  intro j hj
  have hlt := List.mem_range.mp hj
  have hin : at' + j < (slice c src size).length := by
    rw [slice_length]
    omega
  rw [Nat.add_assoc, Nat.add_assoc]
  refine (read_write b off (at' + j) (slice c src size) hin (by omega)).trans ?_
  simp [slice]

/-- Writing what is there already changes nothing. -/
theorem write_slice (b : Fin n → β) (off : ℕ) (bs : List β) (h : slice b off bs.length = bs) :
    write b off bs = b := by
  apply ext_read
  intro i hi
  by_cases hin : off ≤ i ∧ i < off + bs.length
  · obtain ⟨j, rfl⟩ := Nat.exists_eq_add_of_le hin.1
    have hj : j < bs.length := by omega
    have hbyte := congrArg (fun l => l[j]?) h
    rw [read_write b off j bs hj hi]
    simp only [slice, List.getElem?_map, List.getElem?_range hj, Option.map_some,
      List.getElem?_eq_getElem hj, Option.some.injEq] at hbyte
    exact hbyte.symm
  · by_cases hlow : i < off
    · exact read_write_of_lt b off i bs hlow
    · exact read_write_of_ge b off i bs (by omega)

/-- A block that is there already but for its middle is as good as its middle. -/
theorem write_patch (b : Fin n → β) (off : ℕ) (xs ys zs : List β) (hxs : slice b off xs.length = xs)
    (hzs : slice b (off + xs.length + ys.length) zs.length = zs) :
    write b off (xs ++ ys ++ zs) = write b (off + xs.length) ys := by
  have hend : off + (xs ++ ys).length = off + xs.length + ys.length := by
    rw [List.length_append, Nat.add_assoc]
  rw [write_append, write_append, write_slice b off xs hxs, hend]
  apply write_slice
  rw [slice_write_disjoint b _ _ _ _ (Or.inr (Nat.le_refl _))]
  exact hzs

/-- What lies in none of the blocks stays. -/
theorem read_writeEach_outside (b : Fin n → β) (offs : List ℕ) (bs : List β) (i : ℕ)
    (h : ∀ off ∈ offs, i < off ∨ off + bs.length ≤ i) :
    read (writeEach b offs bs) i = read b i := by
  induction offs using List.reverseRecOn with
  | nil => rfl
  | append_singleton offs off ih =>
    have hrest := ih fun off' hoff' => h off' (List.mem_append_left _ hoff')
    rw [writeEach_concat, ← hrest]
    rcases h off (by simp) with hlt | hge
    · exact read_write_of_lt _ _ _ _ hlt
    · exact read_write_of_ge _ _ _ _ hge

theorem slice_writeEach_outside (b : Fin n → β) (offs : List ℕ) (bs : List β) (at' len : ℕ)
    (h : ∀ off ∈ offs, at' + len ≤ off ∨ off + bs.length ≤ at') :
    slice (writeEach b offs bs) at' len = slice b at' len := by
  unfold slice
  apply List.map_congr_left
  intro j hj
  have hlt := List.mem_range.mp hj
  apply read_writeEach_outside
  intro off hoff
  have hside := h off hoff
  omega

/-- Blocks that do not overlap are all there in the end. -/
theorem slice_writeEach (b : Fin n → β) (offs : List ℕ) (bs : List β)
    (hdisjoint : ∀ off ∈ offs, ∀ off' ∈ offs, off ≠ off' →
      off + bs.length ≤ off' ∨ off' + bs.length ≤ off)
    (hfit : ∀ off ∈ offs, off + bs.length ≤ n) (off : ℕ) (hoff : off ∈ offs) :
    slice (writeEach b offs bs) off bs.length = bs := by
  induction offs using List.reverseRecOn with
  | nil => simp at hoff
  | append_singleton offs last ih =>
    rw [writeEach_concat]
    by_cases hlast : off = last
    · rw [hlast]
      exact slice_write_self _ _ _ (hfit last (by simp))
    · have hmem : off ∈ offs := by simpa [hlast] using hoff
      rw [slice_write_disjoint _ _ _ _ _ (hdisjoint off hoff last (by simp) hlast)]
      exact ih (fun o ho o' ho' => hdisjoint o (List.mem_append_left _ ho) o'
        (List.mem_append_left _ ho')) (fun o ho => hfit o (List.mem_append_left _ ho)) hmem

end Buffer
