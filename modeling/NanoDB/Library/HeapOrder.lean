import Mathlib.Logic.Equiv.Basic
import Mathlib.Order.Lattice
import Mathlib.Data.Nat.Notation

/-!
The order of a binary min-heap laid out in an array, on the keys `f` of the first `n`
positions. `UpHeap` and `DownHeap` allow one position to be out of order, against its
parent or against its children; swapping it with its parent or its smallest child
moves the defect one level on.
-/
namespace HeapOrder

variable {P : Type} [LinearOrder P]

def parent (i : ℕ) : ℕ := (i - 1) / 2

theorem parent_lt {i : ℕ} (h : 0 < i) : parent i < i := by
  unfold parent
  omega

theorem parent_eq_iff {i j : ℕ} (h : 0 < j) : parent j = i ↔ j = 2 * i + 1 ∨ j = 2 * i + 2 := by
  unfold parent
  omega

def IsHeap (f : ℕ → P) (n : ℕ) : Prop := ∀ i, 0 < i → i < n → f (parent i) ≤ f i

/-- The root has a smallest key. -/
theorem IsHeap.root_le {f : ℕ → P} {n : ℕ} (h : IsHeap f n) (i : ℕ) (hi : i < n) : f 0 ≤ f i := by
  induction i using Nat.strongRecOn with
  | ind i ih =>
    rcases Nat.eq_zero_or_pos i with rfl | hpos
    · exact le_refl _
    · have hparent := parent_lt hpos
      exact (ih (parent i) hparent (by omega)).trans (h i hpos hi)

/-- Position `i` may have a smaller key than its parent. -/
structure UpHeap (f : ℕ → P) (n i : ℕ) : Prop where
  others : ∀ j, 0 < j → j < n → j ≠ i → f (parent j) ≤ f j
  skip : 0 < i → ∀ j, 0 < j → j < n → parent j = i → f (parent i) ≤ f j

/-- Position `i` may have a larger key than its children. -/
structure DownHeap (f : ℕ → P) (n i : ℕ) : Prop where
  others : ∀ j, 0 < j → j < n → parent j ≠ i → f (parent j) ≤ f j
  skip : 0 < i → ∀ j, 0 < j → j < n → parent j = i → f (parent i) ≤ f j

section Swap
variable {f : ℕ → P} {n i : ℕ}

theorem UpHeap.stop (h : UpHeap f n i) (hstop : 0 < i → f (parent i) ≤ f i) : IsHeap f n := by
  intro j hj hn
  by_cases hji : j = i
  · subst j
    exact hstop hj
  · exact h.others j hj hn hji

/-- The smaller key moves up to the parent's position. -/
theorem UpHeap.swap (h : UpHeap f n i) (hpos : 0 < i) (hn : i < n) (hlt : f i < f (parent i)) :
    UpHeap (f ∘ Equiv.swap (parent i) i) n (parent i) := by
  have hp := parent_lt hpos
  have hup : ∀ j, 0 < j → j < n → j ≠ i → parent j = parent i → f (parent i) ≤ f j := by
    intro j hj hjn hji hpar
    rw [← hpar]
    exact h.others j hj hjn hji
  have hkey : ∀ j, j ≠ i → j ≠ parent i → (f ∘ Equiv.swap (parent i) i) j = f j := by
    intro j hji hjp
    exact congrArg f (Equiv.swap_apply_of_ne_of_ne hjp hji)
  have hself : (f ∘ Equiv.swap (parent i) i) i = f (parent i) :=
    congrArg f (Equiv.swap_apply_right _ _)
  have hparent : (f ∘ Equiv.swap (parent i) i) (parent i) = f i :=
    congrArg f (Equiv.swap_apply_left _ _)
  constructor
  · intro j hj hjn hjp
    by_cases hji : j = i
    · rw [hji, hself, hparent]
      exact hlt.le
    · rw [hkey j hji hjp]
      by_cases hsib : parent j = parent i
      · rw [hsib, hparent]
        exact hlt.le.trans (hup j hj hjn hji hsib)
      · by_cases hchild : parent j = i
        · rw [hchild, hself]
          exact h.skip hpos j hj hjn hchild
        · rw [hkey _ hchild hsib]
          exact h.others j hj hjn hji
  · intro hppos j hj hjn hpar
    have hpp := parent_lt hppos
    have habove : f (parent (parent i)) ≤ f (parent i) :=
      h.others (parent i) hppos (by omega) (by omega)
    rw [hkey _ (by omega) (by omega)]
    by_cases hji : j = i
    · rw [hji, hself]
      exact habove
    · have hne : j ≠ parent i := by
        intro heq
        rw [heq] at hpar
        omega
      rw [hkey j hji hne]
      exact habove.trans (hup j hj hjn hji hpar)

theorem DownHeap.stop (h : DownHeap f n i)
    (hstop : ∀ j, 0 < j → j < n → parent j = i → f i ≤ f j) : IsHeap f n := by
  intro j hj hn
  by_cases hpar : parent j = i
  · rw [hpar]
    exact hstop j hj hn hpar
  · exact h.others j hj hn hpar

/-- The larger key moves down to the position of a smallest child. -/
theorem DownHeap.swap {c : ℕ} (h : DownHeap f n i) (hpos : 0 < c) (hn : c < n)
    (hc : parent c = i) (hlt : f c < f i)
    (hmin : ∀ j, 0 < j → j < n → parent j = i → f c ≤ f j) :
    DownHeap (f ∘ Equiv.swap i c) n c := by
  have hic : i < c := by
    rw [← hc]
    exact parent_lt hpos
  have hkey : ∀ j, j ≠ i → j ≠ c → (f ∘ Equiv.swap i c) j = f j := by
    intro j hji hjc
    exact congrArg f (Equiv.swap_apply_of_ne_of_ne hji hjc)
  have hself : (f ∘ Equiv.swap i c) i = f c := congrArg f (Equiv.swap_apply_left _ _)
  have hchild : (f ∘ Equiv.swap i c) c = f i := congrArg f (Equiv.swap_apply_right _ _)
  constructor
  · intro j hj hjn hpar
    by_cases hji : parent j = i
    · rw [hji, hself]
      by_cases hjc : j = c
      · rw [hjc, hchild]
        exact hlt.le
      · have hne : j ≠ i := by
          intro heq
          have hless := parent_lt hj
          omega
        rw [hkey j hne hjc]
        exact hmin j hj hjn hji
    · rw [hkey _ hji hpar]
      by_cases hj' : j = i
      · rw [hj', hself]
        have hipos : 0 < i := by omega
        exact h.skip hipos c hpos hn hc
      · by_cases hjc : j = c
        · rw [hjc] at hji
          contradiction
        · rw [hkey j hj' hjc]
          exact h.others j hj hjn hji
  · intro _ j hj hjn hpar
    have hless := parent_lt hj
    rw [hc, hself, hkey j (by omega) (by omega), ← hpar]
    exact h.others j hj hjn (by omega)

end Swap

end HeapOrder
