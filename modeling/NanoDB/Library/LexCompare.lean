import Mathlib.Data.Int.Notation
import Mathlib.Order.Lattice
import Mathlib.Data.List.Basic

/-!
Three-way lexicographic comparison of lists by a key, with a proper prefix below the
longer list. It is a total preorder for every key into a linear order, and two keys
give the same answer where they order the first two different elements alike.
-/
namespace LexCompare

variable {α P : Type} [LinearOrder P]

def lexCompare (key : α → P) : List α → List α → ℤ
  | [], [] => 0
  | _ :: _, [] => 1
  | [], _ :: _ => -1
  | a :: as, b :: bs =>
    if key a < key b then -1 else if key b < key a then 1 else lexCompare key as bs

section Preorder
variable (key : α → P)

theorem lexCompare_self (x : List α) : lexCompare key x x = 0 := by
  induction x with
  | nil => rfl
  | cons a x ih => rw [lexCompare, if_neg (lt_irrefl _), if_neg (lt_irrefl _), ih]

theorem lexCompare_swap (x y : List α) : lexCompare key y x = -lexCompare key x y := by
  induction x generalizing y with
  | nil => cases y <;> rfl
  | cons a x ih =>
    cases y with
    | nil => rfl
    | cons b y =>
      simp only [lexCompare]
      rcases lt_trichotomy (key a) (key b) with hlt | heq | hgt
      · rw [if_neg hlt.not_gt, if_pos hlt, if_pos hlt]
        rfl
      · rw [heq, if_neg (lt_irrefl _), ih y]
        simp
      · rw [if_pos hgt, if_neg hgt.not_gt, if_pos hgt]

theorem lexCompare_trans (x y z : List α) (hxy : lexCompare key x y ≤ 0)
    (hyz : lexCompare key y z ≤ 0) : lexCompare key x z ≤ 0 := by
  induction x generalizing y z with
  | nil => cases z <;> simp [lexCompare]
  | cons a x ih =>
    cases y with
    | nil => simp [lexCompare] at hxy
    | cons b y =>
      cases z with
      | nil => simp [lexCompare] at hyz
      | cons c z =>
        simp only [lexCompare] at hxy hyz ⊢
        split at hxy
        · rename_i hab
          have hbc : key b ≤ key c := by
            split at hyz
            · rename_i hlt
              exact hlt.le
            · split at hyz
              · omega
              · rename_i hcb
                exact not_lt.mp hcb
          rw [if_pos (hab.trans_le hbc)]
          omega
        · split at hxy
          · omega
          · rename_i hab hba
            have heq := le_antisymm (not_lt.mp hba) (not_lt.mp hab)
            rw [heq]
            split
            · omega
            · rename_i hbc
              rw [if_neg hbc] at hyz
              split
              · rename_i hcb
                rw [if_pos hcb] at hyz
                omega
              · rename_i hcb
                rw [if_neg hcb] at hyz
                exact ih y z hxy hyz

end Preorder

/-- The elements at the first position where both lists have one and these differ. -/
def firstDifference [DecidableEq α] : List α → List α → Option (α × α)
  | a :: as, b :: bs => if a = b then firstDifference as bs else some (a, b)
  | _, _ => none

/-- The first difference decides under a key that tells its elements apart. -/
theorem lexCompare_of_firstDifference [DecidableEq α] (key : α → P) {x y : List α} {a b : α}
    (h : firstDifference x y = some (a, b)) (hne : key a ≠ key b) :
    lexCompare key x y = if key a < key b then -1 else 1 := by
  induction x generalizing y with
  | nil => simp [firstDifference] at h
  | cons c x ih =>
    cases y with
    | nil => simp [firstDifference] at h
    | cons d y =>
      rw [firstDifference] at h
      split at h
      · rename_i heq
        rw [heq, lexCompare, if_neg (lt_irrefl _), if_neg (lt_irrefl _)]
        exact ih h
      · obtain ⟨rfl, rfl⟩ := Prod.mk.inj (Option.some.inj h)
        rw [lexCompare]
        split
        · rfl
        · rename_i hlt
          rw [if_pos (lt_of_le_of_ne (not_lt.mp hlt) hne.symm)]

/-- Under an injective key only equal lists compare as equal. -/
theorem lexCompare_eq_zero_iff {key : α → P} (hkey : Function.Injective key) (x y : List α) :
    lexCompare key x y = 0 ↔ x = y := by
  constructor
  · intro h
    induction x generalizing y with
    | nil =>
      cases y with
      | nil => rfl
      | cons b y => simp [lexCompare] at h
    | cons a x ih =>
      cases y with
      | nil => simp [lexCompare] at h
      | cons b y =>
        rw [lexCompare] at h
        split at h
        · omega
        · split at h
          · omega
          · rename_i hab hba
            rw [hkey (le_antisymm (not_lt.mp hba) (not_lt.mp hab)), ih y h]
  · rintro rfl
    exact lexCompare_self key x

theorem lexCompare_congr [DecidableEq α] {P' : Type} [LinearOrder P'] (key : α → P)
    (key' : α → P') (x y : List α)
    (h : ∀ a b, firstDifference x y = some (a, b) → key a ≠ key b ∧
      (key a < key b ↔ key' a < key' b) ∧ (key b < key a ↔ key' b < key' a)) :
    lexCompare key x y = lexCompare key' x y := by
  induction x generalizing y with
  | nil => cases y <;> rfl
  | cons a x ih =>
    cases y with
    | nil => rfl
    | cons b y =>
      simp only [lexCompare]
      by_cases hab : a = b
      · subst b
        rw [if_neg (lt_irrefl _), if_neg (lt_irrefl _), if_neg (lt_irrefl _), if_neg (lt_irrefl _)]
        apply ih
        intro a' b' hdiff
        exact h a' b' (by rw [firstDifference, if_pos rfl]; exact hdiff)
      · obtain ⟨hne, hlt, hgt⟩ := h a b (by rw [firstDifference, if_neg hab])
        rcases lt_or_gt_of_ne hne with hless | hmore
        · rw [if_pos hless, if_pos (hlt.mp hless)]
        · rw [if_neg hmore.not_gt, if_pos hmore, if_neg (hgt.mp hmore).not_gt,
            if_pos (hgt.mp hmore)]

end LexCompare
