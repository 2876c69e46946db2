import Mathlib.Data.Nat.Fib.Basic
import Mathlib.Data.Nat.Log
import NanoDB.AVLTree

/-!
The AVL invariant. `Balanced` is stated with the stored heights that the routines
read; it implies that these are the true ones. One lemma describes `balance` on a node
whose subtrees differ by at most two levels, and both update routines change the
height of a balanced tree by at most one level.
-/
namespace NanoDB

open CTypes

variable {T : Type}

namespace AVLNode

def trueHeight : AVLNode T → ℕ
  | nil => 0
  | node _ _ _ l r => 1 + max l.trueHeight r.trueHeight

def HeightsExact : AVLNode T → Prop
  | nil => True
  | node _ _ h l r => h = 1 + max l.trueHeight r.trueHeight ∧ l.HeightsExact ∧ r.HeightsExact

def FactorsOk : AVLNode T → Prop
  | nil => True
  | node k v h l r =>
    ((node k v h l r).balanceFactor = -1 ∨ (node k v h l r).balanceFactor = 0 ∨
      (node k v h l r).balanceFactor = 1) ∧ l.FactorsOk ∧ r.FactorsOk

def Balanced : AVLNode T → Prop
  | nil => True
  | node _ _ h l r => l.Balanced ∧ r.Balanced ∧ h = 1 + max l.height r.height ∧
      l.height ≤ r.height + 1 ∧ r.height ≤ l.height + 1

theorem Balanced.height_eq {n : AVLNode T} (h : n.Balanced) : n.height = n.trueHeight := by
  induction n with
  | nil => rfl
  | node k v ht l r ihl ihr =>
    obtain ⟨hl, hr, hheight, -, -⟩ := h
    rw [height, trueHeight, hheight, ihl hl, ihr hr]

theorem Balanced.heightsExact {n : AVLNode T} (h : n.Balanced) : n.HeightsExact := by
  induction n with
  | nil => trivial
  | node k v ht l r ihl ihr =>
    obtain ⟨hl, hr, hheight, -, -⟩ := h
    rw [hl.height_eq, hr.height_eq] at hheight
    exact ⟨hheight, ihl hl, ihr hr⟩

theorem Balanced.factorsOk {n : AVLNode T} (h : n.Balanced) : n.FactorsOk := by
  induction n with
  | nil => trivial
  | node k v ht l r ihl ihr =>
    obtain ⟨hl, hr, -, hlr, hrl⟩ := h
    refine ⟨?_, ihl hl, ihr hr⟩
    simp only [balanceFactor]
    omega

/-- Two consecutive Fibonacci numbers bound the two subtrees. -/
theorem Balanced.fib_le {n : AVLNode T} (h : n.Balanced) :
    Nat.fib (n.height + 2) ≤ n.entries.length + 1 := by
  induction n with
  | nil => simp [height, entries]
  | node k v ht l r ihl ihr =>
    obtain ⟨hl, hr, hheight, hlr, hrl⟩ := h
    have hl := ihl hl
    have hr := ihr hr
    have hsplit : Nat.fib (max l.height r.height + 3) =
        Nat.fib (max l.height r.height + 1) + Nat.fib (max l.height r.height + 2) :=
      Nat.fib_add_two
    have hindex : ht + 2 = max l.height r.height + 3 := by omega
    rw [height, hindex, hsplit]
    simp only [entries, List.length_append, List.length_cons]
    rcases le_total l.height r.height with hle | hle
    · have hmono : Nat.fib (r.height + 1) ≤ Nat.fib (l.height + 2) := Nat.fib_mono (by omega)
      rw [max_eq_right hle]
      omega
    · have hmono : Nat.fib (l.height + 1) ≤ Nat.fib (r.height + 2) := Nat.fib_mono (by omega)
      rw [max_eq_left hle]
      omega

section Rotations

theorem updateHeight_node (k : Int32) (v : T) (h : ℕ) (l r : AVLNode T) :
    updateHeight (node k v h l r) = node k v (1 + max l.height r.height) l r := by
  rw [updateHeight]
  split <;> congr 2 <;> omega

/-- The result `m` is balanced and has the larger height of the two subtrees or one more. -/
def Repaired (m l r : AVLNode T) : Prop :=
  m.Balanced ∧ max l.height r.height ≤ m.height ∧ m.height ≤ 1 + max l.height r.height

theorem repaired_leftHeavy {l r : AVLNode T} (k : Int32) (v : T) (h : ℕ) (hl : l.Balanced)
    (hr : r.Balanced) (hheavy : l.height = r.height + 2) :
    Repaired (rotateRight (node k v h (if l.balanceFactor < 0 then rotateLeft l else l) r))
      l r := by
  cases l with
  | nil => simp at hheavy
  | node kl vl hl' ll lr =>
    obtain ⟨hll, hlr, hheight, hbal, hbal'⟩ := hl
    simp only [height_node] at hheavy
    by_cases hinner : (node kl vl hl' ll lr).balanceFactor < 0
    · rw [if_pos hinner]
      rw [balanceFactor_node] at hinner
      cases lr with
      | nil => simp only [height_nil] at hinner; omega
      | node km vm hm a b =>
        obtain ⟨ha, hb, hmheight, hmbal, hmbal'⟩ := hlr
        simp only [height_node] at hheight hbal hbal' hinner
        simp only [Repaired, rotateLeft, rotateRight, updateHeight_node, Balanced, height_node]
        refine ⟨⟨⟨hll, ha, trivial, ?_⟩, ⟨hb, hr, trivial, ?_⟩, trivial, ?_⟩, ?_⟩ <;> omega
    · rw [if_neg hinner]
      rw [balanceFactor_node] at hinner
      simp only [Repaired, rotateRight, updateHeight_node, Balanced, height_node]
      refine ⟨⟨hll, ⟨hlr, hr, trivial, ?_⟩, trivial, ?_⟩, ?_⟩ <;> omega

theorem repaired_rightHeavy {l r : AVLNode T} (k : Int32) (v : T) (h : ℕ) (hl : l.Balanced)
    (hr : r.Balanced) (hheavy : r.height = l.height + 2) :
    Repaired (rotateLeft (node k v h l (if r.balanceFactor > 0 then rotateRight r else r)))
      l r := by
  cases r with
  | nil => simp at hheavy
  | node kr vr hr' rl rr =>
    obtain ⟨hrl, hrr, hheight, hbal, hbal'⟩ := hr
    simp only [height_node] at hheavy
    by_cases hinner : (node kr vr hr' rl rr).balanceFactor > 0
    · rw [if_pos hinner]
      rw [balanceFactor_node] at hinner
      cases rl with
      | nil => simp only [height_nil] at hinner; omega
      | node km vm hm a b =>
        obtain ⟨ha, hb, hmheight, hmbal, hmbal'⟩ := hrl
        simp only [height_node] at hheight hbal hbal' hinner
        simp only [Repaired, rotateLeft, rotateRight, updateHeight_node, Balanced, height_node]
        refine ⟨⟨⟨hl, ha, trivial, ?_⟩, ⟨hb, hrr, trivial, ?_⟩, trivial, ?_⟩, ?_⟩ <;> omega
    · rw [if_neg hinner]
      rw [balanceFactor_node] at hinner
      simp only [Repaired, rotateLeft, updateHeight_node, Balanced, height_node]
      refine ⟨⟨⟨hl, hrl, trivial, ?_⟩, hrr, trivial, ?_⟩, ?_⟩ <;> omega

/-- Subtrees that differ by at most two levels are repaired; where they differ by at most
one, only the stored height changes. -/
theorem balance_spec {l r : AVLNode T} (k : Int32) (v : T) (h : ℕ) (hl : l.Balanced)
    (hr : r.Balanced) (hlr : l.height ≤ r.height + 2) (hrl : r.height ≤ l.height + 2) :
    Repaired (balance (node k v h l r)) l r ∧
      (l.height ≤ r.height + 1 → r.height ≤ l.height + 1 →
        (balance (node k v h l r)).height = 1 + max l.height r.height) := by
  rw [balance, updateHeight_node, rebalance]
  split
  · rename_i hleft
    rw [balanceFactor_node] at hleft
    exact ⟨repaired_leftHeavy k v _ hl hr (by omega), by omega⟩
  · split
    · rename_i hright
      rw [balanceFactor_node] at hright
      exact ⟨repaired_rightHeavy k v _ hl hr (by omega), by omega⟩
    · rename_i hleft hright
      rw [balanceFactor_node] at hleft hright
      simp only [Repaired, Balanced, height_node]
      exact ⟨⟨⟨hl, hr, trivial, by omega, by omega⟩, by omega, le_refl _⟩, fun _ _ => trivial⟩

theorem insert_balanced {n : AVLNode T} (h : n.Balanced) (key : Int32) (val : T) (size : ℤ) :
    (n.insert key val size).1.Balanced ∧ n.height ≤ (n.insert key val size).1.height ∧
      (n.insert key val size).1.height ≤ n.height + 1 := by
  induction n with
  | nil => simp [insert, Balanced]
  | node k v ht l r ihl ihr =>
    obtain ⟨hl, hr, hheight, hlr, hrl⟩ := h
    rw [insert]
    dsimp only
    split
    · obtain ⟨hnew, hlow, hup⟩ := ihl hl
      obtain ⟨⟨hbal, hmin, hmax⟩, hexact⟩ :=
        balance_spec k v ht hnew hr (by omega) (by omega)
      refine ⟨hbal, ?_⟩
      simp only [height_node]
      omega
    · split
      · obtain ⟨hnew, hlow, hup⟩ := ihr hr
        obtain ⟨⟨hbal, hmin, hmax⟩, hexact⟩ :=
          balance_spec k v ht hl hnew (by omega) (by omega)
        refine ⟨hbal, ?_⟩
        simp only [height_node]
        omega
      · exact ⟨⟨hl, hr, hheight, hlr, hrl⟩, le_refl _, Nat.le_succ _⟩

theorem height_of_isNull {n : AVLNode T} (h : n.isNull = true) : n.height = 0 := by
  cases n with
  | nil => rfl
  | node k v h' l r => simp [isNull] at h

theorem remove_balanced {n : AVLNode T} (h : n.Balanced) (key : Int32) (size : ℤ) :
    (n.remove key size).1.Balanced ∧ (n.remove key size).1.height ≤ n.height ∧
      n.height ≤ (n.remove key size).1.height + 1 := by
  induction n generalizing key size with
  | nil => simp [remove, Balanced]
  | node k v ht l r ihl ihr =>
    obtain ⟨hl, hr, hheight, hlr, hrl⟩ := h
    rw [remove]
    dsimp only
    split
    · obtain ⟨hnew, hup, hlow⟩ := ihl hl key size
      obtain ⟨⟨hbal, hmin, hmax⟩, hexact⟩ :=
        balance_spec k v ht hnew hr (by omega) (by omega)
      refine ⟨hbal, ?_⟩
      simp only [height_node]
      omega
    · split
      · obtain ⟨hnew, hup, hlow⟩ := ihr hr key size
        obtain ⟨⟨hbal, hmin, hmax⟩, hexact⟩ :=
          balance_spec k v ht hl hnew (by omega) (by omega)
        refine ⟨hbal, ?_⟩
        simp only [height_node]
        omega
      · split
        · rename_i hnull
          dsimp only
          split
          · rename_i hleft
            have hzero := height_of_isNull hleft
            exact ⟨hr, by simp only [height_node]; omega, by simp only [height_node]; omega⟩
          · rename_i hleft
            have hzero := height_of_isNull (n := r) (by simpa [hleft] using hnull)
            exact ⟨hl, by simp only [height_node]; omega, by simp only [height_node]; omega⟩
        · -- the node takes its successor's entry, which leaves the right subtree
          obtain ⟨hnew, hup, hlow⟩ := ihr hr ((minNode r).getD (k, v)).1 (size - 1 + 1)
          obtain ⟨⟨hbal, hmin, hmax⟩, hexact⟩ :=
            balance_spec ((minNode r).getD (k, v)).1 ((minNode r).getD (k, v)).2 ht hl hnew
              (by omega) (by omega)
          refine ⟨hbal, ?_⟩
          simp only [height_node]
          omega

end Rotations

end AVLNode

namespace AVLTree

open AVLNode

/-- What every call keeps; the counter is the number of nodes. -/
structure Invariant (t : AVLTree T) : Prop where
  ordered : t.root.IsSearchTree
  balanced : t.root.Balanced
  counted : t.size = t.root.entries.length

theorem invariant_new : Invariant (new : AVLTree T) := ⟨trivial, trivial, rfl⟩

theorem Invariant.step {t : AVLTree T} (h : t.Invariant) (op : Op T) : (t.step op).Invariant := by
  cases op with
  | insert key val =>
    refine ⟨insert_isSearchTree h.ordered key val _, (insert_balanced h.balanced key val _).1, ?_⟩
    have hsize := insert_size t.root key val t.size
    have hcount := h.counted
    change (t.root.insert key val t.size).2 = ((t.root.insert key val t.size).1.entries.length : ℤ)
    omega
  | remove key =>
    refine ⟨remove_isSearchTree h.ordered key _, (remove_balanced h.balanced key _).1, ?_⟩
    have hsize := remove_size t.root key t.size
    have hcount := h.counted
    change (t.root.remove key t.size).2 = ((t.root.remove key t.size).1.entries.length : ℤ)
    omega

theorem run_invariant (ops : List (Op T)) : (run ops).Invariant := by
  induction ops using List.reverseRecOn with
  | nil => exact invariant_new
  | append_singleton ops op ih =>
    rw [run, List.foldl_append]
    exact ih.step op

private theorem two_pow_le_fib (n : ℕ) : 2 ^ (n / 2) ≤ Nat.fib (n + 2) := by
  induction n using Nat.twoStepInduction with
  | zero => decide
  | one => decide
  | more n ih _ =>
    have hdiv : (n + 2) / 2 = n / 2 + 1 := by omega
    have hfib : Nat.fib (n + 4) = Nat.fib (n + 2) + Nat.fib (n + 3) := Nat.fib_add_two
    have hmono : Nat.fib (n + 2) ≤ Nat.fib (n + 3) := Nat.fib_mono (by omega)
    rw [hdiv, pow_succ, show n + 2 + 2 = n + 4 by rfl, hfib]
    omega

/-- After any calls the tree is a strict search tree with exact heights and balance
factors between -1 and 1. Hence a tree of height `h` has `fib (h + 2) - 1` keys or more, and
the height is logarithmic in `size()`. -/
theorem run_avl (ops : List (Op T)) :
    (run ops).root.IsSearchTree ∧ (run ops).root.HeightsExact ∧ (run ops).root.FactorsOk ∧
      ((Nat.fib ((run ops).root.trueHeight + 2) - 1 : ℕ) : ℤ) ≤ (run ops).size ∧
      (run ops).height ≤ 2 * Nat.log 2 ((run ops).size.toNat + 1) + 1 := by
  have h := run_invariant ops
  have hfib := h.balanced.fib_le
  have hcount := h.counted
  have htrue := h.balanced.height_eq
  have hpow := two_pow_le_fib (run ops).root.height
  have hlog : (run ops).root.height / 2 ≤ Nat.log 2 ((run ops).size.toNat + 1) :=
    Nat.le_log_of_pow_le (by omega) (by omega)
  refine ⟨h.ordered, h.balanced.heightsExact, h.balanced.factorsOk, ?_, ?_⟩
  · rw [← htrue]
    omega
  · change (run ops).root.height ≤ _
    omega

end AVLTree

end NanoDB
