import Mathlib.Logic.Function.Basic
import Mathlib.Algebra.Group.Nat.Defs
import Mathlib.Data.Finset.Card
import Mathlib.Data.Finset.Filter
import Mathlib.Data.Nat.Notation
import Mathlib.Data.Nat.Basic

/-!
Disjoint sets as a forest of parent pointers, for any type of nodes. `root` names the
tree of a node. A rank grows along every parent pointer and is bounded, so that a walk
to the root ends within that bound. Halving a path keeps the trees; hanging a root below
another one joins two trees and leaves every other pair as it was. On a finite set of nodes
the size of a tree is at least two to the rank of its root, when ranks grow by linking only.
-/
namespace ParentForest

variable {α : Type}

/-- The trees of `parent` have the roots `root`, and no rank exceeds `bound`. -/
structure Forest (parent : α → α) (rank : α → ℕ) (root : α → α) (bound : ℕ) : Prop where
  root_parent : ∀ x, root (parent x) = root x
  parent_root : ∀ x, parent (root x) = root x
  root_of_fixed : ∀ x, parent x = x → root x = x
  rank_lt : ∀ x, parent x ≠ x → rank x < rank (parent x)
  rank_le : ∀ x, rank x ≤ bound

theorem forest_singletons : Forest (id : α → α) (fun _ => 0) id 0 :=
  ⟨fun _ => rfl, fun _ => rfl, fun _ _ => rfl, fun _ h => absurd rfl h, fun _ => le_refl 0⟩

variable {parent root : α → α} {rank : α → ℕ} {bound : ℕ}

theorem Forest.root_root (h : Forest parent rank root bound) (x : α) : root (root x) = root x :=
  h.root_of_fixed _ (h.parent_root x)

theorem Forest.rank_le_parent (h : Forest parent rank root bound) (x : α) :
    rank x ≤ rank (parent x) := by
  by_cases hx : parent x = x
  · rw [hx]
  · exact Nat.le_of_lt (h.rank_lt x hx)

/-- What every step to the parent keeps holds at the root. -/
theorem Forest.at_root (h : Forest parent rank root bound) {P : α → Prop}
    (hstep : ∀ x, P x → P (parent x)) {x : α} (hx : P x) : P (root x) := by
  generalize hgap : bound - rank x = gap
  induction gap using Nat.strong_induction_on generalizing x with
  | h gap ih =>
    by_cases hfixed : parent x = x
    · rwa [h.root_of_fixed x hfixed]
    · have hup := h.rank_lt x hfixed
      have hle := h.rank_le (parent x)
      rw [← h.root_parent]
      exact ih (bound - rank (parent x)) (by omega) (hstep x hx) rfl

theorem Forest.rank_le_root (h : Forest parent rank root bound) (x : α) :
    rank x ≤ rank (root x) :=
  h.at_root (P := fun y => rank x ≤ rank y) (fun y hy => hy.trans (h.rank_le_parent y)) (le_refl _)

/-- A walk along parent pointers comes back to a root only. -/
theorem Forest.acyclic (h : Forest parent rank root bound) (x : α) (k : ℕ)
    (hback : parent^[k + 1] x = x) : parent x = x := by
  by_contra hmoves
  have hwalk : ∀ k y, rank y ≤ rank (parent^[k] y) := by
    intro k
    induction k with
    | zero => exact fun y => le_refl _
    | succ k ih =>
      intro y
      rw [Function.iterate_succ_apply]
      exact (h.rank_le_parent y).trans (ih _)
  have hup := h.rank_lt x hmoves
  have hrest := hwalk k (parent x)
  rw [← Function.iterate_succ_apply, hback] at hrest
  omega

variable [DecidableEq α]

/-- A node may be hung below its grandparent. -/
theorem Forest.halve (h : Forest parent rank root bound) (x : α) :
    Forest (Function.update parent x (parent (parent x))) rank root bound := by
  have hother : ∀ y, y ≠ x → Function.update parent x (parent (parent x)) y = parent y :=
    fun y hy => Function.update_of_ne hy _ _
  have hself : Function.update parent x (parent (parent x)) x = parent (parent x) :=
    Function.update_self _ _ _
  refine ⟨?_, ?_, ?_, ?_, h.rank_le⟩
  · intro y
    by_cases hy : y = x
    · rw [hy, hself, h.root_parent, h.root_parent]
    · rw [hother y hy, h.root_parent]
  · intro y
    by_cases hy : root y = x
    · have hfixed := h.parent_root y
      rw [hy] at hfixed ⊢
      rw [hself, hfixed, hfixed]
    · rw [hother _ hy, h.parent_root]
  · intro y hy
    by_cases hyx : y = x
    · rw [hyx, hself] at hy
      by_contra hroot
      have hmoves : parent x ≠ x := fun hfixed => hroot (hyx ▸ h.root_of_fixed x hfixed)
      have hup := h.rank_lt x hmoves
      have hup' := h.rank_le_parent (parent x)
      rw [hy] at hup'
      omega
    · rw [hother y hyx] at hy
      exact h.root_of_fixed y hy
  · intro y hy
    by_cases hyx : y = x
    · rw [hyx, hself] at hy ⊢
      have hmoves : parent x ≠ x := fun hfixed => hy (by rw [hfixed, hfixed])
      exact lt_of_lt_of_le (h.rank_lt x hmoves) (h.rank_le_parent _)
    · rw [hother y hyx] at hy ⊢
      exact h.rank_lt y hy

/-- The roots after the tree of `b` went below the root of `a`. -/
def joinRoots (root : α → α) (a b : α) : α → α := fun x =>
  if root x = root b then root a else root x

theorem joinRoots_eq_iff (root : α → α) (a b x y : α) :
    joinRoots root a b x = joinRoots root a b y ↔ root x = root y ∨
      (root x = root a ∧ root y = root b) ∨ (root x = root b ∧ root y = root a) := by
  unfold joinRoots
  split <;> split <;> grind

/-- The ranks after the root `s` went below the root `r`: of two equal ones `r`'s grows. -/
def linkRank (rank : α → ℕ) (r s : α) : α → ℕ :=
  if rank r = rank s then Function.update rank r (rank r + 1) else rank

theorem linkRank_of_ne (rank : α → ℕ) {r s x : α} (hx : x ≠ r) : linkRank rank r s x = rank x := by
  unfold linkRank
  split
  · rw [Function.update_of_ne hx]
  · rfl

theorem linkRank_self (rank : α → ℕ) (r s : α) :
    linkRank rank r s r = if rank r = rank s then rank r + 1 else rank r := by
  unfold linkRank
  split
  · rw [Function.update_self]
  · rfl

theorem linkRank_bounds (rank : α → ℕ) (r s x : α) :
    rank x ≤ linkRank rank r s x ∧ linkRank rank r s x ≤ rank x + 1 := by
  by_cases hx : x = r
  · rw [hx, linkRank_self]
    split <;> omega
  · rw [linkRank_of_ne rank hx]
    omega

/-- A root may be hung below another one that has no smaller rank; equal ranks make the
new root's rank grow by one. -/
theorem Forest.link (h : Forest parent rank root bound) {a b : α} (hne : root a ≠ root b)
    (hrank : rank (root b) ≤ rank (root a)) :
    Forest (Function.update parent (root b) (root a)) (linkRank rank (root a) (root b))
      (joinRoots root a b) (bound + 1) := by
  have hjoin : ∀ y, root y ≠ root b → joinRoots root a b y = root y := fun y hy => if_neg hy
  have hjoinb : ∀ y, root y = root b → joinRoots root a b y = root a := fun y hy => if_pos hy
  have hother : ∀ y, y ≠ root b → Function.update parent (root b) (root a) y = parent y :=
    fun y hy => Function.update_of_ne hy _ _
  have hself : Function.update parent (root b) (root a) (root b) = root a :=
    Function.update_self _ _ _
  have hroota : joinRoots root a b (root a) = root a := by
    rw [hjoin _ (by rw [h.root_root]; exact hne), h.root_root]
  refine ⟨?_, ?_, ?_, ?_, ?_⟩
  · intro y
    by_cases hy : y = root b
    · rw [hy, hself, hroota, hjoinb _ (h.root_root b)]
    · rw [hother y hy]
      unfold joinRoots
      rw [h.root_parent]
  · intro y
    by_cases hy : root y = root b
    · rw [hjoinb y hy, hother _ hne, h.parent_root]
    · rw [hjoin y hy, hother _ hy, h.parent_root]
  · intro y hy
    by_cases hyb : y = root b
    · rw [hyb, hself] at hy
      exact absurd hy hne
    · rw [hother y hyb] at hy
      have hroot := h.root_of_fixed y hy
      rw [hjoin y (by rw [hroot]; exact hyb), hroot]
  · intro y hy
    by_cases hyb : y = root b
    · rw [hyb, hself, linkRank_self, linkRank_of_ne rank (Ne.symm hne)]
      split <;> omega
    · rw [hother y hyb] at hy ⊢
      have hya : y ≠ root a := fun heq => hy (heq ▸ h.parent_root a)
      rw [linkRank_of_ne rank hya]
      exact (h.rank_lt y hy).trans_le (linkRank_bounds rank _ _ _).1
  · intro y
    exact (linkRank_bounds rank _ _ y).2.trans (Nat.succ_le_succ (h.rank_le y))

section Balanced
variable {vs : Finset α}

/-- The trees are made of the nodes `vs`, and each has two to the rank of its root or more. -/
structure BalancedForest (vs : Finset α) (parent : α → α) (rank : α → ℕ) (root : α → α) :
    Prop where
  forest : Forest parent rank root (vs.card - 1)
  root_mem : ∀ x ∈ vs, root x ∈ vs
  size_ge : ∀ r ∈ vs, root r = r → 2 ^ rank r ≤ (vs.filter fun y => root y = r).card

theorem balancedForest_singletons (vs : Finset α) :
    BalancedForest vs (id : α → α) (fun _ => 0) id where
  forest := { (forest_singletons : Forest (id : α → α) _ _ _) with rank_le _ := Nat.zero_le _ }
  root_mem _ hx := hx
  size_ge r hr _ := by
    have hmem : r ∈ vs.filter fun y => id y = r := Finset.mem_filter.mpr ⟨hr, rfl⟩
    exact Finset.card_pos.mpr ⟨r, hmem⟩

/-- Ranks that trees of nodes `vs` pay for stay below the number of nodes. -/
theorem rank_lt_card (h : Forest parent rank root bound)
    (hsize : ∀ r ∈ vs, root r = r → 2 ^ rank r ≤ (vs.filter fun y => root y = r).card) {x : α}
    (hx : root x ∈ vs) : rank x < vs.card := by
  calc
    rank x ≤ rank (root x) := h.rank_le_root x
    _ < 2 ^ rank (root x) := Nat.lt_two_pow_self
    _ ≤ (vs.filter fun y => root y = root x).card := hsize _ hx (h.root_root x)
    _ ≤ vs.card := Finset.card_filter_le _ _

/-- The tree of the new root has the nodes of both. -/
theorem card_joinRoots (vs : Finset α) {a b : α} (hne : root a ≠ root b) :
    (vs.filter fun y => joinRoots root a b y = root a).card =
      (vs.filter fun y => root y = root a).card + (vs.filter fun y => root y = root b).card := by
  have hjoin : ∀ y, joinRoots root a b y = root a ↔ root y = root a ∨ root y = root b := by
    intro y
    unfold joinRoots
    split <;> simp_all
  have hdisjoint : Disjoint (vs.filter fun y => root y = root a)
      (vs.filter fun y => root y = root b) :=
    Finset.disjoint_filter.mpr fun y _ hya hyb => hne (hya.symm.trans hyb)
  simp only [hjoin]
  rw [Finset.filter_or, Finset.card_union_of_disjoint hdisjoint]

/-- A root other than the two keeps its tree. -/
theorem joinRoots_fixed {a b r : α} (hfixed : joinRoots root a b r = r) (hra : r ≠ root a) :
    root r = r ∧ ∀ y, root y = r → joinRoots root a b y = r := by
  unfold joinRoots at hfixed
  split at hfixed
  · exact absurd hfixed.symm hra
  · rename_i hrb
    refine ⟨hfixed, fun y hy => ?_⟩
    rw [joinRoots, if_neg, hy]
    rwa [hy, ← hfixed]

/-- Linking two trees by rank keeps the sizes two to the ranks. -/
theorem BalancedForest.link (h : BalancedForest vs parent rank root) {a b : α} (ha : a ∈ vs)
    (hb : b ∈ vs) (hne : root a ≠ root b) (hrank : rank (root b) ≤ rank (root a)) :
    BalancedForest vs (Function.update parent (root b) (root a))
      (linkRank rank (root a) (root b)) (joinRoots root a b) := by
  have hlinked := h.forest.link hne hrank
  have hroota := h.root_mem a ha
  have hmem : ∀ x ∈ vs, joinRoots root a b x ∈ vs := by
    intro x hx
    unfold joinRoots
    split
    · exact hroota
    · exact h.root_mem x hx
  have hsize : ∀ r ∈ vs, joinRoots root a b r = r → 2 ^ linkRank rank (root a) (root b) r ≤
      (vs.filter fun y => joinRoots root a b y = r).card := by
    intro r hr hfixed
    by_cases hra : r = root a
    · have hsizea := h.size_ge _ hroota (h.forest.root_root a)
      have hsizeb := h.size_ge _ (h.root_mem b hb) (h.forest.root_root b)
      rw [hra, card_joinRoots vs hne, linkRank_self]
      split
      · rename_i heq
        rw [← heq] at hsizeb
        rw [Nat.pow_succ]
        omega
      · omega
    · obtain ⟨hroot, hkeeps⟩ := joinRoots_fixed hfixed hra
      rw [linkRank_of_ne rank hra]
      refine (h.size_ge r hr hroot).trans (Finset.card_le_card fun y hy => ?_)
      rw [Finset.mem_filter] at hy ⊢
      exact ⟨hy.1, hkeeps y hy.2⟩
  refine ⟨{ hlinked with rank_le := fun x => ?_ }, hmem, hsize⟩
  by_cases hx : x ∈ vs
  · exact Nat.le_sub_one_of_lt (rank_lt_card hlinked hsize (hmem x hx))
  · have hxa : x ≠ root a := by
      rintro rfl
      exact hx hroota
    rw [linkRank_of_ne rank hxa]
    exact h.forest.rank_le x

end Balanced

end ParentForest
