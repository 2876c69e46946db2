import NanoDB.JoinOptimizer
import NanoDB.Library.SpanningForest

/-!
The union-find of common/Graph.h as disjoint sets. The path halving of `find` changes parents
but no set, `unite` merges the sets of its arguments, and linking by rank keeps a set at
least as large as two to the rank of its root.
-/
namespace NanoDB

open ParentForest SpanningForest

namespace UnionFind

/-- Two nodes are in one set exactly when they have the same root. The ranks stay within the
number of rounds that `find` may take. -/
structure Represents (uf : UnionFind) (root : ℕ → ℕ) (bound : ℕ) : Prop where
  forest : Forest uf.parent uf.rank root bound
  bound_le : bound ≤ uf.n

theorem represents_new (n : ℕ) : (new n).Represents id 0 := ⟨forest_singletons, Nat.zero_le n⟩

/-- Every round goes up by a rank, so enough rounds reach the root. -/
theorem findLoop_spec {root : ℕ → ℕ} {rank : ℕ → ℕ} {bound : ℕ} (fuel x : ℕ) (parent : ℕ → ℕ)
    (h : Forest parent rank root bound) (hfuel : bound ≤ rank x + fuel) :
    (findLoop fuel x parent).1 = root x ∧ Forest (findLoop fuel x parent).2 rank root bound := by
  induction fuel generalizing x parent with
  | zero =>
    have hx : parent x = x := by
      by_contra hne
      have hup := h.rank_lt x hne
      have hle := h.rank_le (parent x)
      omega
    exact ⟨(h.root_of_fixed x hx).symm, h⟩
  | succ fuel ih =>
    rw [findLoop]
    by_cases hx : parent x = x
    · rw [if_neg (not_not.mpr hx)]
      exact ⟨(h.root_of_fixed x hx).symm, h⟩
    · rw [if_pos hx]
      have hup := h.rank_lt x hx
      have hup' := h.rank_le_parent (parent x)
      obtain ⟨hroot, hforest⟩ := ih (parent (parent x)) _ (h.halve x) (by omega)
      refine ⟨?_, hforest⟩
      rw [hroot, h.root_parent, h.root_parent]

variable {uf : UnionFind} {root : ℕ → ℕ} {bound : ℕ}

theorem find_spec (h : uf.Represents root bound) (x : ℕ) :
    (uf.find x).1 = root x ∧ (uf.find x).2.Represents root bound ∧
      (uf.find x).2.rank = uf.rank ∧ (uf.find x).2.n = uf.n := by
  have hle := h.bound_le
  obtain ⟨hroot, hforest⟩ := findLoop_spec uf.n x uf.parent h.forest (by omega)
  exact ⟨hroot, ⟨hforest, h.bound_le⟩, rfl, rfl⟩

/-- The two look-ups of `unite`. -/
theorem finds_spec (h : uf.Represents root bound) (x y : ℕ) :
    (uf.find x).1 = root x ∧ ((uf.find x).2.find y).1 = root y ∧
      ((uf.find x).2.find y).2.Represents root bound ∧
      ((uf.find x).2.find y).2.rank = uf.rank ∧ ((uf.find x).2.find y).2.n = uf.n := by
  obtain ⟨hx, hufx, hrankx, hnx⟩ := find_spec h x
  obtain ⟨hy, hufy, hranky, hny⟩ := find_spec hufx y
  exact ⟨hx, hy, hufy, hranky.trans hrankx, hny.trans hnx⟩

theorem unite_same (h : uf.Represents root bound) {x y : ℕ} (hroot : root x = root y) :
    uf.unite x y = (false, ((uf.find x).2.find y).2) := by
  obtain ⟨hx, hy, -⟩ := finds_spec h x y
  unfold unite
  dsimp only
  rw [hx, hy, if_pos hroot]

/-- The roots of two sets are linked, in the order of their ranks. -/
theorem unite_link (h : uf.Represents root bound) {x y : ℕ} (hroot : root x ≠ root y) :
    ∃ a b, ((a = x ∧ b = y) ∨ (a = y ∧ b = x)) ∧
      ((uf.find x).2.find y).2.rank (root b) ≤ ((uf.find x).2.find y).2.rank (root a) ∧
      uf.unite x y = (true, ((uf.find x).2.find y).2.link (root a) (root b)) := by
  obtain ⟨hx, hy, -⟩ := finds_spec h x y
  unfold unite
  dsimp only
  rw [hx, hy, if_neg hroot]
  split
  · rename_i hrank
    exact ⟨y, x, Or.inr ⟨rfl, rfl⟩, Nat.le_of_lt hrank, rfl⟩
  · rename_i hrank
    exact ⟨x, y, Or.inl ⟨rfl, rfl⟩, not_lt.mp hrank, rfl⟩

theorem unite_of_eq (h : uf.Represents root bound) {x y : ℕ} (hroot : root x = root y) :
    (uf.unite x y).1 = false ∧ (uf.unite x y).2.Represents root bound ∧
      (uf.unite x y).2.n = uf.n := by
  obtain ⟨-, -, hrep, -, hn⟩ := finds_spec h x y
  rw [unite_same h hroot]
  exact ⟨rfl, hrep, hn⟩

/-- Uniting two sets joins them and leaves all others as they were. -/
theorem unite_of_ne (h : uf.Represents root bound) (hbound : bound < uf.n) {x y : ℕ}
    (hroot : root x ≠ root y) : (uf.unite x y).1 = true ∧ (uf.unite x y).2.n = uf.n ∧
      ∃ root', (uf.unite x y).2.Represents root' (bound + 1) ∧
        ∀ a b, root' a = root' b ↔ root a = root b ∨
          (root a = root x ∧ root b = root y) ∨ (root a = root y ∧ root b = root x) := by
  obtain ⟨-, -, hrep, -, hn⟩ := finds_spec h x y
  obtain ⟨a, b, hab, hrank, hunite⟩ := unite_link h hroot
  have hne : root a ≠ root b := by
    rcases hab with ⟨rfl, rfl⟩ | ⟨rfl, rfl⟩
    · exact hroot
    · exact Ne.symm hroot
  rw [hunite]
  refine ⟨rfl, hn, joinRoots root a b, ⟨hrep.forest.link hne hrank, ?_⟩, fun c d => ?_⟩
  · change bound + 1 ≤ ((uf.find x).2.find y).2.n
    omega
  · rw [joinRoots_eq_iff]
    rcases hab with ⟨rfl, rfl⟩ | ⟨rfl, rfl⟩ <;> tauto

structure Sets (uf : UnionFind) (root : ℕ → ℕ) (pairs : List (ℕ × ℕ)) : Prop where
  trees : BalancedForest (Finset.range uf.n) uf.parent uf.rank root
  connected : ∀ a b, root a = root b ↔ Connected id pairs a b

variable {pairs : List (ℕ × ℕ)}

theorem sets_new (n : ℕ) : (new n).Sets id [] :=
  ⟨balancedForest_singletons _, fun _ _ => connected_nil.symm⟩

theorem Sets.represents (h : uf.Sets root pairs) : uf.Represents root (uf.n - 1) := by
  have hforest := h.trees.forest
  rw [Finset.card_range] at hforest
  exact ⟨hforest, Nat.sub_le _ _⟩

/-- A change of the pointers alone. -/
theorem Sets.of_represents (h : uf.Sets root pairs) {uf' : UnionFind}
    (hrep : uf'.Represents root (uf.n - 1)) (hrank : uf'.rank = uf.rank) (hn : uf'.n = uf.n) :
    uf'.Sets root pairs := by
  refine ⟨⟨?_, ?_, ?_⟩, h.connected⟩
  · rw [hn, Finset.card_range]
    exact hrep.forest
  · rw [hn]
    exact h.trees.root_mem
  · rw [hn, hrank]
    exact h.trees.size_ge

theorem Sets.find (h : uf.Sets root pairs) (x : ℕ) :
    (uf.find x).1 = root x ∧ (uf.find x).2.Sets root pairs := by
  obtain ⟨hx, hrep, hrank, hn⟩ := find_spec h.represents x
  exact ⟨hx, h.of_represents hrep hrank hn⟩

/-- `unite` says whether the pair was connected, and connects it. -/
theorem Sets.unite (h : uf.Sets root pairs) {x y : ℕ} (hx : x < uf.n) (hy : y < uf.n) :
    ((uf.unite x y).1 = true ↔ ¬ Connected id pairs x y) ∧
      ∃ root', (uf.unite x y).2.Sets root' (pairs ++ [(x, y)]) := by
  obtain ⟨-, -, hrep, hrank, hn⟩ := finds_spec h.represents x y
  have hsets := h.of_represents hrep hrank hn
  rw [← h.connected]
  by_cases hroot : root x = root y
  · rw [unite_same h.represents hroot]
    refine ⟨by simp [hroot], root, hsets.trees, fun a b => ?_⟩
    rw [connected_concat, connected_cons_of_connected ((h.connected x y).mp hroot)]
    exact h.connected a b
  · obtain ⟨a, b, hab, hle, hunite⟩ := unite_link h.represents hroot
    have hmem : a ∈ Finset.range uf.n ∧ b ∈ Finset.range uf.n ∧ root a ≠ root b := by
      rcases hab with ⟨rfl, rfl⟩ | ⟨rfl, rfl⟩
      · exact ⟨Finset.mem_range.mpr hx, Finset.mem_range.mpr hy, hroot⟩
      · exact ⟨Finset.mem_range.mpr hy, Finset.mem_range.mpr hx, Ne.symm hroot⟩
    obtain ⟨ha, hb, hne⟩ := hmem
    rw [← hn] at ha hb
    rw [hunite]
    refine ⟨by simp [hroot], joinRoots root a b, hsets.trees.link ha hb hne hle, fun c d => ?_⟩
    rw [joinRoots_eq_iff, connected_concat, connected_cons]
    simp only [h.connected, id]
    rcases hab with ⟨rfl, rfl⟩ | ⟨rfl, rfl⟩ <;> tauto

end UnionFind

end NanoDB
