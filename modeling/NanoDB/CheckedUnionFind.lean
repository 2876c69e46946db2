import NanoDB.UnionFind
import NanoDB.Library.CheckedProgram
import Mathlib.Data.Set.Card

/-!
The union-find of common/Graph.h on its arrays, every access checked and the loop of `find`
with a number of rounds that must do. Whatever calls are made on nodes of the arrays, no
access is outside them and every loop ends, and the calls answer which nodes are connected.
-/
namespace NanoDB.CheckedUnionFind

open CheckedProgram ParentForest SpanningForest

structure UnionFindState where
  parent : List ℕ
  rank : List ℕ
  n : ℕ

def newUnionFind (n : ℕ) : Run UnionFindState :=
  forLoop n (fun uf i => do
    let parent ← push n uf.parent i
    let rank ← push n uf.rank 0
    return { uf with parent := parent, rank := rank }) ⟨[], [], n⟩

/-- `while (parent[x] != x) { parent[x] = parent[parent[x]]; x = parent[x]; }`. -/
def findLoop (fuel : ℕ) (s : ℕ × List ℕ) : Run (ℕ × List ℕ) :=
  whileLoop (fun s => do return (← load s.2 s.1) ≠ s.1)
    (fun s => do
      let up ← load s.2 s.1
      let grandparent ← load s.2 up
      let parent ← store s.2 s.1 grandparent
      let x ← load parent s.1
      return (x, parent))
    fuel s

def find (fuel : ℕ) (uf : UnionFindState) (x : ℕ) : Run (ℕ × UnionFindState) := do
  let found ← findLoop fuel (x, uf.parent)
  return (found.1, { uf with parent := found.2 })

def swapByRank (uf : UnionFindState) (px py : ℕ) : Run (ℕ × ℕ) := do
  let rankx ← load uf.rank px
  let ranky ← load uf.rank py
  return if rankx < ranky then (py, px) else (px, py)

def link (uf : UnionFindState) (px py : ℕ) : Run UnionFindState := do
  let parent ← store uf.parent py px
  let rankx ← load uf.rank px
  let ranky ← load uf.rank py
  if rankx = ranky then
    let rank ← store uf.rank px (rankx + 1)
    return { uf with parent := parent, rank := rank }
  else return { uf with parent := parent }

def unite (fuel : ℕ) (uf : UnionFindState) (x y : ℕ) : Run (Bool × UnionFindState) := do
  let px ← find fuel uf x
  let py ← find fuel px.2 y
  if px.1 = py.1 then return (false, py.2)
  else
    let roots ← swapByRank py.2 px.1 py.1
    let uf ← link py.2 roots.1 roots.2
    return (true, uf)

inductive Op (n : ℕ)
  | find (x : Fin n)
  | unite (x y : Fin n)

variable {n : ℕ}

def step (fuel : ℕ) (uf : UnionFindState) : Op n → Run UnionFindState
  | .find x => do
    let found ← find fuel uf x
    return found.2
  | .unite x y => do
    let united ← unite fuel uf x y
    return united.2

def run (fuel : ℕ) (ops : List (Op n)) : Run UnionFindState := do
  let uf ← newUnionFind n
  ops.foldlM (step fuel) uf

/-- The pairs that were united, whatever `unite` returned. -/
def united : List (Op n) → List (ℕ × ℕ)
  | [] => []
  | .find _ :: ops => united ops
  | .unite x y :: ops => (↑x, ↑y) :: united ops

section Arrays

structure Pointers (n : ℕ) (parent : List ℕ) : Prop where
  length : parent.length = n
  lt : ∀ p ∈ parent, p < n

/-- The parents by number, a node behind the array its own parent. -/
def parentOf (parent : List ℕ) (x : ℕ) : ℕ := parent.getD x x

variable {parent : List ℕ} {x : ℕ}

theorem load_getD {a : List ℕ} {i : ℕ} (h : i < a.length) (d : ℕ) : load a i = .ok (a.getD i d) :=
  load_of_get (by rw [List.getD_eq_getElem _ _ h, List.getElem?_eq_getElem h])

/-- Writing an entry is an update of the function. -/
theorem getD_set {a : List ℕ} {i : ℕ} (h : i < a.length) (v : ℕ) (d : ℕ → ℕ) :
    (fun x => (a.set i v).getD x (d x)) = Function.update (fun x => a.getD x (d x)) i v := by
  funext x
  rw [List.getD_eq_getElem?_getD, List.getElem?_set]
  by_cases hx : i = x
  · subst hx
    rw [if_pos rfl, if_pos h, Function.update_self]
    rfl
  · rw [if_neg hx, Function.update_of_ne (Ne.symm hx), List.getD_eq_getElem?_getD]

theorem Pointers.load (h : Pointers n parent) (hx : x < n) :
    load parent x = .ok (parentOf parent x) := load_getD (by rw [h.length]; exact hx) x

theorem Pointers.parentOf_lt (h : Pointers n parent) (hx : x < n) : parentOf parent x < n := by
  have hlen : x < parent.length := by
    rw [h.length]
    exact hx
  rw [parentOf, List.getD_eq_getElem _ _ hlen]
  exact h.lt _ (List.getElem_mem hlen)

theorem Pointers.set (h : Pointers n parent) {v : ℕ} (hv : v < n) :
    Pointers n (parent.set x v) := by
  refine ⟨by rw [List.length_set, h.length], fun p hp => ?_⟩
  rcases List.mem_or_eq_of_mem_set hp with hp | rfl
  · exact h.lt p hp
  · exact hv

theorem Pointers.parentOf_set (h : Pointers n parent) (hx : x < n) (v : ℕ) :
    parentOf (parent.set x v) = Function.update (parentOf parent) x v :=
  getD_set (by rw [h.length]; exact hx) v id

/-- One round of `find`. -/
theorem findLoop_succ (h : Pointers n parent) (hx : x < n) (fuel : ℕ) :
    findLoop (fuel + 1) (x, parent) =
      if parentOf parent x ≠ x then
        findLoop fuel (parentOf parent (parentOf parent x),
          parent.set x (parentOf parent (parentOf parent x)))
      else .ok (x, parent) := by
  have hup := h.parentOf_lt hx
  have hset : Pointers n (parent.set x (parentOf parent (parentOf parent x))) :=
    h.set (h.parentOf_lt hup)
  have hstore := store_of_lt (a := parent) (i := x) (by rw [h.length]; exact hx)
    (parentOf parent (parentOf parent x))
  have hself : parentOf (parent.set x (parentOf parent (parentOf parent x))) x =
      parentOf parent (parentOf parent x) := by
    rw [h.parentOf_set hx, Function.update_self]
  rw [findLoop, whileLoop]
  simp only [h.load hx, ok_bind, pure, Except.pure, decide_eq_true_eq]
  split
  · rw [h.load hup, ok_bind, hstore, ok_bind, hset.load hx, ok_bind, hself]
    rfl
  · rfl

/-- The loop stays in the array and ends where the loop on functions does. -/
theorem findLoop_agrees {root rank : ℕ → ℕ} {bound : ℕ} (fuel rounds : ℕ)
    (h : Pointers n parent) (hforest : Forest (parentOf parent) rank root bound)
    (hfuel : bound ≤ rank x + fuel) (hx : x < n) :
    ∃ parent', findLoop (fuel + 1 + rounds) (x, parent) =
        .ok ((UnionFind.findLoop fuel x (parentOf parent)).1, parent') ∧
      parentOf parent' = (UnionFind.findLoop fuel x (parentOf parent)).2 ∧
      (UnionFind.findLoop fuel x (parentOf parent)).1 < n ∧ Pointers n parent' := by
  induction fuel generalizing x parent with
  | zero =>
    have hroot : parentOf parent x = x := by
      by_contra hmoves
      have hup := hforest.rank_lt x hmoves
      have hle := hforest.rank_le (parentOf parent x)
      omega
    refine ⟨parent, ?_, rfl, hx, h⟩
    rw [show 0 + 1 + rounds = rounds + 1 by omega, findLoop_succ h hx, if_neg (not_not.mpr hroot)]
    rfl
  | succ fuel ih =>
    rw [show fuel + 1 + 1 + rounds = fuel + 1 + rounds + 1 by omega, findLoop_succ h hx,
      UnionFind.findLoop]
    by_cases hroot : parentOf parent x = x
    · rw [if_neg (not_not.mpr hroot), if_neg (not_not.mpr hroot)]
      exact ⟨parent, rfl, rfl, hx, h⟩
    · have hup := h.parentOf_lt hx
      have hgrand := h.parentOf_lt hup
      have hrank := hforest.rank_lt x hroot
      have hrank' := hforest.rank_le_parent (parentOf parent x)
      have hhalved := hforest.halve x
      rw [← h.parentOf_set hx] at hhalved
      rw [if_pos hroot, if_pos hroot, ← h.parentOf_set hx]
      exact ih (h.set hgrand) hhalved (by omega) hgrand

end Arrays

section Calls

def UnionFindState.sets (uf : UnionFindState) : UnionFind :=
  ⟨parentOf uf.parent, fun x => uf.rank.getD x 0, uf.n⟩

structure InBounds (n : ℕ) (uf : UnionFindState) : Prop where
  size : uf.n = n
  pointers : Pointers n uf.parent
  rank_length : uf.rank.length = n

variable {uf : UnionFindState} {root : ℕ → ℕ} {bound x y : ℕ}

theorem find_agrees (h : InBounds n uf) (hrep : uf.sets.Represents root bound) (rounds : ℕ)
    (hx : x < n) :
    ∃ uf', find (n + 1 + rounds) uf x = .ok ((uf.sets.find x).1, uf') ∧
      uf'.sets = (uf.sets.find x).2 ∧ (uf.sets.find x).1 < n ∧ InBounds n uf' := by
  obtain rfl := h.size
  have hbound : bound ≤ uf.n := hrep.bound_le
  obtain ⟨parent', hloop, hsame, hroot, hpointers⟩ :=
    findLoop_agrees uf.n rounds h.pointers hrep.forest (by omega) hx
  refine ⟨{ uf with parent := parent' }, ?_, ?_, hroot, ⟨h.size, hpointers, h.rank_length⟩⟩
  · rw [find, hloop]
    rfl
  · exact congrArg (fun parent => (⟨parent, uf.sets.rank, uf.n⟩ : UnionFind)) hsame

theorem load_rank (h : InBounds n uf) (hx : x < n) : load uf.rank x = .ok (uf.sets.rank x) :=
  load_getD (by rw [h.rank_length]; exact hx) 0

theorem swapByRank_eq (h : InBounds n uf) (hx : x < n) (hy : y < n) :
    swapByRank uf x y = .ok (if uf.sets.rank x < uf.sets.rank y then (y, x) else (x, y)) := by
  rw [swapByRank, load_rank h hx, ok_bind, load_rank h hy]
  rfl

theorem link_agrees (h : InBounds n uf) (hx : x < n) (hy : y < n) :
    ∃ uf', link uf x y = .ok uf' ∧ uf'.sets = uf.sets.link x y ∧ InBounds n uf' := by
  have hstore := store_of_lt (a := uf.parent) (i := y) (by rw [h.pointers.length]; exact hy) x
  have hxrank : x < uf.rank.length := by
    rw [h.rank_length]
    exact hx
  have hparent := h.pointers.parentOf_set hy x
  rw [link, hstore, ok_bind, load_rank h hx, ok_bind, load_rank h hy, ok_bind]
  unfold UnionFind.link
  by_cases hrank : uf.sets.rank x = uf.sets.rank y
  · rw [if_pos hrank, if_pos hrank, store_of_lt hxrank]
    refine ⟨_, rfl, ?_, h.size, h.pointers.set hx, ?_⟩
    · have hgrown := getD_set hxrank (uf.sets.rank x + 1) fun _ => 0
      exact congrArg₂ (fun parent rank => (⟨parent, rank, uf.n⟩ : UnionFind)) hparent hgrown
    · rw [List.length_set]
      exact h.rank_length
  · rw [if_neg hrank, if_neg hrank]
    refine ⟨_, rfl, ?_, h.size, h.pointers.set hx, h.rank_length⟩
    exact congrArg (fun parent => (⟨parent, uf.sets.rank, uf.n⟩ : UnionFind)) hparent

theorem unite_agrees (h : InBounds n uf) (hrep : uf.sets.Represents root bound) (rounds : ℕ)
    (hx : x < n) (hy : y < n) :
    ∃ uf', unite (n + 1 + rounds) uf x y = .ok ((uf.sets.unite x y).1, uf') ∧
      uf'.sets = (uf.sets.unite x y).2 ∧ InBounds n uf' := by
  obtain ⟨uf₁, hfindx, hsets₁, hpx, h₁⟩ := find_agrees h hrep rounds hx
  have hrep₁ := (UnionFind.find_spec hrep x).2.1
  rw [← hsets₁] at hrep₁
  obtain ⟨uf₂, hfindy, hsets₂, hpy, h₂⟩ := find_agrees h₁ hrep₁ rounds hy
  rw [hsets₁] at hfindy hsets₂ hpy
  rw [unite, hfindx, ok_bind, hfindy, ok_bind]
  unfold UnionFind.unite
  dsimp only
  rw [← hsets₂]
  generalize (uf.sets.find x).1 = px at hpx
  generalize ((uf.sets.find x).2.find y).1 = py at hpy
  split
  · exact ⟨uf₂, rfl, rfl, h₂⟩
  rw [swapByRank_eq h₂ hpx hpy, ok_bind]
  split
  · obtain ⟨uf₃, hlink, hsets₃, h₃⟩ := link_agrees h₂ hpy hpx
    rw [hlink]
    exact ⟨uf₃, rfl, hsets₃, h₃⟩
  · obtain ⟨uf₃, hlink, hsets₃, h₃⟩ := link_agrees h₂ hpx hpy
    rw [hlink]
    exact ⟨uf₃, rfl, hsets₃, h₃⟩

end Calls

section Runs
variable {uf : UnionFindState} {pairs : List (ℕ × ℕ)}

structure Holds (n : ℕ) (pairs : List (ℕ × ℕ)) (uf : UnionFindState) : Prop where
  inBounds : InBounds n uf
  sets : ∃ root, uf.sets.Sets root pairs

theorem newUnionFind_eq (n : ℕ) :
    newUnionFind n = .ok ⟨List.range n, List.replicate n 0, n⟩ := by
  refine forLoop_eq (fun i => (⟨List.range i, List.replicate i 0, n⟩ : UnionFindState))
    fun i hi => ?_
  have hparent : (List.range i).length < n := by rwa [List.length_range]
  have hrank : (List.replicate i 0).length < n := by rwa [List.length_replicate]
  dsimp only
  rw [push_of_lt hparent, ok_bind, push_of_lt hrank, ← List.range_succ, ← List.replicate_succ']
  rfl

theorem holds_new (n : ℕ) : Holds n [] ⟨List.range n, List.replicate n 0, n⟩ := by
  have hparent : parentOf (List.range n) = id := by
    funext x
    rw [parentOf, List.getD_eq_getElem?_getD]
    rcases Nat.lt_or_ge x n with hlt | hge
    · rw [List.getElem?_range hlt]
      rfl
    · rw [List.getElem?_eq_none (by rwa [List.length_range])]
      rfl
  have hrank : (fun x => (List.replicate n 0).getD x 0) = fun _ => 0 := by
    funext x
    rw [List.getD_eq_getElem?_getD, List.getElem?_replicate]
    split <;> rfl
  refine ⟨⟨rfl, ⟨List.length_range, fun p hp => List.mem_range.mp hp⟩, List.length_replicate⟩,
    id, ?_⟩
  have hsets : UnionFindState.sets ⟨List.range n, List.replicate n 0, n⟩ = UnionFind.new n :=
    congrArg₂ (fun parent rank => (⟨parent, rank, n⟩ : UnionFind)) hparent hrank
  rw [hsets]
  exact UnionFind.sets_new n

/-- One call: no access fails, and the classes are those of the pairs united with it. -/
theorem Holds.step (h : Holds n pairs uf) (rounds : ℕ) (op : Op n) :
    ∃ uf', CheckedUnionFind.step (n + 1 + rounds) uf op = .ok uf' ∧
      Holds n (pairs ++ united [op]) uf' := by
  obtain ⟨root, hsets⟩ := h.sets
  have hsize : uf.sets.n = n := h.inBounds.size
  cases op with
  | find x =>
    obtain ⟨uf', hfind, hsame, -, hin⟩ := find_agrees h.inBounds hsets.represents rounds x.isLt
    refine ⟨uf', ?_, hin, root, ?_⟩
    · rw [CheckedUnionFind.step, hfind]
      rfl
    · rw [hsame, united, united, List.append_nil]
      exact (hsets.find x).2
  | unite x y =>
    obtain ⟨uf', hunite, hsame, hin⟩ :=
      unite_agrees h.inBounds hsets.represents rounds x.isLt y.isLt
    obtain ⟨-, root', hsets'⟩ :=
      hsets.unite (x.isLt.trans_eq hsize.symm) (y.isLt.trans_eq hsize.symm)
    refine ⟨uf', ?_, hin, root', ?_⟩
    · rw [CheckedUnionFind.step, hunite]
      rfl
    · rw [hsame]
      exact hsets'

theorem Holds.run (h : Holds n pairs uf) (rounds : ℕ) (ops : List (Op n)) :
    ∃ uf', ops.foldlM (CheckedUnionFind.step (n + 1 + rounds)) uf = .ok uf' ∧
      Holds n (pairs ++ united ops) uf' := by
  induction ops generalizing uf pairs with
  | nil => exact ⟨uf, rfl, by rw [united, List.append_nil]; exact h⟩
  | cons op ops ih =>
    obtain ⟨uf₁, hstep, h₁⟩ := h.step rounds op
    obtain ⟨uf₂, hrun, h₂⟩ := ih h₁
    refine ⟨uf₂, ?_, ?_⟩
    · rw [List.foldlM_cons, hstep]
      exact hrun
    · rw [List.append_assoc] at h₂
      cases op <;> exact h₂

def classOf (n : ℕ) (pairs : List (ℕ × ℕ)) (x : ℕ) : Set ℕ := {y | y < n ∧ Connected id pairs x y}

/-- What the arrays are, and what the next calls answer, after these pairs were united. -/
structure Correct (fuel n : ℕ) (pairs : List (ℕ × ℕ)) (uf : UnionFindState) : Prop where
  inBounds : InBounds n uf
  acyclic : ∀ x k, (parentOf uf.parent)^[k + 1] x = x → parentOf uf.parent x = x
  find : ∃ root : Fin n → ℕ, (∀ x : Fin n, ∃ uf', find fuel uf x = .ok (root x, uf') ∧
      ∀ y : Fin n, ∃ uf'', CheckedUnionFind.find fuel uf' y = .ok (root y, uf'')) ∧
    ∀ x y : Fin n, root x = root y ↔ Connected id pairs x y
  unite : ∀ x y : Fin n, ∃ new uf', unite fuel uf x y = .ok (new, uf') ∧
    (new = true ↔ ¬ Connected id pairs x y)
  rank : ∀ r k, uf.parent[r]? = some r → uf.rank[r]? = some k →
    2 ^ k ≤ (classOf n pairs r).ncard

theorem Holds.find (h : Holds n pairs uf) (rounds : ℕ) :
    ∃ root : Fin n → ℕ,
      (∀ x : Fin n, ∃ uf', CheckedUnionFind.find (n + 1 + rounds) uf x = .ok (root x, uf') ∧
        ∀ y : Fin n, ∃ uf'',
          CheckedUnionFind.find (n + 1 + rounds) uf' y = .ok (root y, uf'')) ∧
      ∀ x y : Fin n, root x = root y ↔ Connected id pairs x y := by
  obtain ⟨root, hsets⟩ := h.sets
  refine ⟨fun x => root x, fun x => ?_, fun x y => hsets.connected x y⟩
  obtain ⟨uf', hfind, hsame, -, hin⟩ := find_agrees h.inBounds hsets.represents rounds x.isLt
  obtain ⟨hroot, hsets'⟩ := hsets.find x
  rw [← hsame] at hsets'
  refine ⟨uf', by rw [hfind, hroot], fun y => ?_⟩
  obtain ⟨uf'', hfind', -⟩ := find_agrees hin hsets'.represents rounds y.isLt
  exact ⟨uf'', by rw [hfind', (hsets'.find y).1]⟩

theorem Holds.rank (h : Holds n pairs uf) {r k : ℕ} (hroot : uf.parent[r]? = some r)
    (hrank : uf.rank[r]? = some k) : 2 ^ k ≤ (classOf n pairs r).ncard := by
  obtain ⟨root, hsets⟩ := h.sets
  have hr : r < n := h.inBounds.pointers.lt r (List.mem_of_getElem? hroot)
  have hk : uf.sets.rank r = k := by
    change uf.rank.getD r 0 = k
    rw [List.getD_eq_getElem?_getD, hrank]
    rfl
  have hfixed : root r = r := by
    refine hsets.trees.forest.root_of_fixed r ?_
    change uf.parent.getD r r = r
    rw [List.getD_eq_getElem?_getD, hroot]
    rfl
  have hsize : uf.sets.n = n := h.inBounds.size
  have hpaid := hsets.trees.size_ge r
  rw [hsize] at hpaid
  have hclass : classOf n pairs r = ↑((Finset.range n).filter fun y => root y = r) := by
    ext y
    rw [Finset.mem_coe, Finset.mem_filter, Finset.mem_range, eq_comm, ← hfixed,
      hsets.connected, hfixed]
    rfl
  rw [hclass, Set.ncard_coe_finset, ← hk]
  exact hpaid (Finset.mem_range.mpr hr) hfixed

/-- After any calls the parents form a forest, `find` names the classes of the united pairs,
`unite` says whether its pair was not connected, and a class has at least two to the rank of
its root nodes. No access leaves the arrays, and `n + 1` rounds or more do for every `find`. -/
theorem unionFind_correct (n rounds : ℕ) (ops : List (Op n)) :
    ∃ uf, run (n + 1 + rounds) ops = .ok uf ∧ Correct (n + 1 + rounds) n (united ops) uf := by
  obtain ⟨uf, hrun, h⟩ := (holds_new n).run rounds ops
  refine ⟨uf, ?_, h.inBounds, ?_, h.find rounds, ?_, fun r k => h.rank⟩
  · rw [CheckedUnionFind.run, newUnionFind_eq]
    exact hrun
  · obtain ⟨root, hsets⟩ := h.sets
    exact fun x k => hsets.trees.forest.acyclic x k
  · intro x y
    obtain ⟨root, hsets⟩ := h.sets
    obtain ⟨uf', hunite, -⟩ := unite_agrees h.inBounds hsets.represents rounds x.isLt y.isLt
    have hsize : uf.sets.n = n := h.inBounds.size
    exact ⟨_, uf', hunite, (hsets.unite (x.isLt.trans_eq hsize.symm)
      (y.isLt.trans_eq hsize.symm)).1⟩

-- of two equal ranks the first root stays; the later pair hangs below it without a new rank
example : run 4 [Op.unite (n := 3) 0 1, .unite 2 1, .find 2] = .ok ⟨[0, 0, 0], [1, 0, 0], 3⟩ := rfl

end Runs

end NanoDB.CheckedUnionFind
