import NanoDB.JoinOrder
import NanoDB.Library.SpanningForest

/-!
Kruskal's algorithm on a join graph. The selection sort puts the edges in order of cost, the
loop with its union-find makes the greedy choice from them, and stopping at one edge less than
there are tables leaves out nothing; so the picked edges are a cheapest spanning forest.
-/
namespace NanoDB.SpanningTree

open CTypes SpanningForest

inductive Op
  | addTable (name : List Byte) (rowCount : ℤ)
  | addJoin (tableA tableB : TableName)

def step (g : JoinGraph) : Op → JoinGraph
  | .addTable name rowCount => g.addTable name rowCount
  | .addJoin tableA tableB => g.addJoin tableA tableB

def build (ops : List Op) : JoinGraph := ops.foldl step JoinGraph.new

def ends (e : Edge) : ℕ × ℕ := (e.u, e.v)

def nodeSet (g : JoinGraph) : Finset ℕ := Finset.range g.nodes.length

/-- The edges are a cheapest spanning forest of the graph: some of its edges, without a cycle,
connecting the same tables, and no dearer than any other edges that do so, for every exact cost
that orders the edges as their weights do. -/
structure MinimumSpanningForest (g : JoinGraph) (mst : List Edge) : Prop where
  taken : mst.Subperm g.edges
  acyclic : Acyclic ends mst
  connects : ∀ a b, Connected ends mst a b ↔ Connected ends g.edges a b
  count : (∀ a ∈ nodeSet g, ∀ b ∈ nodeSet g, Connected ends g.edges a b) →
    mst.length = g.nodes.length - 1
  cheapest : ∀ cost : Edge → ℤ,
    (∀ d ∈ g.edges, ∀ e ∈ g.edges, d.weight ≤ e.weight → cost d ≤ cost e) →
    ∀ other : List Edge, other.Subperm g.edges →
      (∀ a ∈ nodeSet g, ∀ b ∈ nodeSet g,
        Connected ends other a b ↔ Connected ends g.edges a b) →
      (Acyclic ends other ∨ ∀ e ∈ other, 0 ≤ cost e) →
      (mst.map cost).sum ≤ (other.map cost).sum

section Sorting

/-- One round of the sort: the lightest edge in front, the others behind it. -/
theorem sortRounds_step (n : ℕ) (e : Edge) (rest : List Edge) : ∃ x others,
    (e :: rest).Perm (x :: others) ∧ (∀ y ∈ others, x.weight ≤ y.weight) ∧
      sortRounds (n + 1) (e :: rest) = x :: sortRounds n others := by
  obtain ⟨before, x, after, hsplit, hmin, hbefore, hafter⟩ := minIdx_spec e rest
  rw [sortRounds, hmin]
  cases before with
  | nil =>
    obtain ⟨rfl, rfl⟩ : e = x ∧ rest = after := List.cons.inj hsplit
    exact ⟨e, rest, List.Perm.refl _, hafter, if_pos rfl⟩
  | cons b before =>
    obtain ⟨rfl, rfl⟩ : e = b ∧ rest = before ++ x :: after := List.cons.inj hsplit
    have hnext : (before ++ x :: after).getD before.length e = x := by simp [List.getD]
    have hset : (before ++ x :: after).set before.length e = before ++ e :: after := by simp
    refine ⟨x, before ++ e :: after, ?_, ?_, ?_⟩
    · have hfront : (e :: (before ++ x :: after)).Perm (e :: x :: (before ++ after)) :=
        List.perm_middle.cons e
      have hswap : (e :: x :: (before ++ after)).Perm (x :: e :: (before ++ after)) :=
        List.Perm.swap x e _
      exact hfront.trans (hswap.trans (List.perm_middle.symm.cons x))
    · intro y hy
      rcases List.mem_append.mp hy with hy | hy
      · exact le_of_lt (hbefore y (List.mem_cons_of_mem e hy))
      · rcases List.mem_cons.mp hy with rfl | hy
        · exact le_of_lt (hbefore y List.mem_cons_self)
        · exact hafter y hy
    · rw [List.length_cons, if_neg (Nat.succ_ne_zero _), Nat.add_sub_cancel, hnext, hset]

theorem sortRounds_sorted (n : ℕ) (edges : List Edge) (hlen : edges.length = n) :
    (sortRounds n edges).Perm edges ∧
      (sortRounds n edges).Pairwise fun d e => d.weight ≤ e.weight := by
  induction n generalizing edges with
  | zero =>
    rw [List.length_eq_zero_iff.mp hlen]
    exact ⟨List.Perm.refl _, List.Pairwise.nil⟩
  | succ n ih =>
    cases edges with
    | nil => cases hlen
    | cons e rest =>
      obtain ⟨x, others, hperm, hleast, hround⟩ := sortRounds_step n e rest
      have hlen' : others.length = n := by
        have hsame := hperm.length_eq
        rw [hlen, List.length_cons] at hsame
        omega
      obtain ⟨hperm', hsorted⟩ := ih others hlen'
      rw [hround]
      refine ⟨(hperm'.cons x).trans hperm.symm, List.pairwise_cons.mpr ⟨?_, hsorted⟩⟩
      exact fun y hy => hleast y (hperm'.mem_iff.mp hy)

/-- The selection sort sorts. -/
theorem sortEdges_sorted (edges : List Edge) : (sortEdges edges).Perm edges ∧
    (sortEdges edges).Pairwise fun d e => d.weight ≤ e.weight :=
  sortRounds_sorted edges.length edges rfl

end Sorting

def EndsKnown (g : JoinGraph) : Prop := Within ends (nodeSet g) g.edges

theorem tableIndex_lt {g : JoinGraph} {name : TableName} {i : ℕ}
    (h : g.tableIndex name = some i) : i < g.nodes.length :=
  (List.findIdx?_eq_some_iff_findIdx_eq.mp h).1

theorem EndsKnown.step {g : JoinGraph} (h : EndsKnown g) (op : Op) : EndsKnown (step g op) := by
  cases op with
  | addTable name rowCount =>
    unfold SpanningTree.step JoinGraph.addTable
    dsimp only
    split
    · intro e he
      obtain ⟨hu, hv⟩ := h e he
      unfold nodeSet at hu hv ⊢
      rw [Finset.mem_range] at hu hv ⊢
      rw [Finset.mem_range, List.length_append, List.length_singleton]
      exact ⟨Nat.lt_succ_of_lt hu, Nat.lt_succ_of_lt hv⟩
    · exact h
  | addJoin tableA tableB =>
    unfold SpanningTree.step JoinGraph.addJoin
    dsimp only
    split
    · rename_i u v hu hv
      split
      · intro e he
        rcases List.mem_append.mp he with he | he
        · exact h e he
        · rw [List.mem_singleton.mp he]
          exact ⟨Finset.mem_range.mpr (tableIndex_lt hu), Finset.mem_range.mpr (tableIndex_lt hv)⟩
      · exact h
    · exact h

theorem endsKnown_build (ops : List Op) : EndsKnown (build ops) := by
  have hnew : EndsKnown JoinGraph.new := fun e he => by contradiction
  exact List.foldlRecOn ops step hnew fun g hg op _ => hg.step op

section Loop
variable {n : ℕ} {done : List Edge} {acc : List Edge × UnionFind}

/-- The loop has made the greedy choice so far, and the union-find knows what it connects. -/
structure Chosen (n : ℕ) (done : List Edge) (acc : List Edge × UnionFind) : Prop where
  greedy : Greedy ends done acc.1
  size : acc.2.n = n
  sets : ∃ root, acc.2.Represents root acc.1.length ∧
    ∀ a b, root a = root b ↔ Connected ends acc.1 a b

theorem chosen_new (n : ℕ) : Chosen n [] ([], UnionFind.new n) :=
  ⟨.nil, rfl, id, UnionFind.represents_new n, fun _ _ => connected_nil.symm⟩

/-- One round. When the loop has as many edges as it may take, all nodes are connected and
the greedy choice takes no more either. -/
theorem Chosen.pick (h : Chosen n done acc) (hdone : Within ends (Finset.range n) done) {e : Edge}
    (hu : e.u < n) (hv : e.v < n) : Chosen n (done ++ [e]) (JoinGraph.pickEdge n acc e) := by
  obtain ⟨root, hrep, hroot⟩ := h.sets
  have hclasses := h.greedy.classes_add_length hdone
  rw [Finset.card_range] at hclasses
  unfold JoinGraph.pickEdge
  by_cases hroom : acc.1.length < n - 1
  · rw [if_pos hroom]
    dsimp only
    by_cases hconn : Connected ends acc.1 e.u e.v
    · obtain ⟨hfalse, hrep', hn⟩ := UnionFind.unite_of_eq hrep ((hroot e.u e.v).mpr hconn)
      rw [hfalse]
      exact ⟨.skip h.greedy hconn, hn.trans h.size, root, hrep', hroot⟩
    · have hne : root e.u ≠ root e.v := fun heq => hconn ((hroot e.u e.v).mp heq)
      obtain ⟨htrue, hn, root', hrep', hroot'⟩ :=
        UnionFind.unite_of_ne hrep (by rw [h.size]; omega) hne
      rw [htrue, if_pos rfl]
      refine ⟨.take h.greedy hconn, hn.trans h.size, root', ?_, ?_⟩
      · rw [List.length_append, List.length_singleton]
        exact hrep'
      · intro a b
        rw [hroot', connected_concat, connected_cons, hroot, hroot, hroot, hroot, hroot]
        rfl
  · rw [if_neg hroom]
    have hone : classes ends (Finset.range n) acc.1 ≤ 1 := by omega
    have hconn : Connected ends acc.1 e.u e.v :=
      connected_of_classes hone (Finset.mem_range.mpr hu) (Finset.mem_range.mpr hv)
    exact ⟨.skip h.greedy hconn, h.size, root, hrep, hroot⟩

/-- The whole loop. -/
theorem Chosen.picks (h : Chosen n done acc) (hdone : Within ends (Finset.range n) done)
    (edges : List Edge) (hedges : Within ends (Finset.range n) edges) :
    Chosen n (done ++ edges) (edges.foldl (JoinGraph.pickEdge n) acc) := by
  induction edges generalizing done acc with
  | nil =>
    rw [List.append_nil]
    exact h
  | cons e edges ih =>
    obtain ⟨hu, hv⟩ := hedges e List.mem_cons_self
    have hnext := h.pick hdone (Finset.mem_range.mp hu) (Finset.mem_range.mp hv)
    have hdone' : Within ends (Finset.range n) (done ++ [e]) := by
      intro d hd
      rcases List.mem_append.mp hd with hd | hd
      · exact hdone d hd
      · rw [List.mem_singleton.mp hd]
        exact ⟨hu, hv⟩
    have hrest := ih hnext hdone' fun d hd => hedges d (List.mem_cons_of_mem e hd)
    rw [List.append_assoc] at hrest
    exact hrest

end Loop

/-- The picked edges are the greedy choice from the sorted edges. -/
theorem computeMST_greedy {g : JoinGraph} (h : EndsKnown g) :
    Greedy ends (sortEdges g.edges) g.computeMST := by
  have hsorted : Within ends (Finset.range g.nodes.length) (sortEdges g.edges) :=
    fun e he => h e ((sortEdges_sorted g.edges).1.mem_iff.mp he)
  have hloop := (chosen_new g.nodes.length).picks (fun e he => by contradiction) _ hsorted
  exact hloop.greedy

/-- Kruskal correctness: whatever tables and joins were added, `computeMST` returns a cheapest
spanning forest of the graph. -/
theorem computeMST_minimum (ops : List Op) :
    MinimumSpanningForest (build ops) (build ops).computeMST := by
  have hknown := endsKnown_build ops
  obtain ⟨hperm, hsorted⟩ := sortEdges_sorted (build ops).edges
  have hgreedy := computeMST_greedy hknown
  have hin : Within ends (nodeSet (build ops)) (sortEdges (build ops).edges) :=
    fun e he => hknown e (hperm.mem_iff.mp he)
  have hsame : ∀ a b, Connected ends (sortEdges (build ops).edges) a b ↔
      Connected ends (build ops).edges a b := fun a b => connected_congr fun e => hperm.mem_iff
  have hconnects : ∀ a b, Connected ends (build ops).computeMST a b ↔
      Connected ends (build ops).edges a b :=
    fun a b => hgreedy.connected_iff.trans (hsame a b)
  refine ⟨hgreedy.sublist.subperm.trans hperm.subperm, hgreedy.acyclic hin, hconnects, ?_, ?_⟩
  · intro hall
    have hclasses := hgreedy.classes_add_length hin
    rw [nodeSet, Finset.card_range] at hclasses
    rcases Finset.eq_empty_or_nonempty (nodeSet (build ops)) with hnone | hnone
    · have hzero : (build ops).nodes.length = 0 := by
        rw [← Finset.card_range (build ops).nodes.length]
        exact Finset.card_eq_zero.mpr hnone
      omega
    · have hone := classes_of_connected hnone fun a ha b hb =>
        (hconnects a b).mpr (hall a ha b hb)
      rw [nodeSet] at hone
      omega
  · intro cost hcost other hsub hconn hother
    have hcosts : (sortEdges (build ops).edges).Pairwise fun d e => cost d ≤ cost e := by
      refine List.Pairwise.imp_of_mem ?_ hsorted
      intro d e hd he hle
      exact hcost d (hperm.mem_iff.mp hd) e (hperm.mem_iff.mp he) hle
    have hsub' : other ⊆ sortEdges (build ops).edges :=
      fun e he => hperm.mem_iff.mpr (hsub.subset he)
    have hspan : ∀ a ∈ nodeSet (build ops), ∀ b ∈ nodeSet (build ops),
        Connected ends (sortEdges (build ops).edges) a b → Connected ends other a b :=
      fun a ha b hb hab => (hconn a ha b hb).mpr ((hsame a b).mp hab)
    rcases hother with hacyclic | hnonneg
    · exact hgreedy.sum_le hin hcosts hacyclic hsub' hspan
    · exact hgreedy.sum_le_of_nonneg hin hcosts hsub' hnonneg hspan

end NanoDB.SpanningTree
