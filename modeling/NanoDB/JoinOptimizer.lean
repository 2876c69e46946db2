import NanoDB.DiskManager

/-!
Join planning (common/Graph.h, optimizer/JoinOptimizer.cpp). The requested tables are
the nodes of a graph, two tables are joined by an edge that costs as much as the
smaller of them is long, and the order of the join follows the edges that Kruskal's
algorithm picks. A cost is an `int` cast to `float`, which is again an integer.
-/
namespace NanoDB

open CTypes

/-- The multiple of `2^e` nearest to `m`, the even one of two, with `e` such that 24 bits
are kept. -/
def roundBits (m : ℕ) : ℕ :=
  let e := Nat.log2 m - 23
  let q := m / 2 ^ e
  let r := m % 2 ^ e
  if 2 ^ e < 2 * r ∨ (2 ^ e = 2 * r ∧ q % 2 = 1) then (q + 1) * 2 ^ e else q * 2 ^ e

/-- `(float) x`, which has 24 significant bits. -/
def floatOfInt (x : ℤ) : ℤ := if 0 ≤ x then roundBits x.toNat else -roundBits (-x).toNat

theorem roundBits_le_of_log2_lt {m m' : ℕ} (h : Nat.log2 m - 23 < Nat.log2 m' - 23) :
    roundBits m ≤ roundBits m' := by
  generalize he : Nat.log2 m - 23 = e at h
  generalize he' : Nat.log2 m' - 23 = e' at h
  have hup : roundBits m ≤ 2 ^ 24 * 2 ^ e := by
    have hm : m < 2 ^ 24 * 2 ^ e := by
      rw [← Nat.pow_add]
      exact lt_of_lt_of_le Nat.lt_log2_self (Nat.pow_le_pow_right (by omega) (by omega))
    have hq : m / 2 ^ e + 1 ≤ 2 ^ 24 := Nat.div_lt_of_lt_mul (by rwa [Nat.mul_comm])
    unfold roundBits
    dsimp only
    rw [he]
    split
    · exact Nat.mul_le_mul_right _ hq
    · exact Nat.mul_le_mul_right _ (by omega)
  have hlow : 2 ^ 23 * 2 ^ e' ≤ roundBits m' := by
    have hne : m' ≠ 0 := by
      rintro rfl
      rw [Nat.log2_zero] at he'
      omega
    have hm : 2 ^ 23 * 2 ^ e' ≤ m' := by
      rw [← Nat.pow_add]
      exact le_trans (Nat.pow_le_pow_right (by omega) (by omega)) (Nat.log2_self_le hne)
    have hq : 2 ^ 23 ≤ m' / 2 ^ e' := (Nat.le_div_iff_mul_le (Nat.two_pow_pos _)).mpr hm
    unfold roundBits
    dsimp only
    rw [he']
    split
    · exact Nat.mul_le_mul_right _ (by omega)
    · exact Nat.mul_le_mul_right _ hq
  have hstep : (2 ^ 24 * 2 ^ e : ℕ) ≤ 2 ^ 23 * 2 ^ e' := by
    rw [← Nat.pow_add, ← Nat.pow_add]
    exact Nat.pow_le_pow_right (by omega) (by omega)
  exact hup.trans (hstep.trans hlow)

theorem roundBits_mono {m m' : ℕ} (h : m ≤ m') : roundBits m ≤ roundBits m' := by
  have hlog : Nat.log2 m ≤ Nat.log2 m' := by
    by_cases hm : m = 0
    · rw [hm, Nat.log2_zero]
      omega
    · exact (Nat.le_log2 (by omega)).mpr ((Nat.log2_self_le hm).trans h)
  by_cases hlt : Nat.log2 m - 23 < Nat.log2 m' - 23
  · exact roundBits_le_of_log2_lt hlt
  · have heq : Nat.log2 m' - 23 = Nat.log2 m - 23 := by omega
    unfold roundBits
    dsimp only
    rw [heq]
    generalize 2 ^ (Nat.log2 m - 23) = p
    have hq : m / p ≤ m' / p := Nat.div_le_div_right h
    by_cases hsame : m / p = m' / p
    · have hr : m % p ≤ m' % p := by
        have hm := Nat.div_add_mod m p
        have hm' := Nat.div_add_mod m' p
        rw [hsame] at hm
        omega
      rw [hsame]
      split <;> split
      · exact le_refl _
      · omega
      · exact Nat.mul_le_mul_right _ (by omega)
      · exact le_refl _
    · have hnext : (m / p + 1) * p ≤ m' / p * p := Nat.mul_le_mul_right _ (by omega)
      have hlow : m / p * p ≤ (m / p + 1) * p := Nat.mul_le_mul_right _ (by omega)
      have hhigh : m' / p * p ≤ (m' / p + 1) * p := Nat.mul_le_mul_right _ (by omega)
      split <;> split <;> omega

/-- Rounding keeps the order, so the smaller of two is found before or after it. -/
theorem floatOfInt_mono {x y : ℤ} (h : x ≤ y) : floatOfInt x ≤ floatOfInt y := by
  unfold floatOfInt
  split <;> split
  · exact Int.ofNat_le.mpr (roundBits_mono (by omega))
  · omega
  · omega
  · have hneg := roundBits_mono (show (-y).toNat ≤ (-x).toNat by omega)
    omega

structure Edge where
  u : ℕ
  v : ℕ
  weight : ℤ
  tableU : TableName
  tableV : TableName

structure UnionFind where
  parent : ℕ → ℕ
  rank : ℕ → ℕ
  n : ℕ

namespace UnionFind

def new (n : ℕ) : UnionFind := ⟨id, fun _ => 0, n⟩

/-- The loop of `find`: each round makes `x` a child of its grandparent and goes there. -/
def findLoop : ℕ → ℕ → (ℕ → ℕ) → ℕ × (ℕ → ℕ)
  | 0, x, parent => (x, parent)
  | fuel + 1, x, parent =>
    if parent x ≠ x then
      findLoop fuel (parent (parent x)) (Function.update parent x (parent (parent x)))
    else (x, parent)

def find (uf : UnionFind) (x : ℕ) : ℕ × UnionFind :=
  let found := findLoop uf.n x uf.parent
  (found.1, { uf with parent := found.2 })

def link (uf : UnionFind) (px py : ℕ) : UnionFind :=
  { uf with
    parent := Function.update uf.parent py px
    rank :=
      if uf.rank px = uf.rank py then Function.update uf.rank px (uf.rank px + 1) else uf.rank }

def unite (uf : UnionFind) (x y : ℕ) : Bool × UnionFind :=
  let px := uf.find x
  let py := px.2.find y
  if px.1 = py.1 then (false, py.2)
  else if py.2.rank px.1 < py.2.rank py.1 then (true, py.2.link py.1 px.1)
  else (true, py.2.link px.1 py.1)

end UnionFind

/-- The first of the lightest edges among `e` and `rest`, counted from `e`. -/
def minIdx (e : Edge) (rest : List Edge) : ℕ :=
  ((rest.zipIdx 1).foldl
    (fun best x => if x.1.weight < best.2 then (x.2, x.1.weight) else best) (0, e.weight)).1

/-- Selection sort for `n` rounds: the lightest edge changes places with the first one. -/
def sortRounds : ℕ → List Edge → List Edge
  | 0, edges => edges
  | _ + 1, [] => []
  | n + 1, e :: rest =>
    let m := minIdx e rest
    if m = 0 then e :: sortRounds n rest
    else rest.getD (m - 1) e :: sortRounds n (rest.set (m - 1) e)

def sortEdges (edges : List Edge) : List Edge := sortRounds edges.length edges

abbrev MAX_NODES : ℕ := 16
abbrev MAX_EDGES : ℕ := MAX_NODES * MAX_NODES

structure JoinGraph where
  nodes : List (TableName × ℤ)
  edges : List Edge
  nodes_le : nodes.length ≤ MAX_NODES
  edges_le : edges.length ≤ MAX_EDGES

namespace JoinGraph

def new : JoinGraph := ⟨[], [], by decide, by decide⟩

/-- A full graph takes no more tables. -/
def addTable (name : List Byte) (rowCount : ℤ) (g : JoinGraph) : JoinGraph :=
  if h : g.nodes.length < MAX_NODES then
    { g with
      nodes := g.nodes ++ [(snprintf 64 nameSize_pos name, rowCount)]
      nodes_le := by rw [List.length_append, List.length_singleton]; exact h }
  else g

def tableIndex (name : TableName) (g : JoinGraph) : Option ℕ :=
  g.nodes.findIdx? fun node => node.1 = name

def rowCount (g : JoinGraph) (i : ℕ) : ℤ := (g.nodes[i]?.map Prod.snd).getD 0

/-- The edge between two tables of the graph, with the smaller row count as its cost. -/
def addJoin (tableA tableB : TableName) (g : JoinGraph) : JoinGraph :=
  match g.tableIndex tableA, g.tableIndex tableB with
  | some u, some v =>
    if h : g.edges.length < MAX_EDGES then
      let cost := floatOfInt (if g.rowCount u < g.rowCount v then g.rowCount u else g.rowCount v)
      { g with
        edges := g.edges ++ [⟨u, v, cost, tableA, tableB⟩]
        edges_le := by rw [List.length_append, List.length_singleton]; exact h }
    else g
  | _, _ => g

def pickEdge (nodeCount : ℕ) (acc : List Edge × UnionFind) (e : Edge) : List Edge × UnionFind :=
  if acc.1.length < nodeCount - 1 then
    let united := acc.2.unite e.u e.v
    if united.1 then (acc.1 ++ [e], united.2) else (acc.1, united.2)
  else acc

def computeMST (g : JoinGraph) : List Edge :=
  ((sortEdges g.edges).foldl (pickEdge g.nodes.length) ([], UnionFind.new g.nodes.length)).1

end JoinGraph

/-- `orderedTables` and `mstEdges` are the filled parts of the source's arrays. -/
structure JoinPlan where
  orderedTables : List TableName
  mstEdges : List Edge

namespace JoinOptimizer

/-- The rows a table's pages have room for; zero for a table that is not registered. -/
def rowEstimate (catalog : SystemCatalog) (disk : Disk) (tableName : List Byte) : ℤ :=
  match catalog.getSchema tableName with
  | none => 0
  | some s => wrap32 (DiskManager.pageCount s.filePath disk * s.recordsPerPage : ℕ)

def addJoins : List TableName → JoinGraph → JoinGraph
  | [], g => g
  | t :: rest, g => addJoins rest (rest.foldl (fun g t' => g.addJoin t t') g)

def optimize (catalog : SystemCatalog) (disk : Disk) (tableName : List Byte)
    (joinTables : List (List Byte)) : JoinPlan :=
  let requested := tableName :: joinTables
  let graph := requested.foldl (fun g t => g.addTable t (rowEstimate catalog disk t)) JoinGraph.new
  let tables := requested.map (snprintf 64 nameSize_pos)
  let mstEdges := (addJoins tables graph).computeMST
  match mstEdges with
  | [] => ⟨tables, []⟩
  | e :: _ => ⟨e.tableU :: mstEdges.map Edge.tableV, mstEdges⟩

end JoinOptimizer

end NanoDB
