import NanoDB.UnionFind
import Mathlib.Data.Finset.Max
import Mathlib.Data.List.Perm.Subperm
import Mathlib.Tactic.Ring

/-!
The order of a planned join. Every edge that costs the least row count of the requested
tables comes before all others, in the order in which the edges were added. If the first
or the second table has that row count, the edges grow one tree from the first table on;
otherwise the least table is reached from the first and again from the second one.
-/
namespace NanoDB

open CTypes

section Sorting

/-- The selected edge is lighter than every edge before it and no heavier than the rest. -/
theorem minIdx_spec (e : Edge) (rest : List Edge) : ∃ before x after,
    e :: rest = before ++ x :: after ∧ minIdx e rest = before.length ∧
      (∀ y ∈ before, x.weight < y.weight) ∧ ∀ y ∈ after, x.weight ≤ y.weight := by
  suffices hfold : ∃ before x after, e :: rest = before ++ x :: after ∧
      (rest.zipIdx 1).foldl
        (fun best x => if x.1.weight < best.2 then (x.2, x.1.weight) else best) (0, e.weight) =
          (before.length, x.weight) ∧
      (∀ y ∈ before, x.weight < y.weight) ∧ ∀ y ∈ after, x.weight ≤ y.weight by
    obtain ⟨before, x, after, hsplit, hbest, hbefore, hafter⟩ := hfold
    refine ⟨before, x, after, hsplit, ?_, hbefore, hafter⟩
    unfold minIdx
    rw [hbest]
  induction rest using List.reverseRecOn with
  | nil => exact ⟨[], e, [], rfl, rfl, by simp, by simp⟩
  | append_singleton rest y ih =>
    obtain ⟨before, x, after, hsplit, hbest, hbefore, hafter⟩ := ih
    rw [List.zipIdx_append, List.foldl_append, hbest]
    change ∃ before' x' after', _ ∧ (if y.weight < x.weight then (1 + rest.length, y.weight)
      else (before.length, x.weight)) = _ ∧ _
    by_cases hlt : y.weight < x.weight
    · refine ⟨e :: rest, y, [], rfl, ?_, ?_, by simp⟩
      · rw [if_pos hlt, List.length_cons, Nat.add_comm]
      · intro z hz
        rw [hsplit] at hz
        rcases List.mem_append.mp hz with hz | hz
        · exact hlt.trans (hbefore z hz)
        · rcases List.mem_cons.mp hz with rfl | hz
          · exact hlt
          · exact lt_of_lt_of_le hlt (hafter z hz)
    · refine ⟨before, x, after ++ [y], ?_, if_neg hlt, hbefore, ?_⟩
      · rw [← List.cons_append, hsplit, List.append_assoc, List.cons_append]
      · intro z hz
        rcases List.mem_append.mp hz with hz | hz
        · exact hafter z hz
        · rw [List.mem_singleton.mp hz]
          exact not_lt.mp hlt

/-- A first edge that is no heavier than the rest stays in front of the lightest of these. -/
theorem lightest_cons {least : ℤ} {x : Edge} {after : List Edge} (hx : least ≤ x.weight)
    (hafter : ∀ y ∈ after, x.weight ≤ y.weight) (others : List Edge) :
    ∃ others', x :: ((after.filter fun y => y.weight = least) ++ others) =
      ((x :: after).filter fun y => y.weight = least) ++ others' := by
  by_cases hlight : x.weight = least
  · exact ⟨others, by simp [hlight]⟩
  · have hnone : (after.filter fun y => y.weight = least) = [] := by
      rw [List.filter_eq_nil_iff]
      intro y hy hyw
      have hxy := hafter y hy
      have hyeq : y.weight = least := of_decide_eq_true hyw
      omega
    exact ⟨x :: others, by simp [hlight, hnone]⟩

/-- Heavier edges in front do not matter. -/
theorem lightest_behind {least : ℤ} {before : List Edge} (hheavy : ∀ y ∈ before, y.weight ≠ least)
    (edges : List Edge) : ((before ++ edges).filter fun y => y.weight = least) =
      edges.filter fun y => y.weight = least := by
  rw [List.filter_append, List.filter_eq_nil_iff.mpr, List.nil_append]
  intro y hy hyw
  exact hheavy y hy (of_decide_eq_true hyw)

/-- The lightest edges come first and in their old order: only a heavier edge is ever
moved backwards. -/
theorem sortRounds_lightest (least : ℤ) (edges : List Edge) (h : ∀ e ∈ edges, least ≤ e.weight) :
    ∃ others, sortRounds edges.length edges =
      (edges.filter fun e => e.weight = least) ++ others := by
  generalize hn : edges.length = n
  induction n generalizing edges with
  | zero =>
    obtain rfl := List.length_eq_zero_iff.mp hn
    exact ⟨[], rfl⟩
  | succ n ih =>
    cases edges with
    | nil => cases hn
    | cons e rest =>
      have hrest : rest.length = n := by simpa using hn
      obtain ⟨before, x, after, hsplit, hmin, hbefore, hafter⟩ := minIdx_spec e rest
      rw [sortRounds, hmin]
      cases before with
      | nil =>
        obtain ⟨rfl, rfl⟩ : e = x ∧ rest = after := List.cons.inj hsplit
        rw [List.length_nil, if_pos rfl]
        obtain ⟨others, hothers⟩ := ih rest (fun y hy => h y (List.mem_cons_of_mem _ hy)) hrest
        rw [hothers]
        exact lightest_cons (h e List.mem_cons_self) hafter others
      | cons b before =>
        obtain ⟨rfl, rfl⟩ : e = b ∧ rest = before ++ x :: after := List.cons.inj hsplit
        have hlen : (e :: before).length - 1 = before.length := rfl
        have hnext : (before ++ x :: after).getD before.length e = x := by simp [List.getD]
        have hset : (before ++ x :: after).set before.length e = before ++ e :: after := by simp
        have hpos : (e :: before).length ≠ 0 := Nat.succ_ne_zero _
        rw [if_neg hpos, hlen, hnext, hset]
        have hx := h x (by simp)
        have hheavy : ∀ y ∈ e :: before, y.weight ≠ least := by
          intro y hy
          have hyx := hbefore y hy
          omega
        obtain ⟨hehead, hheavy⟩ := List.forall_mem_cons.mp hheavy
        have hmem : ∀ y ∈ before ++ e :: after, least ≤ y.weight := by
          intro y hy
          refine h y ?_
          rcases List.mem_append.mp hy with hy | hy
          · simp [hy]
          · rcases List.mem_cons.mp hy with rfl | hy
            · simp
            · simp [hy]
        obtain ⟨others, hothers⟩ := ih (before ++ e :: after) hmem (by simpa using hrest)
        rw [hothers, lightest_behind hheavy, List.filter_cons_of_neg (by simpa using hehead),
          List.filter_cons_of_neg (by simpa using hehead), lightest_behind hheavy]
        exact lightest_cons hx hafter others

end Sorting

section Kruskal

def joinEdge (tables : List TableName) (rows : TableName → ℤ) (a b : TableName) : Edge :=
  ⟨tables.idxOf a, tables.idxOf b, floatOfInt (if rows a < rows b then rows a else rows b), a, b⟩

def reached (first : TableName) (acc : List Edge × UnionFind) : List TableName :=
  first :: acc.1.map Edge.tableV

def pickPairs (tables : List TableName) (rows : TableName → ℤ)
    (pairs : List (TableName × TableName)) (acc : List Edge × UnionFind) : List Edge × UnionFind :=
  (pairs.map fun p => joinEdge tables rows p.1 p.2).foldl (JoinGraph.pickEdge tables.length) acc

structure Grown (tables : List TableName) (first : TableName) (acc : List Edge × UnionFind) :
    Prop where
  nodup : (reached first acc).Nodup
  known : ∀ t ∈ reached first acc, t ∈ tables
  linked : ∀ before e after, acc.1 = before ++ e :: after →
    e.tableU ∈ first :: before.map Edge.tableV
  united : acc.2.n = tables.length ∧ ∃ root, acc.2.Represents root acc.1.length ∧
    ∀ a ∈ tables, ∀ b ∈ tables, root (tables.idxOf a) = root (tables.idxOf b) ↔ a = b ∨
      (a ∈ reached first acc ∧ b ∈ reached first acc)

variable {tables : List TableName} {rows : TableName → ℤ} {first : TableName}
  {acc : List Edge × UnionFind}

theorem grown_new (h : first ∈ tables) : Grown tables first ([], UnionFind.new tables.length) := by
  have hknown : ∀ t ∈ [first], t ∈ tables := fun t ht => List.mem_singleton.mp ht ▸ h
  refine ⟨List.nodup_singleton _, hknown, by simp, rfl, id, UnionFind.represents_new _, ?_⟩
  intro a ha b hb
  change tables.idxOf a = tables.idxOf b ↔ _
  rw [List.idxOf_inj ha]
  constructor
  · exact Or.inl
  · rintro (heq | ⟨hfirst, hfirst'⟩)
    · exact heq
    · rw [List.mem_singleton.mp hfirst, List.mem_singleton.mp hfirst']

theorem Grown.length_le (h : Grown tables first acc) : acc.1.length + 1 ≤ tables.length := by
  have hsub := (h.nodup.subperm h.known).length_le
  rwa [reached, List.length_cons, List.length_map] at hsub

/-- When as many edges are picked as the loop allows, every table is reached. -/
theorem Grown.full (h : Grown tables first acc) (hfull : tables.length - 1 ≤ acc.1.length) :
    (reached first acc).Perm tables := by
  have hlen := h.length_le
  refine (h.nodup.subperm h.known).perm_of_length_le ?_
  rw [reached, List.length_cons, List.length_map]
  omega

variable (rows) in
/-- An edge from a reached to a new table, its sets united, grows the tree. -/
theorem Grown.append (h : Grown tables first acc) {a b : TableName}
    (ha : a ∈ reached first acc) (hb : b ∈ tables) (hnew : b ∉ reached first acc)
    {uf : UnionFind} {root root' : ℕ → ℕ} (hn : uf.n = tables.length)
    (hroot : ∀ x ∈ tables, ∀ y ∈ tables, root (tables.idxOf x) = root (tables.idxOf y) ↔ x = y ∨
      (x ∈ reached first acc ∧ y ∈ reached first acc))
    (hrep : uf.Represents root' (acc.1.length + 1))
    (hroot' : ∀ i j, root' i = root' j ↔ root i = root j ∨
      (root i = root (tables.idxOf a) ∧ root j = root (tables.idxOf b)) ∨
        (root i = root (tables.idxOf b) ∧ root j = root (tables.idxOf a))) :
    Grown tables first (acc.1 ++ [joinEdge tables rows a b], uf) := by
  have hmap : reached first (acc.1 ++ [joinEdge tables rows a b], uf) =
      reached first acc ++ [b] := by simp [reached, joinEdge]
  refine ⟨?_, ?_, ?_, hn, root', ?_, ?_⟩
  · rw [hmap, ← List.concat_eq_append]
    exact h.nodup.concat hnew
  · intro t ht
    rw [hmap] at ht
    rcases List.mem_append.mp ht with ht | ht
    · exact h.known t ht
    · rwa [List.mem_singleton.mp ht]
  · intro before e after hsplit
    change acc.1 ++ [joinEdge tables rows a b] = before ++ e :: after at hsplit
    rcases List.eq_nil_or_concat after with rfl | ⟨after', last, rfl⟩
    · obtain ⟨rfl, hlast⟩ := List.append_inj' hsplit rfl
      obtain rfl : joinEdge tables rows a b = e := by simpa using hlast
      exact ha
    · have hsplit' : acc.1 ++ [joinEdge tables rows a b] =
          (before ++ e :: after') ++ [last] := by rw [hsplit]; simp
      exact h.linked before e after' (List.append_inj' hsplit' rfl).1
  · rw [List.length_append, List.length_singleton]
    exact hrep
  · intro x hx y hy
    rw [hmap, hroot', hroot x hx y hy, hroot x hx a (h.known a ha), hroot y hy b hb,
      hroot x hx b hb, hroot y hy a (h.known a ha)]
    simp only [List.mem_append, List.mem_singleton]
    grind

variable (rows) in
/-- An edge from a reached table is picked exactly when its other table is new. -/
theorem Grown.pick (h : Grown tables first acc) {a b : TableName}
    (ha : a ∈ reached first acc) (hb : b ∈ tables) :
    Grown tables first (JoinGraph.pickEdge tables.length acc (joinEdge tables rows a b)) ∧
      (JoinGraph.pickEdge tables.length acc (joinEdge tables rows a b)).1 =
        if b ∈ reached first acc then acc.1
        else acc.1 ++ [joinEdge tables rows a b] := by
  have hlen := h.length_le
  obtain ⟨hn, root, hrep, hroot⟩ := h.united
  have hconn := hroot a (h.known a ha) b hb
  unfold JoinGraph.pickEdge
  by_cases hroom : acc.1.length < tables.length - 1
  · rw [if_pos hroom]
    dsimp only
    by_cases hold : b ∈ reached first acc
    · obtain ⟨hfalse, hrep', hn'⟩ := UnionFind.unite_of_eq hrep (hconn.mpr (Or.inr ⟨ha, hold⟩))
      change (acc.2.unite (joinEdge tables rows a b).u (joinEdge tables rows a b).v).1 = false
        at hfalse
      rw [hfalse, if_pos hold]
      exact ⟨⟨h.nodup, h.known, h.linked, hn'.trans hn, root, hrep', hroot⟩, rfl⟩
    · have hne : root (tables.idxOf a) ≠ root (tables.idxOf b) := by
        rw [ne_eq, hconn]
        rintro (rfl | ⟨-, hmem⟩)
        · exact hold ha
        · exact hold hmem
      obtain ⟨htrue, hn', root', hrep', hroot'⟩ := UnionFind.unite_of_ne hrep (by omega) hne
      change (acc.2.unite (joinEdge tables rows a b).u (joinEdge tables rows a b).v).1 = true
        at htrue
      rw [htrue, if_neg hold, if_pos rfl]
      exact ⟨h.append rows ha hb hold (hn'.trans hn) hroot hrep' hroot', rfl⟩
  · rw [if_neg hroom]
    have hperm := h.full (by omega)
    rw [if_pos (hperm.mem_iff.mpr hb)]
    exact ⟨h, rfl⟩

variable (rows) in
theorem mem_reached_pick (h : Grown tables first acc) {a b : TableName}
    (ha : a ∈ reached first acc) (hb : b ∈ tables) (t : TableName) :
    t ∈ reached first (JoinGraph.pickEdge tables.length acc (joinEdge tables rows a b)) ↔
      t ∈ reached first acc ∨ b = t := by
  unfold reached
  rw [(h.pick rows ha hb).2]
  split
  · rename_i hold
    constructor
    · exact Or.inl
    · rintro (ht | rfl)
      · exact ht
      · exact hold
  · simp only [List.map_append, List.map_singleton, List.mem_cons, List.mem_append,
      List.not_mem_nil, or_false, joinEdge]
    tauto

variable (rows) in
/-- Edges from reached tables add their other tables and nothing else. -/
theorem Grown.picks (h : Grown tables first acc) (pairs : List (TableName × TableName))
    (hfrom : ∀ p ∈ pairs, p.1 ∈ reached first acc ∧ p.2 ∈ tables) :
    Grown tables first (pickPairs tables rows pairs acc) ∧
    ∀ t, t ∈ reached first (pickPairs tables rows pairs acc) ↔
      t ∈ reached first acc ∨ ∃ p ∈ pairs, p.2 = t := by
  induction pairs generalizing acc with
  | nil => exact ⟨h, fun t => by simp [pickPairs]⟩
  | cons p pairs ih =>
    obtain ⟨hp, hpairs⟩ := List.forall_mem_cons.mp hfrom
    have hnext := mem_reached_pick rows h hp.1 hp.2
    obtain ⟨hgrown, hacc⟩ := ih (h.pick rows hp.1 hp.2).1 fun q hq =>
      ⟨(hnext q.1).mpr (Or.inl (hpairs q hq).1), (hpairs q hq).2⟩
    refine ⟨hgrown, ?_⟩
    intro t
    rw [List.exists_mem_cons_iff, ← or_assoc, ← hnext]
    exact hacc t

/-- The loop stops when enough edges are picked. -/
theorem picks_of_full (edges : List Edge) (n : ℕ) (hfull : n - 1 ≤ acc.1.length) :
    edges.foldl (JoinGraph.pickEdge n) acc = acc := by
  induction edges with
  | nil => rfl
  | cons e edges ih =>
    have hstop : JoinGraph.pickEdge n acc e = acc := if_neg (by omega)
    rw [List.foldl_cons, hstop, ih]

/-- Picked edges stay. -/
theorem picks_prefix (edges : List Edge) (n : ℕ) (acc : List Edge × UnionFind) :
    acc.1 <+: (edges.foldl (JoinGraph.pickEdge n) acc).1 := by
  induction edges generalizing acc with
  | nil => exact List.prefix_rfl
  | cons e edges ih =>
    have hstep : acc.1 <+: (JoinGraph.pickEdge n acc e).1 := by
      unfold JoinGraph.pickEdge
      dsimp only
      split
      · split
        · exact List.prefix_append _ _
        · exact List.prefix_rfl
      · exact List.prefix_rfl
    exact hstep.trans (ih _)

/-- An edge from a table that is not yet reached is picked. -/
theorem Grown.pick_new (h : Grown tables first acc) {a b : TableName} (ha : a ∈ tables)
    (hb : b ∈ tables) (hab : a ≠ b) (hnew : a ∉ reached first acc) :
    (JoinGraph.pickEdge tables.length acc (joinEdge tables rows a b)).1 =
      acc.1 ++ [joinEdge tables rows a b] := by
  obtain ⟨hn, root, hrep, hroot⟩ := h.united
  have hroom : acc.1.length + 1 < tables.length := by
    have hnodup : (a :: reached first acc).Nodup := List.nodup_cons.mpr ⟨hnew, h.nodup⟩
    have hsub := (hnodup.subperm (List.forall_mem_cons.mpr ⟨ha, h.known⟩)).length_le
    rwa [List.length_cons, reached, List.length_cons, List.length_map] at hsub
  have hne : root (tables.idxOf a) ≠ root (tables.idxOf b) := by
    rw [ne_eq, hroot a ha b hb]
    rintro (heq | ⟨hmem, -⟩)
    · exact hab heq
    · exact hnew hmem
  obtain ⟨htrue, -, -⟩ := UnionFind.unite_of_ne hrep (by omega) hne
  change (acc.2.unite (joinEdge tables rows a b).u (joinEdge tables rows a b).v).1 = true at htrue
  have hpick : acc.1.length < tables.length - 1 := by omega
  unfold JoinGraph.pickEdge
  rw [if_pos hpick]
  dsimp only
  rw [htrue, if_pos rfl]

end Kruskal

section Graph

def tablePairs : List TableName → List (TableName × TableName)
  | [] => []
  | t :: rest => rest.map (t, ·) ++ tablePairs rest

theorem tablePairs_cons_cons (a b : TableName) (rest : List TableName) :
    tablePairs (a :: b :: rest) =
      (a, b) :: (rest.map (a, ·) ++ rest.map (b, ·)) ++ tablePairs rest := by
  rw [tablePairs, tablePairs, List.map_cons, List.cons_append, List.cons_append, List.append_assoc]

theorem mem_tablePairs {tables : List TableName} {p : TableName × TableName}
    (h : p ∈ tablePairs tables) : p.1 ∈ tables ∧ p.2 ∈ tables := by
  induction tables with
  | nil => cases h
  | cons t rest ih =>
    rcases List.mem_append.mp h with h | h
    · obtain ⟨t', ht', rfl⟩ := List.mem_map.mp h
      exact ⟨List.mem_cons_self, List.mem_cons_of_mem _ ht'⟩
    · exact ⟨List.mem_cons_of_mem _ (ih h).1, List.mem_cons_of_mem _ (ih h).2⟩

theorem tablePairs_length_le (tables : List TableName) :
    (tablePairs tables).length ≤ tables.length * tables.length := by
  induction tables with
  | nil => exact Nat.zero_le _
  | cons t rest ih =>
    have hsquare : (rest.length + 1) * (rest.length + 1) =
        rest.length * rest.length + rest.length + (rest.length + 1) := by ring
    rw [tablePairs, List.length_append, List.length_map, List.length_cons, hsquare]
    omega

namespace JoinGraph

theorem addTables_spec (est : TableName → ℤ) (tables : List TableName) (g : JoinGraph)
    (hroom : g.nodes.length + tables.length ≤ MAX_NODES) :
    (tables.foldl (fun g t => g.addTable t.val (est t)) g).nodes =
        g.nodes ++ tables.map (fun t => (t, est t)) ∧
      (tables.foldl (fun g t => g.addTable t.val (est t)) g).edges = g.edges := by
  induction tables generalizing g with
  | nil => exact ⟨(List.append_nil _).symm, rfl⟩
  | cons t rest ih =>
    rw [List.length_cons] at hroom
    have hlt : g.nodes.length < MAX_NODES := by omega
    have hnodes : (g.addTable t.val (est t)).nodes = g.nodes ++ [(t, est t)] := by
      unfold addTable
      rw [dif_pos hlt]
      change g.nodes ++ [(snprintf 64 _ t.val, est t)] = _
      rw [snprintf_self]
    have hedges : (g.addTable t.val (est t)).edges = g.edges := by
      unfold addTable
      rw [dif_pos hlt]
    obtain ⟨hn, he⟩ := ih (g.addTable t.val (est t)) (by
      rw [hnodes, List.length_append, List.length_singleton]
      omega)
    rw [List.foldl_cons, hn, he, hnodes, hedges, List.append_assoc]
    exact ⟨rfl, rfl⟩

variable {tables : List TableName} {rows : TableName → ℤ} {g : JoinGraph}

theorem tableIndex_eq (hnodes : g.nodes = tables.map fun t => (t, rows t)) {t : TableName}
    (ht : t ∈ tables) : g.tableIndex t = some (tables.idxOf t) := by
  have hex : ∃ node ∈ tables.map (fun t => (t, rows t)), decide (node.1 = t) = true :=
    ⟨(t, rows t), List.mem_map_of_mem (f := fun t => (t, rows t)) ht, decide_eq_true rfl⟩
  unfold tableIndex
  rw [hnodes, List.findIdx?_eq_some_of_exists hex, List.findIdx_map]
  rfl

theorem rowCount_eq (hnodes : g.nodes = tables.map fun t => (t, rows t)) {t : TableName}
    (ht : t ∈ tables) : g.rowCount (tables.idxOf t) = rows t := by
  unfold rowCount
  rw [hnodes, List.getElem?_map, List.getElem?_idxOf ht]
  rfl

theorem addJoin_spec (hnodes : g.nodes = tables.map fun t => (t, rows t)) {a b : TableName}
    (ha : a ∈ tables) (hb : b ∈ tables) (hroom : g.edges.length < MAX_EDGES) :
    (g.addJoin a b).nodes = g.nodes ∧
      (g.addJoin a b).edges = g.edges ++ [joinEdge tables rows a b] := by
  unfold addJoin
  rw [tableIndex_eq hnodes ha, tableIndex_eq hnodes hb]
  dsimp only
  rw [dif_pos hroom]
  refine ⟨rfl, ?_⟩
  dsimp only
  rw [rowCount_eq hnodes ha, rowCount_eq hnodes hb]
  rfl

theorem addJoinRow_spec (hnodes : g.nodes = tables.map fun t => (t, rows t)) {a : TableName}
    (ha : a ∈ tables) (rest : List TableName) (hrest : ∀ t ∈ rest, t ∈ tables)
    (hroom : g.edges.length + rest.length ≤ MAX_EDGES) :
    (rest.foldl (fun g b => g.addJoin a b) g).nodes = g.nodes ∧
      (rest.foldl (fun g b => g.addJoin a b) g).edges =
        g.edges ++ rest.map (joinEdge tables rows a) := by
  induction rest generalizing g with
  | nil => exact ⟨rfl, (List.append_nil _).symm⟩
  | cons b rest ih =>
    obtain ⟨hb, hrest'⟩ := List.forall_mem_cons.mp hrest
    rw [List.length_cons] at hroom
    obtain ⟨hnodes', hedges'⟩ := addJoin_spec hnodes ha hb (by omega)
    obtain ⟨hn, he⟩ := ih (hnodes'.trans hnodes) hrest' (by
      rw [hedges', List.length_append, List.length_singleton]
      omega)
    rw [List.foldl_cons, hn, he, hnodes', hedges', List.append_assoc]
    exact ⟨rfl, rfl⟩

variable (rows) in
theorem addJoins_spec (hnodes : g.nodes = tables.map fun t => (t, rows t))
    (sub : List TableName) (hsub : ∀ t ∈ sub, t ∈ tables)
    (hroom : g.edges.length + (tablePairs sub).length ≤ MAX_EDGES) :
    (JoinOptimizer.addJoins sub g).nodes = g.nodes ∧
      (JoinOptimizer.addJoins sub g).edges =
        g.edges ++ (tablePairs sub).map fun p => joinEdge tables rows p.1 p.2 := by
  induction sub generalizing g with
  | nil => exact ⟨rfl, (List.append_nil _).symm⟩
  | cons a rest ih =>
    obtain ⟨ha, hrest⟩ := List.forall_mem_cons.mp hsub
    rw [tablePairs, List.length_append, List.length_map] at hroom
    obtain ⟨hnodes', hedges'⟩ := addJoinRow_spec hnodes ha rest hrest (by omega)
    obtain ⟨hn, he⟩ := ih (hnodes'.trans hnodes) hrest (by
      rw [hedges', List.length_append, List.length_map]
      omega)
    rw [JoinOptimizer.addJoins, hn, he, hnodes', hedges', tablePairs, List.map_append,
      List.map_map, List.append_assoc]
    exact ⟨rfl, rfl⟩

end JoinGraph

namespace JoinOptimizer

/-- Table names fit into the buffers of the plan. -/
theorem map_snprintf_val (first : TableName) (others : List TableName) :
    (first.val :: others.map CStr.val).map (snprintf 64 (by decide)) = first :: others := by
  rw [List.map_cons, List.map_map, snprintf_self]
  refine congrArg _ ((List.map_congr_left fun t _ => ?_).trans (List.map_id _))
  exact snprintf_self (by decide) t

/-- The tree of the plan is made of the sorted edges of all pairs. -/
theorem optimize_mstEdges (catalog : SystemCatalog) (disk : Disk) (first : TableName)
    (others : List TableName) (hlen : others.length ≤ 8) :
    (optimize catalog disk first.val (others.map CStr.val)).mstEdges =
      ((sortEdges ((tablePairs (first :: others)).map fun p => joinEdge (first :: others)
          (fun t => rowEstimate catalog disk t.val) p.1 p.2)).foldl
        (JoinGraph.pickEdge (others.length + 1)) ([], UnionFind.new (others.length + 1))).1 := by
  have hnames := map_snprintf_val first others
  have hgraph : (first.val :: others.map CStr.val).foldl
      (fun g t => g.addTable t (rowEstimate catalog disk t)) JoinGraph.new =
      (first :: others).foldl
        (fun g t => g.addTable t.val (rowEstimate catalog disk t.val)) JoinGraph.new := by
    rw [List.foldl_cons, List.foldl_cons, List.foldl_map]
  have hroom : (first :: others).length ≤ 9 := Nat.succ_le_succ hlen
  obtain ⟨hnodes, hedges⟩ := JoinGraph.addTables_spec (fun t => rowEstimate catalog disk t.val)
    (first :: others) JoinGraph.new (by
      change 0 + (first :: others).length ≤ 16
      omega)
  have hpairs := tablePairs_length_le (first :: others)
  have hsquare : (first :: others).length * (first :: others).length ≤ 9 * 9 :=
    Nat.mul_le_mul hroom hroom
  obtain ⟨hnodes', hedges'⟩ := JoinGraph.addJoins_spec (fun t => rowEstimate catalog disk t.val)
    hnodes (first :: others) (fun _ ht => ht) (by
      rw [hedges]
      change 0 + _ ≤ 256
      omega)
  have hcount : (addJoins (first :: others) ((first :: others).foldl
      (fun g t => g.addTable t.val (rowEstimate catalog disk t.val))
        JoinGraph.new)).nodes.length = others.length + 1 := by
    rw [hnodes', hnodes, List.length_append, List.length_map]
    exact Nat.zero_add _
  have htree : (optimize catalog disk first.val (others.map CStr.val)).mstEdges =
      (addJoins (first :: others) ((first :: others).foldl
        (fun g t => g.addTable t.val (rowEstimate catalog disk t.val))
          JoinGraph.new)).computeMST := by
    unfold optimize
    dsimp only
    rw [hnames, hgraph]
    split
    · rename_i hnil
      exact hnil.symm
    · rfl
  rw [htree]
  unfold JoinGraph.computeMST
  rw [hcount, hedges', hedges]
  rfl

theorem optimize_orderedTables {catalog : SystemCatalog} {disk : Disk} {first : TableName}
    {others : List TableName} {e : Edge} {rest : List Edge}
    (h : (optimize catalog disk first.val (others.map CStr.val)).mstEdges = e :: rest) :
    (optimize catalog disk first.val (others.map CStr.val)).orderedTables =
      e.tableU :: (e :: rest).map Edge.tableV := by
  unfold optimize at h ⊢
  dsimp only at h ⊢
  split at h
  · cases h
  · rename_i hmst
    rw [hmst] at h ⊢
    obtain ⟨rfl, rfl⟩ := List.cons.inj h
    rfl

theorem optimize_orderedTables_nil {catalog : SystemCatalog} {disk : Disk} {first : TableName}
    {others : List TableName}
    (h : (optimize catalog disk first.val (others.map CStr.val)).mstEdges = []) :
    (optimize catalog disk first.val (others.map CStr.val)).orderedTables = first :: others := by
  have hnames := map_snprintf_val first others
  unfold optimize at h ⊢
  dsimp only at h ⊢
  rw [hnames] at h ⊢
  generalize (addJoins _ _).computeMST = edges at h ⊢
  cases edges with
  | nil => rfl
  | cons e rest => cases h

/-- Two tables are joined in the order in which they are named, also if they are one. -/
theorem optimize_pair (catalog : SystemCatalog) (disk : Disk) (a b : TableName) :
    (optimize catalog disk a.val ([b].map CStr.val)).orderedTables = [a, b] := by
  have hmst := optimize_mstEdges catalog disk a [b] (Nat.succ_le_succ (Nat.zero_le 7))
  have hsorted : ∀ e : Edge, sortEdges [e] = [e] := fun _ => rfl
  have hpairs : ∀ edge : TableName × TableName → Edge,
      (tablePairs [a, b]).map edge = [edge (a, b)] := fun _ => rfl
  rw [hpairs, hsorted, List.foldl_cons, List.foldl_nil] at hmst
  by_cases hab : a = b
  · have hloop : ∀ w, (JoinGraph.pickEdge 2 ([], UnionFind.new 2) ⟨0, 0, w, a, b⟩).1 = [] :=
      fun _ => rfl
    rw [joinEdge, ← hab, List.idxOf_cons_self] at hmst
    rw [← hab] at hloop ⊢
    exact optimize_orderedTables_nil (hmst.trans (hloop _))
  · have hpick : ∀ w, (JoinGraph.pickEdge 2 ([], UnionFind.new 2) ⟨0, 1, w, a, b⟩).1 =
        [⟨0, 1, w, a, b⟩] := fun _ => rfl
    rw [joinEdge, List.idxOf_cons_self, List.idxOf_cons_ne _ hab, List.idxOf_cons_self] at hmst
    rw [optimize_orderedTables (hmst.trans (hpick _))]
    rfl

def rowCost (catalog : SystemCatalog) (disk : Disk) (t : TableName) : ℤ :=
  floatOfInt (rowEstimate catalog disk t.val)

theorem joinEdge_weight (tables : List TableName) (rows : TableName → ℤ) (a b : TableName) :
    (joinEdge tables rows a b).weight = min (floatOfInt (rows a)) (floatOfInt (rows b)) := by
  change floatOfInt (if rows a < rows b then rows a else rows b) = _
  split
  · rename_i hlt
    rw [min_eq_left (floatOfInt_mono hlt.le)]
  · rename_i hlt
    rw [min_eq_right (floatOfInt_mono (not_lt.mp hlt))]

section Orientation
variable {first second : TableName} {others : List TableName} {rows : TableName → ℤ} {least : ℤ}

/-- The edges of all pairs that cost the least, in the order in which they were added. -/
def lightPairs (rows : TableName → ℤ) (least : ℤ) (pairs : List (TableName × TableName)) :
    List (TableName × TableName) :=
  pairs.filter fun p => min (floatOfInt (rows p.1)) (floatOfInt (rows p.2)) = least

variable (rows) in
/-- With the least table first or second, the tree grows from the first table. -/
theorem grown_of_least (hnodup : (first :: second :: others).Nodup)
    (hleast : ∀ t ∈ first :: second :: others, least ≤ floatOfInt (rows t))
    (hat : floatOfInt (rows first) = least ∨ floatOfInt (rows second) = least) :
    ∃ before after, lightPairs rows least (tablePairs (first :: second :: others)) =
        before ++ after ∧
      Grown (first :: second :: others) first (pickPairs (first :: second :: others) rows before
        ([], UnionFind.new (first :: second :: others).length)) ∧
      ∀ t ∈ first :: second :: others, t ∈ reached first (pickPairs (first :: second :: others)
        rows before ([], UnionFind.new (first :: second :: others).length)) := by
  have hfirst := hleast first (by simp)
  have hsecond := hleast second (by simp)
  have hlight : ∀ t, least ≤ floatOfInt (rows t) → ∀ t', floatOfInt (rows t') = least →
      min (floatOfInt (rows t')) (floatOfInt (rows t)) = least := by
    intro t ht t' ht'
    rw [ht', min_eq_left ht]
  have hpair : min (floatOfInt (rows first)) (floatOfInt (rows second)) = least := by
    rcases hat with hat | hat
    · exact hlight second hsecond first hat
    · rw [min_comm]
      exact hlight first hfirst second hat
  have hsplit : lightPairs rows least (tablePairs (first :: second :: others)) =
      ((first, second) :: (lightPairs rows least (others.map (first, ·)) ++
        lightPairs rows least (others.map (second, ·)))) ++
        lightPairs rows least (tablePairs others) := by
    have htrue : decide (min (floatOfInt (rows first)) (floatOfInt (rows second)) = least) = true :=
      decide_eq_true hpair
    unfold lightPairs
    rw [tablePairs_cons_cons, List.filter_append,
      List.filter_cons_of_pos (a := (first, second)) htrue, List.filter_append]
  have hnew : Grown (first :: second :: others) first
      ([], UnionFind.new (first :: second :: others).length) := grown_new List.mem_cons_self
  have hstart := mem_reached_pick rows hnew (a := first) (b := second)
    List.mem_cons_self (by simp)
  obtain ⟨hgrown, hacc⟩ := (hnew.pick rows (a := first) (b := second)
    List.mem_cons_self (by simp)).1.picks rows
    (lightPairs rows least (others.map (first, ·)) ++
      lightPairs rows least (others.map (second, ·))) (by
    intro p hp
    rcases List.mem_append.mp hp with hp | hp
    · obtain ⟨t, ht, rfl⟩ := List.mem_map.mp (List.mem_filter.mp hp).1
      exact ⟨(hstart first).mpr (Or.inl List.mem_cons_self), by simp [ht]⟩
    · obtain ⟨t, ht, rfl⟩ := List.mem_map.mp (List.mem_filter.mp hp).1
      exact ⟨(hstart second).mpr (Or.inr rfl), by simp [ht]⟩)
  refine ⟨_, _, hsplit, hgrown, ?_⟩
  intro t ht
  refine (hacc t).mpr ?_
  rcases List.mem_cons.mp ht with rfl | ht
  · exact Or.inl ((hstart t).mpr (Or.inl List.mem_cons_self))
  · rcases List.mem_cons.mp ht with rfl | hin
    · exact Or.inl ((hstart t).mpr (Or.inr rfl))
    · right
      have hwt := hleast t (by simp [hin])
      rcases hat with hat | hat
      · exact ⟨(first, t), List.mem_append_left _ (List.mem_filter.mpr
          ⟨List.mem_map_of_mem hin, decide_eq_true (hlight t hwt first hat)⟩), rfl⟩
      · exact ⟨(second, t), List.mem_append_right _ (List.mem_filter.mpr
          ⟨List.mem_map_of_mem hin, decide_eq_true (hlight t hwt second hat)⟩), rfl⟩

/-- The lightest pairs of a heavier table are those with the least of the others. -/
theorem lightPairs_row (hleast : ∀ t ∈ others, least ≤ floatOfInt (rows t)) {a : TableName}
    (ha : least < floatOfInt (rows a)) : lightPairs rows least (others.map (a, ·)) =
      (others.filter fun t => floatOfInt (rows t) = least).map (a, ·) := by
  unfold lightPairs
  rw [List.filter_map]
  congr 1
  apply List.filter_congr
  intro t ht
  have hle := hleast t ht
  refine decide_eq_decide.mpr ?_
  change min (floatOfInt (rows a)) (floatOfInt (rows t)) = least ↔ _
  omega

variable (rows) in
/-- With the least tables among the others only, one of them is reached from the first table
and again from the second one. -/
theorem picked_twice (hnodup : (first :: second :: others).Nodup)
    (hfirst : least < floatOfInt (rows first)) (hsecond : least < floatOfInt (rows second))
    (hleast : ∀ t ∈ others, least ≤ floatOfInt (rows t))
    (hat : ∃ t ∈ others, floatOfInt (rows t) = least) :
    ∃ before a b after, lightPairs rows least (tablePairs (first :: second :: others)) =
        before ++ (a, b) :: after ∧
      b ∈ (pickPairs (first :: second :: others) rows before
        ([], UnionFind.new (first :: second :: others).length)).1.map Edge.tableV ∧
      (JoinGraph.pickEdge (first :: second :: others).length
        (pickPairs (first :: second :: others) rows before
          ([], UnionFind.new (first :: second :: others).length))
        (joinEdge (first :: second :: others) rows a b)).1 =
      (pickPairs (first :: second :: others) rows before
        ([], UnionFind.new (first :: second :: others).length)).1 ++
          [joinEdge (first :: second :: others) rows a b] := by
  obtain ⟨b, more, hmore⟩ : ∃ b more,
      (others.filter fun t => floatOfInt (rows t) = least) = b :: more := by
    obtain ⟨t, ht, heq⟩ := hat
    exact List.exists_cons_of_ne_nil
      (List.ne_nil_of_mem (List.mem_filter.mpr ⟨ht, decide_eq_true heq⟩))
  have hsplit : lightPairs rows least (tablePairs (first :: second :: others)) =
      (b :: more).map (first, ·) ++ (second, b) :: (more.map (second, ·) ++
        lightPairs rows least (tablePairs others)) := by
    have hfalse : ¬ decide (min (floatOfInt (rows first)) (floatOfInt (rows second)) = least) =
        true := by
      rw [decide_eq_true_iff]
      omega
    have hfirst' := lightPairs_row hleast hfirst
    have hsecond' := lightPairs_row hleast hsecond
    rw [hmore] at hfirst' hsecond'
    unfold lightPairs at hfirst' hsecond' ⊢
    rw [tablePairs_cons_cons, List.filter_append,
      List.filter_cons_of_neg (a := (first, second)) hfalse, List.filter_append, hfirst', hsecond',
      List.map_cons (f := (second, ·)), List.append_assoc, List.cons_append]
  have hothers : ∀ t ∈ b :: more, t ∈ others := by
    intro t ht
    rw [← hmore] at ht
    exact (List.mem_filter.mp ht).1
  obtain ⟨hnotfirst, hrest⟩ := List.nodup_cons.mp hnodup
  obtain ⟨hnotsecond, -⟩ := List.nodup_cons.mp hrest
  have hb := hothers b List.mem_cons_self
  have hnew : Grown (first :: second :: others) first
      ([], UnionFind.new (first :: second :: others).length) := grown_new List.mem_cons_self
  obtain ⟨hgrown, hacc⟩ := hnew.picks rows ((b :: more).map (first, ·)) (by
    intro p hp
    obtain ⟨t, ht, rfl⟩ := List.mem_map.mp hp
    exact ⟨List.mem_cons_self, by simp [hothers t ht]⟩)
  refine ⟨(b :: more).map (first, ·), second, b, _, hsplit, ?_, ?_⟩
  · have hreached := (hacc b).mpr (Or.inr ⟨(first, b), by simp, rfl⟩)
    rcases List.mem_cons.mp hreached with rfl | hmem
    · exact absurd (List.mem_cons_of_mem _ hb) hnotfirst
    · exact hmem
  · refine hgrown.pick_new (by simp) (by simp [hb]) ?_ ?_
    · rintro rfl
      exact hnotsecond hb
    · rw [hacc]
      rintro (hmem | ⟨p, hp, hp2⟩)
      · rw [List.mem_singleton.mp hmem] at hnotfirst
        exact hnotfirst List.mem_cons_self
      · obtain ⟨t, ht, rfl⟩ := List.mem_map.mp hp
        rw [← hp2] at hnotsecond
        exact hnotsecond (hothers t ht)

end Orientation

/-- The tree starts with the picks along the light pairs. -/
theorem optimize_light (catalog : SystemCatalog) (disk : Disk) (first second : TableName)
    (others : List TableName) (hlen : others.length ≤ 7) {least : ℤ}
    (hleast : ∀ t ∈ first :: second :: others, least ≤ rowCost catalog disk t)
    {before after : List (TableName × TableName)}
    (hsplit : lightPairs (fun t => rowEstimate catalog disk t.val) least
      (tablePairs (first :: second :: others)) = before ++ after) :
    ∃ edges : List Edge,
      (optimize catalog disk first.val ((second :: others).map CStr.val)).mstEdges =
        (((after.map fun p => joinEdge (first :: second :: others)
          (fun t => rowEstimate catalog disk t.val) p.1 p.2) ++ edges).foldl
          (JoinGraph.pickEdge (first :: second :: others).length)
          (pickPairs (first :: second :: others) (fun t => rowEstimate catalog disk t.val) before
            ([], UnionFind.new (first :: second :: others).length))).1 := by
  have hmst := optimize_mstEdges catalog disk first (second :: others) (Nat.succ_le_succ hlen)
  obtain ⟨edges, hsorted⟩ := sortRounds_lightest least
    ((tablePairs (first :: second :: others)).map fun p => joinEdge (first :: second :: others)
      (fun t => rowEstimate catalog disk t.val) p.1 p.2) (by
    intro e he
    obtain ⟨p, hp, rfl⟩ := List.mem_map.mp he
    obtain ⟨ha, hb⟩ := mem_tablePairs hp
    rw [joinEdge_weight]
    exact le_min (hleast p.1 ha) (hleast p.2 hb))
  have hfilter : (((tablePairs (first :: second :: others)).map fun p =>
      joinEdge (first :: second :: others) (fun t => rowEstimate catalog disk t.val) p.1 p.2).filter
        fun e => e.weight = least) = (before ++ after).map fun p =>
      joinEdge (first :: second :: others) (fun t => rowEstimate catalog disk t.val) p.1 p.2 := by
    rw [List.filter_map, ← hsplit]
    unfold lightPairs
    congr 1
    apply List.filter_congr
    intro p _
    refine decide_eq_decide.mpr ?_
    rw [joinEdge_weight]
  refine ⟨edges, ?_⟩
  rw [hmst, sortEdges, hsorted, hfilter, List.map_append, List.append_assoc, List.foldl_append]
  rfl

/-- The order has every requested table once, and each table after the first is joined by
an edge of the tree to a table before it. -/
def Linearises (requested : List TableName) (plan : JoinPlan) : Prop :=
  plan.orderedTables.Perm requested ∧
  ∀ before t after, plan.orderedTables = before ++ t :: after → before ≠ [] →
    ∃ e ∈ plan.mstEdges, (e.tableU ∈ before ∧ e.tableV = t) ∨ (e.tableV ∈ before ∧ e.tableU = t)

theorem linearises_of_grown {tables : List TableName} {first : TableName}
    {acc : List Edge × UnionFind} (h : Grown tables first acc)
    (hall : ∀ t ∈ tables, t ∈ reached first acc) (hnodup : tables.Nodup) :
    Linearises tables ⟨reached first acc, acc.1⟩ := by
  refine ⟨(List.perm_ext_iff_of_nodup h.nodup hnodup).mpr fun t => ⟨h.known t, hall t⟩, ?_⟩
  intro before t after hsplit hne
  cases before with
  | nil => exact absurd rfl hne
  | cons first' before =>
    obtain ⟨rfl, hmap⟩ : first = first' ∧ acc.1.map Edge.tableV = before ++ t :: after :=
      List.cons.inj hsplit
    obtain ⟨edges, rest, hedges, rfl, hrest⟩ := List.map_eq_append_iff.mp hmap
    obtain ⟨e, edges', rfl, rfl, rfl⟩ := List.map_eq_cons_iff.mp hrest
    refine ⟨e, ?_, Or.inl ⟨h.linked edges e edges' hedges, rfl⟩⟩
    change e ∈ acc.1
    rw [hedges]
    simp

/-- A tree that grows from the first table gives the order in which it grows. -/
theorem optimize_of_grown {catalog : SystemCatalog} {disk : Disk} {first : TableName}
    {others tables : List TableName} {acc : List Edge × UnionFind} (h : Grown tables first acc)
    (hmst : (optimize catalog disk first.val (others.map CStr.val)).mstEdges = acc.1)
    (hne : acc.1 ≠ []) :
    optimize catalog disk first.val (others.map CStr.val) = ⟨reached first acc, acc.1⟩ := by
  cases hacc : acc.1 with
  | nil => exact absurd hacc hne
  | cons e rest =>
    have hstart : e.tableU = first := List.mem_singleton.mp (h.linked [] e rest hacc)
    have hordered := optimize_orderedTables (hmst.trans hacc)
    rw [hstart, ← hacc] at hordered
    have hplan : ∀ plan : JoinPlan, plan = ⟨plan.orderedTables, plan.mstEdges⟩ := fun _ => rfl
    rw [hplan (optimize _ _ _ _), hordered, hmst, hacc]
    exact congrArg (fun edges => JoinPlan.mk (first :: edges.map Edge.tableV) (e :: rest)) hacc.symm

section Plan
variable (catalog : SystemCatalog) (disk : Disk) {first second : TableName}
  {others : List TableName} {least : ℤ}

/-- With the least tables among the others only, the order has one of them twice. -/
theorem optimize_not_nodup (hnodup : (first :: second :: others).Nodup) (hlen : others.length ≤ 7)
    (hfirst : least < rowCost catalog disk first) (hsecond : least < rowCost catalog disk second)
    (hleast : ∀ t ∈ first :: second :: others, least ≤ rowCost catalog disk t)
    (hat : ∃ t ∈ others, rowCost catalog disk t = least) :
    ¬ (optimize catalog disk first.val
      ((second :: others).map CStr.val)).orderedTables.Nodup := by
  intro hplan
  obtain ⟨before, a, b, after, hsplit, hb, hpick⟩ := picked_twice
    (fun t => rowEstimate catalog disk t.val) hnodup hfirst hsecond
    (fun t ht => hleast t (by simp [ht])) hat
  obtain ⟨edges, hmst⟩ := optimize_light catalog disk first second others hlen hleast hsplit
  rw [List.map_cons (a := (a, b)), List.cons_append, List.foldl_cons] at hmst
  obtain ⟨more, hmore⟩ := picks_prefix ((after.map fun p =>
    joinEdge (first :: second :: others) (fun t => rowEstimate catalog disk t.val) p.1 p.2) ++
      edges) (first :: second :: others).length (JoinGraph.pickEdge
        (first :: second :: others).length (pickPairs (first :: second :: others)
          (fun t => rowEstimate catalog disk t.val) before
          ([], UnionFind.new (first :: second :: others).length))
        (joinEdge (first :: second :: others) (fun t => rowEstimate catalog disk t.val) a b))
  rw [← hmst, hpick] at hmore
  cases hcases : (optimize catalog disk first.val
      ((second :: others).map CStr.val)).mstEdges with
  | nil =>
    rw [hcases] at hmore
    simp at hmore
  | cons e rest =>
    rw [optimize_orderedTables hcases, ← hcases, ← hmore, List.map_append, List.map_append]
      at hplan
    have hdisjoint := (List.nodup_append.mp (List.nodup_append.mp
      (List.nodup_cons.mp hplan).2).1).2.2
    exact hdisjoint b hb b (by simp [joinEdge]) rfl

theorem optimize_linearises (hnodup : (first :: second :: others).Nodup) (hlen : others.length ≤ 7)
    (hleast : ∀ t ∈ first :: second :: others, least ≤ rowCost catalog disk t)
    (hat : rowCost catalog disk first = least ∨ rowCost catalog disk second = least) :
    Linearises (first :: second :: others)
      (optimize catalog disk first.val ((second :: others).map CStr.val)) := by
  obtain ⟨before, after, hsplit, hgrown, hall⟩ := grown_of_least
    (fun t => rowEstimate catalog disk t.val) hnodup hleast hat
  obtain ⟨edges, hmst⟩ := optimize_light catalog disk first second others hlen hleast hsplit
  have hfull := (hnodup.subperm hall).length_le
  rw [reached, @List.length_cons _ _ (List.map _ _), List.length_map] at hfull
  rw [picks_of_full _ _ (Nat.sub_le_of_le_add hfull)] at hmst
  rw [optimize_of_grown hgrown hmst (by
    intro hnil
    rw [hnil, List.length_nil, List.length_cons, List.length_cons] at hfull
    omega)]
  exact linearises_of_grown hgrown hall hnodup

end Plan

/-- The plan of two to nine different tables is a linear order of its tree exactly when the
first or the second table has the least rows of all, as `float` costs. -/
theorem optimize_linearises_iff (catalog : SystemCatalog) (disk : Disk)
    (first second : TableName) (others : List TableName)
    (hnodup : (first :: second :: others).Nodup) (hlen : others.length ≤ 7) :
    Linearises (first :: second :: others)
        (optimize catalog disk first.val ((second :: others).map CStr.val)) ↔
      ∃ t ∈ [first, second], ∀ t' ∈ first :: second :: others,
        rowCost catalog disk t ≤ rowCost catalog disk t' := by
  obtain ⟨c, hc, hleast⟩ := Finset.exists_min_image (first :: second :: others).toFinset
    (rowCost catalog disk) ⟨first, by simp⟩
  replace hleast : ∀ t ∈ first :: second :: others, rowCost catalog disk c ≤
      rowCost catalog disk t := fun t ht => hleast t (List.mem_toFinset.mpr ht)
  constructor
  · intro hlin
    by_contra hnone
    have hlater : ∀ t ∈ [first, second], rowCost catalog disk c < rowCost catalog disk t := by
      intro t ht
      by_contra hle
      exact hnone ⟨t, ht, fun t' ht' => (not_lt.mp hle).trans (hleast t' ht')⟩
    have hcothers : c ∈ others := by
      rcases List.mem_cons.mp (List.mem_toFinset.mp hc) with rfl | hc
      · exact absurd (hlater c (by simp)) (lt_irrefl _)
      · rcases List.mem_cons.mp hc with rfl | hc
        · exact absurd (hlater c (by simp)) (lt_irrefl _)
        · exact hc
    exact optimize_not_nodup catalog disk hnodup hlen (hlater first (by simp))
      (hlater second (by simp)) hleast ⟨c, hcothers, rfl⟩ (hlin.1.nodup_iff.mpr hnodup)
  · intro ⟨t, ht, hmin⟩
    have hct := hmin c (List.mem_toFinset.mp hc)
    apply optimize_linearises catalog disk hnodup hlen hleast
    rcases List.mem_cons.mp ht with rfl | ht
    · exact Or.inl (le_antisymm hct (hleast t (by simp)))
    · rw [List.mem_singleton.mp ht] at hct
      exact Or.inr (le_antisymm hct (hleast second (by simp)))

def mainCatalog : SystemCatalog :=
  ((SystemCatalog.new.registerTable makeCustomerSchema).registerTable
    makeOrdersSchema).registerTable makeLineitemSchema

def emptyLineitem : Disk where
  files path :=
    if path = makeLineitemSchema.filePath then none else some (List.replicate PAGE_SIZE 0)
  faults := []

theorem optimize_linearises_iff_emptySecond :
    [makeOrdersSchema.tableName, makeLineitemSchema.tableName,
      makeCustomerSchema.tableName].Nodup ∧
    Linearises [makeOrdersSchema.tableName, makeLineitemSchema.tableName,
        makeCustomerSchema.tableName]
      (optimize mainCatalog emptyLineitem makeOrdersSchema.tableName.val
        [makeLineitemSchema.tableName.val, makeCustomerSchema.tableName.val]) :=
  ⟨by decide, (optimize_linearises_iff mainCatalog emptyLineitem makeOrdersSchema.tableName
    makeLineitemSchema.tableName [makeCustomerSchema.tableName] (by decide) (by decide)).mpr
      ⟨makeLineitemSchema.tableName, by decide, by decide +kernel⟩⟩

/-- The empty table is requested last; the plan has it twice and leaves out `orders`. -/
theorem optimize_not_linearises :
    (optimize mainCatalog emptyLineitem makeCustomerSchema.tableName.val
      [makeOrdersSchema.tableName.val, makeLineitemSchema.tableName.val]).orderedTables =
        [makeCustomerSchema.tableName, makeLineitemSchema.tableName,
          makeLineitemSchema.tableName] ∧
    ¬ Linearises [makeCustomerSchema.tableName, makeOrdersSchema.tableName,
        makeLineitemSchema.tableName]
      (optimize mainCatalog emptyLineitem makeCustomerSchema.tableName.val
        [makeOrdersSchema.tableName.val, makeLineitemSchema.tableName.val]) := by
  have hplan : (optimize mainCatalog emptyLineitem makeCustomerSchema.tableName.val
      [makeOrdersSchema.tableName.val, makeLineitemSchema.tableName.val]).orderedTables =
        [makeCustomerSchema.tableName, makeLineitemSchema.tableName,
          makeLineitemSchema.tableName] := by decide +kernel
  refine ⟨hplan, fun hlin => ?_⟩
  have hmem : makeOrdersSchema.tableName ∈ [makeCustomerSchema.tableName,
      makeLineitemSchema.tableName, makeLineitemSchema.tableName] := by
    rw [← hplan]
    exact hlin.1.mem_iff.mpr (by simp)
  revert hmem
  decide

end JoinOptimizer

end Graph

end NanoDB
