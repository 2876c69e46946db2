import NanoDB.AVLBalance
import NanoDB.Library.MapCalls

/-!
The tree as a finite map. The abstract map is a function that every call updates at
its own key; the tree's look-up agrees with it after any calls, and the in-order
traversal, the range query and the counter are those of the live keys.
-/
namespace NanoDB.AVLTree

open CTypes OrderedMap MapCalls AVLNode

variable {T : Type}

def Op.key : Op T → Int32
  | .insert key _ => key
  | .remove key => key

def Op.value : Op T → Option T
  | .insert _ val => some val
  | .remove _ => none

def live (ops : List (Op T)) : Int32 → Option T :=
  ops.foldl (fun m op => Function.update m op.key op.value) fun _ => none

theorem live_append (ops : List (Op T)) (op : Op T) (key : Int32) :
    live (ops ++ [op]) key = if key = op.key then op.value else live ops key := by
  unfold live
  rw [List.foldl_append]
  exact Function.update_apply _ _ _ _

def Op.call : Op T → Call Int32 T
  | .insert key val => .put key val
  | .remove key => .remove key

theorem live_eq (ops : List (Op T)) (key : Int32) :
    live ops key = MapCalls.live (ops.map Op.call) key := by
  induction ops using List.reverseRecOn with
  | nil => rfl
  | append_singleton ops op ih =>
    rw [live_append, List.map_append, List.map_singleton, live_concat, ih]
    cases op <;> rfl

/-- A key is live with a value exactly when an insertion of both is its last call. -/
theorem live_eq_some_iff (ops : List (Op T)) (key : Int32) (val : T) :
    live ops key = some val ↔ ∃ before after, ops = before ++ .insert key val :: after ∧
      ∀ op ∈ after, op.key ≠ key := by
  have hkey : ∀ op : Op T, op.call.key = op.key := fun op => by cases op <;> rfl
  rw [live_eq, MapCalls.live_eq_some_iff]
  constructor
  · intro ⟨before, after, heq, hafter⟩
    obtain ⟨ops₁, rest, rfl, rfl, hrest⟩ := List.map_eq_append_iff.mp heq
    obtain ⟨op, ops₂, rfl, hop, rfl⟩ := List.map_eq_cons_iff.mp hrest
    refine ⟨ops₁, ops₂, ?_, ?_⟩
    · cases op with
      | insert k v =>
        obtain ⟨rfl, rfl⟩ := Call.put.inj hop
        rfl
      | remove k => cases hop
    · intro op' hop'
      rw [← hkey]
      exact hafter _ (List.mem_map_of_mem hop')
  · intro ⟨before, after, heq, hafter⟩
    refine ⟨before.map Op.call, after.map Op.call, ?_, ?_⟩
    · rw [heq, List.map_append, List.map_cons]
      rfl
    · intro c hc
      obtain ⟨op, hop, rfl⟩ := List.mem_map.mp hc
      rw [hkey]
      exact hafter op hop

section Refinement

theorem search_eq_lookup {t : AVLTree T} (h : t.Invariant) (key : Int32) :
    t.search key = t.root.entries.lookup key := find_eq_lookup h.ordered key

/-- One call changes the look-up at its own key only. -/
theorem search_step {t : AVLTree T} (h : t.Invariant) (op : Op T) (key : Int32) :
    (t.step op).search key = if key = op.key then op.value else t.search key := by
  rw [search_eq_lookup (h.step op), search_eq_lookup h]
  cases op with
  | insert k v =>
    change (t.root.insert k v t.size).1.entries.lookup key = _
    rw [entries_insert h.ordered, lookup_put]
    rfl
  | remove k =>
    change (t.root.remove k t.size).1.entries.lookup key = _
    rw [entries_remove h.ordered, lookup_remove]
    rfl

theorem search_run (ops : List (Op T)) (key : Int32) : (run ops).search key = live ops key := by
  induction ops using List.reverseRecOn with
  | nil => rfl
  | append_singleton ops op ih =>
    rw [live_append, ← ih, ← search_step (run_invariant ops), run, run, List.foldl_append]
    rfl

end Refinement

/-- The keys of the entries are the live keys, each once. -/
theorem ncard_live (ops : List (Op T)) :
    {key | ∃ val, live ops key = some val}.ncard = (run ops).root.entries.length := by
  have h := run_invariant ops
  have hasc := (isSearchTree_iff _).mp h.ordered
  have hset : {key | ∃ val, live ops key = some val} =
      (((run ops).root.entries.map Prod.fst).toFinset : Set Int32) := by
    ext key
    simp only [Set.mem_ofPred_eq, List.coe_toFinset, List.mem_map]
    constructor
    · intro ⟨val, hval⟩
      rw [← search_run, search_eq_lookup h] at hval
      exact ⟨(key, val), (mem_iff_lookup hasc key val).mpr hval, rfl⟩
    · intro ⟨e, he, hkey⟩
      refine ⟨e.2, ?_⟩
      rw [← search_run, search_eq_lookup h, ← hkey]
      exact (mem_iff_lookup hasc e.1 e.2).mp he
  have hnodup : ((run ops).root.entries.map Prod.fst).Nodup := by
    refine List.Pairwise.map Prod.fst ?_ hasc
    intro a b hlt
    exact hlt.ne
  rw [hset, Set.ncard_coe_finset, List.toFinset_card_of_nodup hnodup, List.length_map]

/-- After any calls the tree is the finite map of the live keys: the look-up finds the
value of a key's last call if that was an insertion, the traversal calls back for exactly
the live keys in ascending order, and the counter is their number. -/
theorem run_refines_map (ops : List (Op T)) :
    (∀ key val, (run ops).search key = some val ↔
      ∃ before after, ops = before ++ .insert key val :: after ∧ ∀ op ∈ after, op.key ≠ key) ∧
    (∃ visited : List (Int32 × T),
      (∀ (S : Type) (fn : Int32 → T → S → S) (s : S),
        (run ops).inOrder fn s = visited.foldl (fun s e => fn e.1 e.2 s) s) ∧
      (visited.map Prod.fst).Pairwise (· < ·) ∧
      ∀ key val, (key, val) ∈ visited ↔ live ops key = some val) ∧
    (run ops).size = ({key | ∃ val, live ops key = some val}.ncard : ℤ) := by
  have h := run_invariant ops
  have hasc := (isSearchTree_iff _).mp h.ordered
  refine ⟨?_, ⟨(run ops).root.entries, ?_, ?_, ?_⟩, ?_⟩
  · intro key val
    rw [search_run]
    exact live_eq_some_iff ops key val
  · intro S fn s
    exact inOrder_eq_foldl fn _ s
  · exact List.Pairwise.map Prod.fst (fun _ _ hlt => hlt) hasc
  · intro key val
    rw [← search_run, search_eq_lookup h]
    exact mem_iff_lookup hasc key val
  · rw [ncard_live]
    exact h.counted

/-- The range query calls back for exactly the live keys of the range in ascending order,
as the whole traversal does that skips every other key. -/
theorem run_rangeQuery (ops : List (Op T)) (lo hi : Int32) :
    (∃ visited : List (Int32 × T),
      (∀ (S : Type) (fn : Int32 → T → S → S) (s : S),
        (run ops).rangeQuery lo hi fn s = visited.foldl (fun s e => fn e.1 e.2 s) s) ∧
      (visited.map Prod.fst).Pairwise (· < ·) ∧
      ∀ key val, (key, val) ∈ visited ↔ live ops key = some val ∧ lo ≤ key ∧ key ≤ hi) ∧
    ∀ (S : Type) (fn : Int32 → T → S → S) (s : S), (run ops).rangeQuery lo hi fn s =
      (run ops).inOrder (fun k v s => if lo ≤ k ∧ k ≤ hi then fn k v s else s) s := by
  have h := run_invariant ops
  have hasc := (isSearchTree_iff _).mp h.ordered
  have hquery : ∀ (S : Type) (fn : Int32 → T → S → S) (s : S),
      (run ops).rangeQuery lo hi fn s =
        ((run ops).root.entries.filter fun e => lo ≤ e.1 ∧ e.1 ≤ hi).foldl
          (fun s e => fn e.1 e.2 s) s :=
    fun S fn s => rangeQuery_eq_foldl lo hi fn h.ordered s
  refine ⟨⟨(run ops).root.entries.filter fun e => lo ≤ e.1 ∧ e.1 ≤ hi, hquery, ?_, ?_⟩, ?_⟩
  · exact List.Pairwise.map Prod.fst (fun _ _ hlt => hlt) (hasc.filter _)
  · intro key val
    rw [List.mem_filter, mem_iff_lookup hasc, ← search_eq_lookup h, search_run]
    simp
  · intro S fn s
    rw [hquery, List.foldl_filter]
    change _ = AVLNode.inOrder _ (run ops).root s
    rw [inOrder_eq_foldl]
    congr 1
    funext s e
    simp

end NanoDB.AVLTree
