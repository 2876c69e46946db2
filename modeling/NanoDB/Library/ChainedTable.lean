import Mathlib.Data.List.Nodup
import NanoDB.Library.MapCalls

/-!
Hash tables with separate chaining, for any key type and any hash function.
A bucket is the list of its nodes from the chain's head on. `WellPlaced` says
that every node is in the bucket of its key and that no chain repeats a key;
under it the table reads as a finite map, and after any calls it is the one they make.
-/
namespace ChainedTable

open MapCalls

variable {K V : Type}

structure Table (K V : Type) where
  buckets : ℕ → List (K × V)
  bucketCount : ℕ
  size : ℕ

namespace Table

def new (bucketCount : ℕ) : Table K V := ⟨fun _ => [], bucketCount, 0⟩

def index (hash : K → ℕ) (t : Table K V) (key : K) : ℕ := hash key % t.bucketCount

end Table

/-- Every node is in its key's bucket and no chain holds a key twice. -/
structure WellPlaced (hash : K → ℕ) (t : Table K V) : Prop where
  placed : ∀ i, ∀ node ∈ t.buckets i, t.index hash node.1 = i
  nodup : ∀ i, ((t.buckets i).map Prod.fst).Nodup

theorem index_lt (hash : K → ℕ) (t : Table K V) (hpos : 0 < t.bucketCount) (key : K) :
    t.index hash key < t.bucketCount :=
  Nat.mod_lt _ hpos

theorem index_congr {hash : K → ℕ} {t t' : Table K V} (h : t'.bucketCount = t.bucketCount)
    (key : K) : t'.index hash key = t.index hash key := by
  unfold Table.index
  rw [h]

theorem wellPlaced_new (hash : K → ℕ) (n : ℕ) : WellPlaced hash (Table.new n : Table K V) :=
  ⟨by simp [Table.new], by simp [Table.new]⟩

/-- Replacing one chain by another one of keys of the same bucket. -/
theorem WellPlaced.update {hash : K → ℕ} {t t' : Table K V} (h : WellPlaced hash t)
    {i : ℕ} {chain : List (K × V)} (hcount : t'.bucketCount = t.bucketCount)
    (hbuckets : t'.buckets = Function.update t.buckets i chain)
    (hplaced : ∀ node ∈ chain, t.index hash node.1 = i)
    (hnodup : (chain.map Prod.fst).Nodup) : WellPlaced hash t' := by
  constructor
  · intro j node hnode
    rw [index_congr hcount]
    rw [hbuckets] at hnode
    by_cases hj : j = i
    · subst j
      rw [Function.update_self] at hnode
      exact hplaced node hnode
    · rw [Function.update_of_ne hj] at hnode
      exact h.placed j node hnode
  · intro j
    rw [hbuckets]
    by_cases hj : j = i
    · subst j
      rw [Function.update_self]
      exact hnodup
    · rw [Function.update_of_ne hj]
      exact h.nodup j

/-- A chain whose keys are those of a placed chain stays placed. -/
private theorem placed_of_keys {hash : K → ℕ} {t : Table K V} (h : WellPlaced hash t)
    {i : ℕ} {chain : List (K × V)}
    (hkeys : ∀ k ∈ chain.map Prod.fst, k ∈ (t.buckets i).map Prod.fst) :
    ∀ node ∈ chain, t.index hash node.1 = i := by
  intro node hnode
  obtain ⟨old, hold, heq⟩ := List.mem_map.mp (hkeys node.1 (List.mem_map_of_mem hnode))
  rw [← heq]
  exact h.placed i old hold

variable [DecidableEq K]

def chainGet (key : K) : List (K × V) → Option V
  | [] => none
  | node :: rest => if node.1 = key then some node.2 else chainGet key rest

def chainSet (key : K) (val : V) : List (K × V) → List (K × V)
  | [] => []
  | node :: rest => if node.1 = key then (node.1, val) :: rest else node :: chainSet key val rest

def chainRemove (key : K) : List (K × V) → List (K × V)
  | [] => []
  | node :: rest => if node.1 = key then rest else node :: chainRemove key rest

namespace Table

def get (hash : K → ℕ) (t : Table K V) (key : K) : Option V :=
  chainGet key (t.buckets (t.index hash key))

def put (hash : K → ℕ) (t : Table K V) (key : K) (val : V) : Table K V :=
  let idx := t.index hash key
  match chainGet key (t.buckets idx) with
  | some _ => { t with
      buckets := Function.update t.buckets idx (chainSet key val (t.buckets idx)) }
  | none => { t with
      buckets := Function.update t.buckets idx ((key, val) :: t.buckets idx)
      size := t.size + 1 }

def remove (hash : K → ℕ) (t : Table K V) (key : K) : Bool × Table K V :=
  let idx := t.index hash key
  match chainGet key (t.buckets idx) with
  | some _ => (true, { t with
      buckets := Function.update t.buckets idx (chainRemove key (t.buckets idx))
      size := t.size - 1 })
  | none => (false, t)

end Table

theorem chainGet_eq_none_iff (key : K) (chain : List (K × V)) :
    chainGet key chain = none ↔ key ∉ chain.map Prod.fst := by
  induction chain with
  | nil => simp [chainGet]
  | cons node rest ih =>
    by_cases h : node.1 = key
    · simp [chainGet, h]
    · simp [chainGet, h, ih, Ne.symm h]

theorem chainGet_chainSet (key other : K) (val : V) (chain : List (K × V))
    (hmem : key ∈ chain.map Prod.fst) :
    chainGet other (chainSet key val chain) =
      if other = key then some val else chainGet other chain := by
  induction chain with
  | nil => simp at hmem
  | cons node rest ih =>
    by_cases h : node.1 = key
    · by_cases ho : other = key
      · simp [chainSet, chainGet, h, ho]
      · have hne : ¬ node.1 = other := fun heq => ho (heq.symm.trans h)
        simp [chainSet, chainGet, h, ho, Ne.symm ho]
    · have hmem' : key ∈ rest.map Prod.fst := by
        rcases List.mem_cons.mp hmem with heq | hmem
        · exact absurd heq.symm h
        · exact hmem
      simp only [chainSet, if_neg h, chainGet, ih hmem']
      by_cases hn : node.1 = other
      · have ho : other ≠ key := fun heq => h (hn.trans heq)
        simp [hn, ho]
      · simp [hn]

theorem chainSet_keys (key : K) (val : V) (chain : List (K × V)) :
    (chainSet key val chain).map Prod.fst = chain.map Prod.fst := by
  induction chain with
  | nil => rfl
  | cons node rest ih =>
    by_cases h : node.1 = key
    · simp [chainSet, h]
    · simp [chainSet, h, ih]

theorem chainRemove_keys (key : K) (chain : List (K × V)) :
    (chainRemove key chain).map Prod.fst = (chain.map Prod.fst).erase key := by
  induction chain with
  | nil => rfl
  | cons node rest ih =>
    by_cases h : node.1 = key
    · simp [chainRemove, h]
    · simp [chainRemove, h, ih]

theorem chainGet_chainRemove (key other : K) (chain : List (K × V))
    (hnodup : (chain.map Prod.fst).Nodup) :
    chainGet other (chainRemove key chain) =
      if other = key then none else chainGet other chain := by
  by_cases ho : other = key
  · subst other
    rw [if_pos rfl, chainGet_eq_none_iff, chainRemove_keys]
    exact hnodup.not_mem_erase
  · rw [if_neg ho]
    induction chain with
    | nil => rfl
    | cons node rest ih =>
      by_cases h : node.1 = key
      · have hn : ¬ node.1 = other := fun heq => ho (heq.symm.trans h)
        simp [chainRemove, chainGet, h, Ne.symm ho]
      · simp only [List.map_cons, List.nodup_cons] at hnodup
        simp [chainRemove, chainGet, h, ih hnodup.2]

section Map
variable {hash : K → ℕ} {t : Table K V}

theorem get_new (hash : K → ℕ) (n : ℕ) (key : K) :
    (Table.new n : Table K V).get hash key = none := rfl

theorem put_bucketCount (hash : K → ℕ) (t : Table K V) (key : K) (val : V) :
    (t.put hash key val).bucketCount = t.bucketCount := by
  cases hget : chainGet key (t.buckets (t.index hash key)) <;> simp [Table.put, hget]

theorem remove_bucketCount (hash : K → ℕ) (t : Table K V) (key : K) :
    (t.remove hash key).2.bucketCount = t.bucketCount := by
  cases hget : chainGet key (t.buckets (t.index hash key)) <;> simp [Table.remove, hget]

theorem get_put (t : Table K V) (key other : K) (val : V) :
    (t.put hash key val).get hash other =
      if other = key then some val else t.get hash other := by
  have hcount := put_bucketCount hash t key val
  unfold Table.get
  rw [index_congr hcount other]
  by_cases hidx : t.index hash other = t.index hash key
  · cases hget : chainGet key (t.buckets (t.index hash key)) with
    | some v =>
      have hmem : key ∈ (t.buckets (t.index hash key)).map Prod.fst := by
        by_contra hnot
        rw [(chainGet_eq_none_iff key _).mpr hnot] at hget
        contradiction
      simp only [Table.put, hget, hidx, Function.update_self]
      exact chainGet_chainSet key other val _ hmem
    | none =>
      simp only [Table.put, hget, hidx, Function.update_self, chainGet]
      by_cases ho : other = key
      · simp [ho]
      · simp [ho, Ne.symm ho]
  · have ho : other ≠ key := fun heq => hidx (by rw [heq])
    cases hget : chainGet key (t.buckets (t.index hash key)) with
    | some v => simp [Table.put, hget, hidx, ho]
    | none => simp [Table.put, hget, hidx, ho]

theorem wellPlaced_put (h : WellPlaced hash t) (key : K) (val : V) :
    WellPlaced hash (t.put hash key val) := by
  have hcount := put_bucketCount hash t key val
  cases hget : chainGet key (t.buckets (t.index hash key)) with
  | some v =>
    have hkeys := chainSet_keys key val (t.buckets (t.index hash key))
    have hbuckets : (t.put hash key val).buckets = Function.update t.buckets
        (t.index hash key) (chainSet key val (t.buckets (t.index hash key))) := by
      simp only [Table.put, hget]
    refine h.update hcount hbuckets (placed_of_keys h ?_) ?_
    · intro k hk
      rwa [hkeys] at hk
    · rw [hkeys]
      exact h.nodup _
  | none =>
    have hbuckets : (t.put hash key val).buckets = Function.update t.buckets
        (t.index hash key) ((key, val) :: t.buckets (t.index hash key)) := by
      simp only [Table.put, hget]
    refine h.update hcount hbuckets ?_ ?_
    · intro node hnode
      rcases List.mem_cons.mp hnode with rfl | hold
      · rfl
      · exact h.placed _ node hold
    · rw [List.map_cons, List.nodup_cons]
      exact ⟨(chainGet_eq_none_iff key _).mp hget, h.nodup _⟩

theorem get_remove (h : WellPlaced hash t) (key other : K) :
    (t.remove hash key).2.get hash other =
      if other = key then none else t.get hash other := by
  have hcount := remove_bucketCount hash t key
  unfold Table.get
  rw [index_congr hcount other]
  cases hget : chainGet key (t.buckets (t.index hash key)) with
  | none =>
    by_cases ho : other = key
    · subst other
      simp [Table.remove, hget]
    · simp [Table.remove, hget, ho]
  | some v =>
    by_cases hidx : t.index hash other = t.index hash key
    · simp only [Table.remove, hget, hidx, Function.update_self]
      exact chainGet_chainRemove key other _ (h.nodup _)
    · have ho : other ≠ key := fun heq => hidx (by rw [heq])
      simp [Table.remove, hget, hidx, ho]

theorem wellPlaced_remove (h : WellPlaced hash t) (key : K) :
    WellPlaced hash (t.remove hash key).2 := by
  have hcount := remove_bucketCount hash t key
  cases hget : chainGet key (t.buckets (t.index hash key)) with
  | none => simpa only [Table.remove, hget] using h
  | some v =>
    have hkeys := chainRemove_keys key (t.buckets (t.index hash key))
    have hbuckets : (t.remove hash key).2.buckets = Function.update t.buckets
        (t.index hash key) (chainRemove key (t.buckets (t.index hash key))) := by
      simp only [Table.remove, hget]
    refine h.update hcount hbuckets (placed_of_keys h ?_) ?_
    · intro k hk
      rw [hkeys] at hk
      exact List.mem_of_mem_erase hk
    · rw [hkeys]
      exact (h.nodup _).erase key

end Map

namespace Table

def entries (t : Table K V) : List (K × V) := (List.range t.bucketCount).flatMap t.buckets

def step (hash : K → ℕ) (t : Table K V) : Call K V → Table K V
  | .put key val => t.put hash key val
  | .remove key => (t.remove hash key).2

def run (hash : K → ℕ) (n : ℕ) (calls : List (Call K V)) : Table K V :=
  calls.foldl (step hash) (new n)

end Table

section Entries
variable {hash : K → ℕ} {t : Table K V}

theorem mem_iff_chainGet {chain : List (K × V)} (h : (chain.map Prod.fst).Nodup) (key : K)
    (val : V) : (key, val) ∈ chain ↔ chainGet key chain = some val := by
  induction chain with
  | nil => simp [chainGet]
  | cons node rest ih =>
    obtain ⟨hnew, hrest⟩ := List.nodup_cons.mp (List.map_cons ▸ h)
    rw [List.mem_cons, ih hrest, chainGet]
    by_cases hkey : node.1 = key
    · have hnone : chainGet key rest = none := (chainGet_eq_none_iff key rest).mpr (hkey ▸ hnew)
      rw [if_pos hkey, hnone, Prod.ext_iff]
      simp [hkey, eq_comm]
    · rw [if_neg hkey, Prod.ext_iff]
      simp [Ne.symm hkey]

/-- The entries are what the look-up finds. -/
theorem mem_entries (h : WellPlaced hash t) (hpos : 0 < t.bucketCount) (key : K) (val : V) :
    (key, val) ∈ t.entries ↔ t.get hash key = some val := by
  unfold Table.entries Table.get
  rw [List.mem_flatMap, ← mem_iff_chainGet (h.nodup _)]
  constructor
  · intro ⟨i, _, hnode⟩
    have hi : t.index hash key = i := h.placed i _ hnode
    rw [hi]
    exact hnode
  · intro hnode
    exact ⟨t.index hash key, List.mem_range.mpr (index_lt hash t hpos key), hnode⟩

omit [DecidableEq K] in
/-- No key occurs in two nodes, in one chain or in two. -/
theorem entries_nodup (h : WellPlaced hash t) : (t.entries.map Prod.fst).Nodup := by
  unfold Table.entries
  rw [List.map_flatMap, List.nodup_flatMap]
  refine ⟨fun i _ => h.nodup i, ?_⟩
  refine List.nodup_range.pairwise_of_forall_ne ?_
  intro i _ j _ hij key hi hj
  obtain ⟨a, ha, hakey⟩ := List.mem_map.mp hi
  obtain ⟨b, hb, hbkey⟩ := List.mem_map.mp hj
  have hai := h.placed i a ha
  have hbj := h.placed j b hb
  rw [hakey] at hai
  rw [hbkey] at hbj
  exact hij (hai.symm.trans hbj)

end Entries

section Refinement
variable (hash : K → ℕ)

theorem remove_fst (t : Table K V) (key : K) :
    (t.remove hash key).1 = true ↔ t.get hash key ≠ none := by
  unfold Table.remove Table.get
  dsimp only
  cases chainGet key (t.buckets (t.index hash key)) <;> simp

theorem step_bucketCount (t : Table K V) (c : Call K V) :
    (t.step hash c).bucketCount = t.bucketCount := by
  cases c with
  | put key val => exact put_bucketCount hash t key val
  | remove key => exact remove_bucketCount hash t key

variable {hash} in
theorem WellPlaced.step {t : Table K V} (h : WellPlaced hash t) (c : Call K V) :
    WellPlaced hash (t.step hash c) := by
  cases c with
  | put key val => exact wellPlaced_put h key val
  | remove key => exact wellPlaced_remove h key

variable {hash} in
/-- One call changes the look-up at its own key only. -/
theorem get_step {t : Table K V} (h : WellPlaced hash t) (c : Call K V) (key : K) :
    (t.step hash c).get hash key = if key = c.key then c.value else t.get hash key := by
  cases c with
  | put k val => exact get_put t k key val
  | remove k => exact get_remove h k key

theorem put_size (t : Table K V) (key : K) (val : V) :
    (t.put hash key val).size = if t.get hash key = none then t.size + 1 else t.size := by
  unfold Table.put Table.get
  dsimp only
  cases chainGet key (t.buckets (t.index hash key)) <;> simp

theorem remove_size (t : Table K V) (key : K) :
    (t.remove hash key).2.size = if t.get hash key = none then t.size else t.size - 1 := by
  unfold Table.remove Table.get
  dsimp only
  cases chainGet key (t.buckets (t.index hash key)) <;> simp

structure RunsTo (n : ℕ) (calls : List (Call K V)) (t : Table K V) : Prop where
  wellPlaced : WellPlaced hash t
  count : t.bucketCount = n
  found : ∀ key, t.get hash key = live calls key
  counted : t.size = (liveKeys calls).ncard

theorem runsTo_nil (n : ℕ) : RunsTo hash n [] (Table.new n : Table K V) := by
  refine ⟨wellPlaced_new hash n, rfl, fun key => rfl, ?_⟩
  have hempty : liveKeys ([] : List (Call K V)) = ∅ := by
    ext key
    simp [liveKeys, live]
  rw [hempty, Set.ncard_empty]
  rfl

variable {hash} in
theorem RunsTo.step {n : ℕ} {calls : List (Call K V)} {t : Table K V}
    (h : RunsTo hash n calls t) (c : Call K V) : RunsTo hash n (calls ++ [c]) (t.step hash c) := by
  refine ⟨h.wellPlaced.step c, (step_bucketCount hash t c).trans h.count, ?_, ?_⟩
  · intro key
    rw [get_step h.wellPlaced, live_concat, h.found]
  · cases c with
    | put key val =>
      rw [liveKeys_put]
      change (t.put hash key val).size = _
      rw [put_size, h.found, h.counted]
      by_cases hlive : live calls key = none
      · have hnew : key ∉ liveKeys calls := by
          rw [mem_liveKeys]
          exact not_not.mpr hlive
        rw [if_pos hlive, Set.ncard_insert_of_notMem hnew (liveKeys_finite calls)]
      · rw [if_neg hlive, Set.insert_eq_of_mem ((mem_liveKeys calls key).mpr hlive)]
    | remove key =>
      rw [liveKeys_remove]
      change (t.remove hash key).2.size = _
      rw [remove_size, h.found, h.counted]
      by_cases hlive : live calls key = none
      · have hnew : key ∉ liveKeys calls := by
          rw [mem_liveKeys]
          exact not_not.mpr hlive
        rw [if_pos hlive, Set.sdiff_singleton_eq_self hnew]
      · rw [if_neg hlive,
          Set.ncard_sdiff_singleton_of_mem ((mem_liveKeys calls key).mpr hlive)]

theorem run_runsTo (n : ℕ) (calls : List (Call K V)) :
    RunsTo hash n calls (Table.run hash n calls) := by
  induction calls using List.reverseRecOn with
  | nil => exact runsTo_nil hash n
  | append_singleton calls c ih =>
    unfold Table.run
    rw [List.foldl_append]
    exact ih.step c

/-- What the table is to a user of the map that the calls make. -/
structure RefinesMap (calls : List (Call K V)) (t : Table K V) : Prop where
  index_lt : ∀ key, t.index hash key < t.bucketCount
  placed : ∀ i, ∀ node ∈ t.buckets i, t.index hash node.1 = i
  nodup : (t.entries.map Prod.fst).Nodup
  get_iff : ∀ key val, t.get hash key = some val ↔
    ∃ before after, calls = before ++ .put key val :: after ∧ ∀ c ∈ after, c.key ≠ key
  remove_iff : ∀ key, (t.remove hash key).1 = true ↔ ∃ val, t.get hash key = some val
  get_remove : ∀ key other, other ≠ key →
    (t.remove hash key).2.get hash other = t.get hash other
  size_eq : t.size = (liveKeys calls).ncard

theorem run_refinesMap {n : ℕ} (hn : 0 < n) (calls : List (Call K V)) :
    RefinesMap hash calls (Table.run hash n calls) := by
  have h := run_runsTo hash n calls
  have hpos : 0 < (Table.run hash n calls).bucketCount := by
    rw [h.count]
    exact hn
  refine ⟨fun key => index_lt hash _ hpos key, h.wellPlaced.placed, entries_nodup h.wellPlaced,
    ?_, ?_, ?_, h.counted⟩
  · intro key val
    rw [h.found]
    exact live_eq_some_iff calls key val
  · intro key
    rw [remove_fst]
    exact Option.ne_none_iff_exists'
  · intro key other hother
    rw [get_remove h.wellPlaced, if_neg hother]

end Refinement

end ChainedTable
