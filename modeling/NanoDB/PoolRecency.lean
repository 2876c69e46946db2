import NanoDB.PoolFetch
import NanoDB.Library.Recency

/-!
The pool replaces pages in least-recently-used order. The keys read along the LRU
list follow the bounded recency cache step by step, so after any run they are the
most recent keys of the fetch trace.
-/
namespace NanoDB.PoolRecency

open CTypes BufferPool PoolInvariant DoublyLinkedList Recency

def listKeys (p : BufferPool) (lru : List (Addr × ℕ)) : List ℤ :=
  (lru.map Prod.snd).map (frameKey p)

def fetchedKeys (ops : List PoolOp) : List ℤ :=
  ops.filterMap fun op => op.fetched.map fun page => makePageKey page.2.1 page.2.2

def Cached (s : Storage) (key : ℤ) : Prop := ∃ f, s.pool.frameMap.get key = some f

section Keys
variable {p : BufferPool} {held : List ℕ} {lru : List (Addr × ℕ)}

theorem length_listKeys (p : BufferPool) (lru : List (Addr × ℕ)) :
    (listKeys p lru).length = lru.length := by
  simp [listKeys]

theorem mem_listKeys (h : Inv p held lru) (key : ℤ) :
    key ∈ listKeys p lru ↔ ∃ f, p.frameMap.get key = some f := by
  unfold listKeys
  rw [List.mem_map]
  exact exists_congr fun f => (h.mapped key f).symm

theorem nodup_listKeys (h : Inv p held lru) : (listKeys p lru).Nodup :=
  h.frames_nodup.map_on fun _ hf _ hg heq => h.frameKey_inj hf hg heq

theorem length_le_capacity (h : Inv p held lru) : lru.length ≤ p.capacity := by
  have hlen := h.length_eq
  omega

end Keys

theorem listKeys_congr {p p' : BufferPool} {lru : List (Addr × ℕ)}
    (h : ∀ f ∈ lru.map Prod.snd, frameKey p' f = frameKey p f) :
    listKeys p' lru = listKeys p lru :=
  List.map_congr_left h

theorem listKeys_loadFrame {path : FilePath} {hash pid : ℤ} {f : ℕ} {s : Storage}
    {lru : List (Addr × ℕ)} {a : Addr} (hf : f ∉ lru.map Prod.snd) :
    listKeys (loadFrame path hash pid f s).pool ((a, f) :: lru) =
      makePageKey hash pid :: listKeys s.pool lru := by
  have hrest : listKeys (loadFrame path hash pid f s).pool lru = listKeys s.pool lru := by
    apply listKeys_congr
    intro g hg
    have hne : g ≠ f := fun heq => hf (heq ▸ hg)
    rw [frameKey_loadFrame, Function.update_of_ne hne]
  change frameKey _ f :: listKeys _ lru = _
  rw [hrest, frameKey_loadFrame, Function.update_self]

section Fetch
variable {path : FilePath} {hash pid : ℤ} {s : Storage} {lru : List (Addr × ℕ)}

theorem notMem_listKeys (h : Inv s.pool [] lru) (hmiss : Misses hash pid s) :
    makePageKey hash pid ∉ listKeys s.pool lru := by
  rw [mem_listKeys h]
  rintro ⟨g, hg⟩
  exact absurd (hg.symm.trans hmiss) (by simp)

/-- One fetch is one access to the bounded recency cache; only a miss in a full pool evicts. -/
theorem fetch_touch (path : FilePath) (hash pid : ℤ) (h : Inv s.pool [] lru)
    (hcap : 1 ≤ s.pool.capacity) :
    ∃ lru', Inv (fetchPage path hash pid s).2.pool [] lru' ∧
      listKeys (fetchPage path hash pid s).2.pool lru' =
        touch s.pool.capacity (listKeys s.pool lru) (makePageKey hash pid) ∧
      (fetchPage path hash pid s).2.pool.capacity = s.pool.capacity ∧
      (fetchPage path hash pid s).2.pool.evictionCount = s.pool.evictionCount +
        (if Misses hash pid s ∧ lru.length = s.pool.capacity then 1 else 0) := by
  have hlen := h.length_eq
  have hnd := nodup_listKeys h
  have hle := length_le_capacity h
  rw [← length_listKeys s.pool] at hle
  cases fetchPage_cases h hcap path hash pid with
  | hit xs ys a f lru_eq key_eq fetch_eq touch_eq inv =>
    subst lru_eq
    have hget := h.get_frameKey (f := f) (by simp)
    rw [key_eq] at hget
    have hhit : ¬ (Misses hash pid s ∧ (xs ++ (a, f) :: ys).length = s.pool.capacity) :=
      fun hmiss => absurd (hget.symm.trans hmiss.1) (by simp)
    have hkeys : listKeys s.pool (xs ++ (a, f) :: ys) =
        listKeys s.pool xs ++ makePageKey hash pid :: listKeys s.pool ys := by
      simp [listKeys, key_eq]
    rw [hkeys] at hnd hle
    have hxs : makePageKey hash pid ∉ listKeys s.pool xs :=
      fun hin => (List.nodup_append.mp hnd).2.2 _ hin _ (by simp) rfl
    rw [if_neg hhit, hkeys, touch_hit hxs hle, fetch_eq]
    refine ⟨_, inv, ?_, ?_, ?_⟩
    · rw [touch_eq]
      change listKeys s.pool ((a, f) :: (xs ++ ys)) = _
      simp [listKeys, key_eq]
    · rw [touch_eq]
    · rw [touch_eq, Nat.add_zero]
  | free a f miss freeCount_pos notMem fetch_eq inv =>
    have hroom : (listKeys s.pool lru).length < s.pool.capacity := by
      rw [length_listKeys]
      simp only [List.length_nil] at hlen
      omega
    have hkey := notMem_listKeys h miss
    have hnot : ¬ (Misses hash pid s ∧ lru.length = s.pool.capacity) := by
      rw [length_listKeys] at hroom
      omega
    rw [if_neg hnot, touch_room hkey hroom]
    refine ⟨_, inv, ?_, ?_, ?_⟩
    · rw [fetch_eq]
      exact listKeys_loadFrame notMem
    · rw [fetch_eq]
      rfl
    · rw [fetch_eq]
      rfl
  | evict xs a b f miss freeCount_eq lru_eq notMem fetch_eq inv =>
    subst lru_eq
    have hfull : (xs ++ [(b, f)]).length = s.pool.capacity := by
      simp only [List.length_nil] at hlen
      omega
    have hkeys : listKeys s.pool (xs ++ [(b, f)]) = listKeys s.pool xs ++ [frameKey s.pool f] := by
      simp [listKeys]
    have hkey := notMem_listKeys h miss
    rw [if_pos ⟨miss, hfull⟩, hkeys, touch_full (hkeys ▸ hkey)
      (by rw [← hkeys, length_listKeys, hfull])]
    refine ⟨_, inv, ?_, ?_, ?_⟩
    · rw [fetch_eq]
      refine (listKeys_loadFrame notMem).trans ?_
      rfl
    · rw [fetch_eq]
      rfl
    · rw [fetch_eq]
      rfl

end Fetch

theorem fetchedKeys_concat (ops : List PoolOp) (op : PoolOp) :
    fetchedKeys (ops ++ [op]) = fetchedKeys ops ++ fetchedKeys [op] := List.filterMap_append

theorem step_recency {s : Storage} {lru : List (Addr × ℕ)} {ks : List ℤ}
    (h : Inv s.pool [] lru) (hcap : 1 ≤ s.pool.capacity)
    (hkeys : listKeys s.pool lru = (mostRecent ks).take s.pool.capacity) (op : PoolOp) :
    ∃ lru', Inv (op.step s).pool [] lru' ∧
      listKeys (op.step s).pool lru' =
        (mostRecent (ks ++ fetchedKeys [op])).take s.pool.capacity ∧
      (op.step s).pool.capacity = s.pool.capacity := by
  rcases step_cases s op with ⟨hnone, honly⟩ | ⟨path, hash, pid, hfetched, honly⟩
  · have hfetch : fetchedKeys [op] = [] := by simp [fetchedKeys, hnone]
    refine ⟨lru, honly.inv h, ?_, honly.fields_eq.2⟩
    rw [hfetch, List.append_nil, ← hkeys]
    exact listKeys_congr fun f _ => congrFun honly.frameKey_eq f
  · have hfetch : fetchedKeys [op] = [makePageKey hash pid] := by simp [fetchedKeys, hfetched]
    obtain ⟨lru', hinv, htouch, hsize, -⟩ := fetch_touch path hash pid h hcap
    refine ⟨lru', honly.inv hinv, ?_, honly.fields_eq.2.trans hsize⟩
    rw [hfetch, ← touch_take, ← hkeys, ← htouch]
    exact listKeys_congr fun f _ => congrFun honly.frameKey_eq f

theorem run_recency (capacity : ℕ) (hcap : 1 ≤ capacity) (disk : Disk) (ops : List PoolOp) :
    ∃ lru, Inv (PoolOp.run (start capacity disk) ops).pool [] lru ∧
      listKeys (PoolOp.run (start capacity disk) ops).pool lru =
        (mostRecent (fetchedKeys ops)).take capacity ∧
      (PoolOp.run (start capacity disk) ops).pool.capacity = capacity := by
  induction ops using List.reverseRecOn with
  | nil =>
    refine ⟨[], inv_new capacity, ?_, rfl⟩
    simp [listKeys, fetchedKeys, mostRecent]
  | append_singleton ops op ih =>
    obtain ⟨lru, hinv, hkeys, hsize⟩ := ih
    obtain ⟨lru', hinv', hkeys', hsize'⟩ :=
      step_recency hinv (by omega) (hkeys.trans (by rw [hsize])) op
    rw [PoolOp.run_concat, fetchedKeys_concat]
    rw [hsize] at hkeys'
    exact ⟨lru', hinv', hkeys', hsize'.trans hsize⟩

/-- After every run the cached keys are the most recently fetched ones, the list holds
them in that order, a hit evicts nothing, and a miss in a full pool evicts exactly the
key whose last fetch is oldest. -/
theorem run_leastRecentlyUsed (capacity : ℕ) (hcap : 1 ≤ capacity) (disk : Disk)
    (ops : List PoolOp) (s : Storage) (hs : s = PoolOp.run (start capacity disk) ops) :
    ∃ lru, Inv s.pool [] lru ∧
      listKeys s.pool lru = (mostRecent (fetchedKeys ops)).take capacity ∧
      lru.length = min capacity (fetchedKeys ops).dedup.length ∧
      (∀ key, Cached s key ↔ key ∈ (mostRecent (fetchedKeys ops)).take capacity) ∧
      ∀ path hash pid s', s' = (fetchPage path hash pid s).2 →
        (Cached s (makePageKey hash pid) →
          s'.pool.evictionCount = s.pool.evictionCount ∧ ∀ key, Cached s' key ↔ Cached s key) ∧
        (¬ Cached s (makePageKey hash pid) → lru.length = capacity →
          s'.pool.evictionCount = s.pool.evictionCount + 1 ∧
          ∃ victim before after, fetchedKeys ops = before ++ victim :: after ∧
            victim ∉ after ∧ Cached s victim ∧
            (∀ key, Cached s key → key ≠ victim → key ∈ after) ∧
            ∀ key, Cached s' key ↔
              key = makePageKey hash pid ∨ (Cached s key ∧ key ≠ victim)) := by
  obtain ⟨lru, hinv, hkeys, hsize⟩ := run_recency capacity hcap disk ops
  rw [← hs] at hinv hkeys hsize
  have hcached : ∀ key, Cached s key ↔ key ∈ (mostRecent (fetchedKeys ops)).take capacity := by
    intro key
    rw [← hkeys]
    exact (mem_listKeys hinv key).symm
  refine ⟨lru, hinv, hkeys, ?_, hcached, ?_⟩
  · rw [← length_listKeys s.pool, hkeys, List.length_take, length_mostRecent]
  · intro path hash pid s' hs'
    subst hs'
    obtain ⟨lru', hinv', htouch, -, hcount⟩ := fetch_touch path hash pid hinv (by omega)
    rw [hkeys, hsize] at htouch
    have hcached' : ∀ key, Cached (fetchPage path hash pid s).2 key ↔
        key ∈ touch capacity ((mostRecent (fetchedKeys ops)).take capacity)
          (makePageKey hash pid) := by
      intro key
      rw [← htouch]
      exact (mem_listKeys hinv' key).symm
    constructor
    · rintro ⟨f, hget⟩
      have hhit : ¬ (Misses hash pid s ∧ lru.length = s.pool.capacity) :=
        fun hmiss => absurd (hget.symm.trans hmiss.1) (by simp)
      rw [if_neg hhit, Nat.add_zero] at hcount
      refine ⟨hcount, ?_⟩
      intro key
      rw [hcached', hcached]
      apply mem_touch_hit
      · exact (hcached _).mp ⟨f, hget⟩
      · exact (nodup_mostRecent _).sublist (List.take_sublist _ _)
      · exact List.length_take_le _ _
    · intro hmiss hfull
      have hnone : Misses hash pid s :=
        Option.eq_none_iff_forall_ne_some.mpr fun f hget => hmiss ⟨f, hget⟩
      rw [if_pos ⟨hnone, hfull.trans hsize.symm⟩] at hcount
      refine ⟨hcount, ?_⟩
      have hlen : ((mostRecent (fetchedKeys ops)).take capacity).length = capacity := by
        rw [← hkeys, length_listKeys, hfull]
      obtain ⟨victim, before, after, hks, hnot, hmem, hafter, htouched⟩ :=
        touch_victim hcap hlen (fun hin => hmiss ((hcached _).mpr hin))
      refine ⟨victim, before, after, hks, hnot, (hcached _).mpr hmem, ?_, ?_⟩
      · intro key hkey hne
        exact hafter key ((hcached key).mp hkey) hne
      · intro key
        rw [hcached', htouched, hcached]

/-- Two frames, pages 0, 1, 2, 1 fetched: page 0 has left, and the list has pages 1 and 2. -/
theorem run_leastRecentlyUsed_twoFrames :
    ∃ lru, Inv (PoolOp.run (start 2 ⟨fun _ => none, []⟩)
        [.fetchPage makeOrdersSchema.filePath 3 0, .fetchPage makeOrdersSchema.filePath 3 1,
          .markDirty 3 1, .fetchPage makeOrdersSchema.filePath 3 2,
          .fetchPage makeOrdersSchema.filePath 3 1]).pool [] lru ∧
      listKeys (PoolOp.run (start 2 ⟨fun _ => none, []⟩)
        [.fetchPage makeOrdersSchema.filePath 3 0, .fetchPage makeOrdersSchema.filePath 3 1,
          .markDirty 3 1, .fetchPage makeOrdersSchema.filePath 3 2,
          .fetchPage makeOrdersSchema.filePath 3 1]).pool lru = [300001, 300002] ∧
      ∀ key, Cached (PoolOp.run (start 2 ⟨fun _ => none, []⟩)
        [.fetchPage makeOrdersSchema.filePath 3 0, .fetchPage makeOrdersSchema.filePath 3 1,
          .markDirty 3 1, .fetchPage makeOrdersSchema.filePath 3 2,
          .fetchPage makeOrdersSchema.filePath 3 1]) key ↔ key ∈ [300001, 300002] := by
  obtain ⟨lru, hinv, hkeys, -, hcached, -⟩ := run_leastRecentlyUsed 2 (by decide)
    ⟨fun _ => none, []⟩
    [.fetchPage makeOrdersSchema.filePath 3 0, .fetchPage makeOrdersSchema.filePath 3 1,
      .markDirty 3 1, .fetchPage makeOrdersSchema.filePath 3 2,
      .fetchPage makeOrdersSchema.filePath 3 1] _ rfl
  exact ⟨lru, hinv, hkeys, hcached⟩

end NanoDB.PoolRecency
