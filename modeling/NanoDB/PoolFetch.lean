import NanoDB.PoolInvariant

/-!
Fetches and runs of the pool. A fetch is a hit, takes a frame from the free stack, or
evicts the tail of the list; every other call changes page contents only. Hence every
run keeps the invariant, and each miss is an eviction or an occupied frame.
-/
namespace NanoDB.PoolInvariant

open CTypes ChainedTable BufferPool DoublyLinkedList

/-- What one fetch does to a pool whose list is `lru`: a hit, a miss served from the
free stack, or a miss that evicts the tail. -/
inductive FetchCase (path : FilePath) (hash pid : ℤ) (s : Storage) (lru : List (Addr × ℕ)) : Prop
  | hit (xs ys : List (Addr × ℕ)) (a : Addr) (f : ℕ)
      (lru_eq : lru = xs ++ (a, f) :: ys)
      (key_eq : frameKey s.pool f = makePageKey hash pid)
      (fetch_eq : fetchPage path hash pid s = (f, touchFrame f s))
      (touch_eq : touchFrame f s =
        { s with pool := { s.pool with lruList := s.pool.lruList.moveToFront a } })
      (inv : Inv (touchFrame f s).pool [] ((a, f) :: (xs ++ ys)))
  | free (a : Addr) (f : ℕ)
      (miss : Misses hash pid s)
      (freeCount_pos : 0 < s.pool.freeCount)
      (notMem : f ∉ lru.map Prod.snd)
      (fetch_eq : fetchPage path hash pid s = (f, loadFrame path hash pid f
        { s with pool := { s.pool with freeCount := s.pool.freeCount - 1 } }))
      (inv : Inv (fetchPage path hash pid s).2.pool [] ((a, f) :: lru))
  | evict (xs : List (Addr × ℕ)) (a b : Addr) (f : ℕ)
      (miss : Misses hash pid s)
      (freeCount_eq : s.pool.freeCount = 0)
      (lru_eq : lru = xs ++ [(b, f)])
      (notMem : f ∉ xs.map Prod.snd)
      (fetch_eq : fetchPage path hash pid s = (f, loadFrame path hash pid f (evictLRU s).2))
      (inv : Inv (fetchPage path hash pid s).2.pool [] ((a, f) :: xs))

theorem fetchPage_hit {path : FilePath} {hash pid : ℤ} {s : Storage} {f : ℕ}
    (h : s.pool.frameMap.get (makePageKey hash pid) = some f) :
    fetchPage path hash pid s = (f, touchFrame f s) := by
  simp [fetchPage, h]

theorem fetchPage_miss (path : FilePath) {hash pid : ℤ} {s : Storage}
    (h : Misses hash pid s) :
    fetchPage path hash pid s =
      ((allocFrame s).1, loadFrame path hash pid (allocFrame s).1 (allocFrame s).2) := by
  have hget : s.pool.frameMap.get (makePageKey hash pid) = none := h
  simp [fetchPage, hget]

theorem fetchPage_cases {s : Storage} {lru : List (Addr × ℕ)} (h : Inv s.pool [] lru)
    (hcap : 1 ≤ s.pool.capacity) (path : FilePath) (hash pid : ℤ) :
    FetchCase path hash pid s lru := by
  cases hget : s.pool.frameMap.get (makePageKey hash pid) with
  | some f =>
    obtain ⟨hf, hkey⟩ := (h.mapped _ f).mp hget
    obtain ⟨xs, a, ys, rfl, hnode⟩ := h.split hf
    obtain ⟨htouch, hinv⟩ := touchFrame_inv h
    exact FetchCase.hit xs ys a f rfl hkey (fetchPage_hit hget) htouch hinv
  | none =>
    have heq := fetchPage_miss path hget
    by_cases hfree : 0 < s.pool.freeCount
    · have hpop := popFree_inv h hfree
      rw [allocFrame, if_pos hfree] at heq
      refine FetchCase.free s.pool.lruList.fresh _ hget hfree (hpop.held_notMem (by simp)) heq ?_
      rw [heq]
      exact loadFrame_inv
        (s := { s with pool := { s.pool with freeCount := s.pool.freeCount - 1 } }) hpop hget
    · have hzero : s.pool.freeCount = 0 := by omega
      have hlen := h.length_eq
      rcases lru.eq_nil_or_concat' with rfl | ⟨xs, e, rfl⟩
      · simp only [List.length_nil] at hlen
        omega
      · obtain ⟨hfst, hinv⟩ := evictLRU_inv h
        rw [allocFrame, if_neg hfree, hfst] at heq
        refine FetchCase.evict xs (evictLRU s).2.pool.lruList.fresh e.1 e.2 hget hzero rfl
          (hinv.held_notMem (by simp)) heq ?_
        rw [heq]
        exact loadFrame_inv hinv (evictLRU_misses h hfst hget)

theorem frameInfos_loadFrame (path : FilePath) (hash pid : ℤ) (f : ℕ) (s : Storage) :
    (loadFrame path hash pid f s).pool.frameInfos =
      Function.update s.pool.frameInfos f ⟨f, hash, pid, path⟩ := by
  simp only [loadFrame, snprintf_self]

/-- What the filled frame records is new, what the others record is as before. -/
theorem infos_loadFrame {path : FilePath} {hash pid : ℤ} {f g : ℕ} {s : Storage}
    (Q : FrameInfo → Prop) (hnew : Q ⟨f, hash, pid, path⟩)
    (hold : g ≠ f → Q (s.pool.frameInfos g)) :
    Q ((loadFrame path hash pid f s).pool.frameInfos g) := by
  rw [frameInfos_loadFrame]
  by_cases hgf : g = f
  · rw [hgf, Function.update_self]
    exact hnew
  · rw [Function.update_of_ne hgf]
    exact hold hgf

/-- After a fetch every occupied frame records what it recorded before, or is the
frame just filled; the frame returned is occupied and registered under the key. -/
theorem fetch_infos (path : FilePath) (hash pid : ℤ) {s : Storage} {lru : List (Addr × ℕ)}
    (h : Inv s.pool [] lru) (hcap : 1 ≤ s.pool.capacity) (Q : FrameInfo → Prop)
    (hold : ∀ f ∈ lru.map Prod.snd, Q (s.pool.frameInfos f))
    (hnew : ∀ f, Q ⟨f, hash, pid, path⟩) :
    ∃ lru', Inv (fetchPage path hash pid s).2.pool [] lru' ∧
      (∀ f ∈ lru'.map Prod.snd, Q ((fetchPage path hash pid s).2.pool.frameInfos f)) ∧
      (fetchPage path hash pid s).1 ∈ lru'.map Prod.snd ∧
      frameKey (fetchPage path hash pid s).2.pool (fetchPage path hash pid s).1 =
        makePageKey hash pid := by
  cases fetchPage_cases h hcap path hash pid with
  | hit xs ys a f lru_eq key_eq fetch_eq touch_eq inv =>
    subst lru_eq
    rw [fetch_eq]
    refine ⟨_, inv, ?_, by simp, ?_⟩
    · intro g hg
      rw [touch_eq]
      exact hold g (by simpa [or_left_comm] using hg)
    · rw [touch_eq]
      exact key_eq
  | free a f miss freeCount_pos notMem fetch_eq inv =>
    rw [fetch_eq] at inv ⊢
    refine ⟨_, inv, ?_, by simp, ?_⟩
    · intro g hg
      refine infos_loadFrame Q (hnew f) fun hgf => ?_
      exact hold g (by simpa [hgf] using hg)
    · rw [frameKey, frameInfos_loadFrame, Function.update_self]
  | evict xs a b f miss freeCount_eq lru_eq notMem fetch_eq inv =>
    subst lru_eq
    rw [fetch_eq] at inv ⊢
    refine ⟨_, inv, ?_, by simp, ?_⟩
    · intro g hg
      refine infos_loadFrame Q (hnew f) fun hgf => ?_
      have hxs : g ∈ xs.map Prod.snd := by simpa [hgf] using hg
      exact hold g (by simp [hxs])
    · rw [frameKey, frameInfos_loadFrame, Function.update_self]

/-- A fetch touches no frame but the one it returns. -/
theorem fetch_otherFrames (path : FilePath) (hash pid : ℤ) {s : Storage} {lru : List (Addr × ℕ)}
    (h : Inv s.pool [] lru) (hcap : 1 ≤ s.pool.capacity) {g : ℕ}
    (hg : g ≠ (fetchPage path hash pid s).1) :
    (fetchPage path hash pid s).2.pool.pages g = s.pool.pages g ∧
      (fetchPage path hash pid s).2.pool.frameInfos g = s.pool.frameInfos g := by
  cases fetchPage_cases h hcap path hash pid with
  | hit xs ys a f lru_eq key_eq fetch_eq touch_eq inv =>
    rw [fetch_eq, touch_eq]
    exact ⟨rfl, rfl⟩
  | free a f miss freeCount_pos notMem fetch_eq inv =>
    rw [fetch_eq] at hg ⊢
    rw [frameInfos_loadFrame]
    exact ⟨Function.update_of_ne hg _ _, Function.update_of_ne hg _ _⟩
  | evict xs a b f miss freeCount_eq lru_eq notMem fetch_eq inv =>
    subst lru_eq
    rw [fetch_eq] at hg ⊢
    rw [frameInfos_loadFrame, evictLRU_eq (popTail_spine h.spine).1]
    refine ⟨?_, Function.update_of_ne hg _ _⟩
    exact (Function.update_of_ne hg _ _).trans (Function.update_of_ne hg _ _)

/-- Every call is a fetch followed by changes to page contents, or only the latter. -/
theorem step_cases (s : Storage) (op : PoolOp) :
    (op.fetched = none ∧ PagesOnly s (op.step s)) ∨
      ∃ path hash pid, op.fetched = some (path, hash, pid) ∧
        PagesOnly (fetchPage path hash pid s).2 (op.step s) := by
  cases op with
  | fetchPage path hash pid => exact Or.inr ⟨path, hash, pid, rfl, PagesOnly.refl _⟩
  | modify path hash pid change =>
    refine Or.inr ⟨path, hash, pid, rfl, ?_⟩
    have hmodify := modifyPage_pagesOnly (fetchPage path hash pid s).2
      (fetchPage path hash pid s).1 (fun pg => { pg with data := change pg.data }) rfl rfl
    exact hmodify.trans (markDirty_pagesOnly _ hash pid)
  | markDirty hash pid => exact Or.inl ⟨rfl, markDirty_pagesOnly s hash pid⟩
  | flushAll => exact Or.inl ⟨rfl, flushFrames_pagesOnly _ _ s⟩
  | flushTable hash => exact Or.inl ⟨rfl, flushFrames_pagesOnly _ _ s⟩

def missed (s : Storage) (op : PoolOp) : ℕ :=
  match op.fetched with
  | some (_, hash, pid) => if Misses hash pid s then 1 else 0
  | none => 0

def missCount (s : Storage) (ops : List PoolOp) : ℕ :=
  match ops with
  | [] => 0
  | op :: rest => missed s op + missCount (op.step s) rest

theorem fetch_count (path : FilePath) (hash pid : ℤ) {s : Storage} {lru : List (Addr × ℕ)}
    (h : Inv s.pool [] lru) (hcap : 1 ≤ s.pool.capacity) :
    ∃ lru', Inv (fetchPage path hash pid s).2.pool [] lru' ∧
      (fetchPage path hash pid s).2.pool.evictionCount + lru'.length =
        s.pool.evictionCount + lru.length + (if Misses hash pid s then 1 else 0) ∧
      (fetchPage path hash pid s).2.pool.capacity = s.pool.capacity := by
  cases fetchPage_cases h hcap path hash pid with
  | hit xs ys a f lru_eq key_eq fetch_eq touch_eq inv =>
    subst lru_eq
    have hget := h.get_frameKey (f := f) (by simp)
    have hhit : ¬ Misses hash pid s := by
      intro hmiss
      rw [key_eq] at hget
      exact absurd (hget.symm.trans hmiss) (by simp)
    rw [fetch_eq, if_neg hhit]
    refine ⟨_, inv, ?_, ?_⟩
    · rw [touch_eq]
      simp only [List.length_cons, List.length_append]
      omega
    · rw [touch_eq]
  | free a f miss freeCount_pos notMem fetch_eq inv =>
    rw [if_pos miss]
    refine ⟨_, inv, ?_, ?_⟩
    · rw [fetch_eq, List.length_cons]
      change s.pool.evictionCount + _ = _
      omega
    · rw [fetch_eq]
      rfl
  | evict xs a b f miss freeCount_eq lru_eq notMem fetch_eq inv =>
    subst lru_eq
    rw [if_pos miss]
    refine ⟨_, inv, ?_, ?_⟩
    · rw [fetch_eq]
      change s.pool.evictionCount + 1 + _ = _
      simp only [List.length_cons, List.length_append, List.length_nil]
      omega
    · rw [fetch_eq]
      rfl

theorem step_count {s : Storage} {lru : List (Addr × ℕ)} (h : Inv s.pool [] lru)
    (hcap : 1 ≤ s.pool.capacity) (op : PoolOp) :
    ∃ lru', Inv (op.step s).pool [] lru' ∧
      (op.step s).pool.evictionCount + lru'.length =
        s.pool.evictionCount + lru.length + missed s op ∧
      (op.step s).pool.capacity = s.pool.capacity := by
  rcases step_cases s op with ⟨hnone, honly⟩ | ⟨path, hash, pid, hfetched, honly⟩
  · obtain ⟨hcount, hsize⟩ := honly.fields_eq
    refine ⟨lru, honly.inv h, ?_, hsize⟩
    simp only [missed, hnone, hcount]
    rfl
  · obtain ⟨hcount, hsize⟩ := honly.fields_eq
    obtain ⟨lru', hinv, hmisses, hcapacity⟩ := fetch_count path hash pid h hcap
    refine ⟨lru', honly.inv hinv, ?_, hsize.trans hcapacity⟩
    rw [hcount, hmisses, missed, hfetched]

theorem run_count {s : Storage} {lru : List (Addr × ℕ)} (h : Inv s.pool [] lru)
    (hcap : 1 ≤ s.pool.capacity) (ops : List PoolOp) :
    ∃ lru', Inv (PoolOp.run s ops).pool [] lru' ∧
      (PoolOp.run s ops).pool.evictionCount + lru'.length =
        s.pool.evictionCount + lru.length + missCount s ops ∧
      (PoolOp.run s ops).pool.capacity = s.pool.capacity := by
  induction ops generalizing s lru with
  | nil => exact ⟨lru, h, rfl, rfl⟩
  | cons op ops ih =>
    obtain ⟨mid, hmid, hcount, hsize⟩ := step_count h hcap op
    obtain ⟨lru', hinv, hrun, hend⟩ := ih hmid (by omega)
    refine ⟨lru', hinv, ?_, hend.trans hsize⟩
    change (PoolOp.run (op.step s) ops).pool.evictionCount + _ = _
    rw [hrun, hcount, missCount]
    omega

/-- A pool that has served nothing yet, over any disk. -/
def start (capacity : ℕ) (disk : Disk) : Storage := ⟨BufferPool.new capacity, disk⟩

/-- With no free frame left the list that `evictLRU` pops from has a tail. -/
theorem Inv.tail_ne_none {p : BufferPool} {lru : List (Addr × ℕ)} (h : Inv p [] lru)
    (hcap : 1 ≤ p.capacity) (hfull : p.freeCount = 0) : p.lruList.tail ≠ none := by
  have hlen := h.length_eq
  rw [List.length_nil] at hlen
  apply h.spine.tail_ne_none
  intro hnil
  rw [hnil, List.length_nil] at hlen
  omega

/-- The pool's structures agree after every run, every miss so far is an eviction or
an occupied frame, and a fetch that has to evict finds a tail to evict. -/
theorem run_representation (capacity : ℕ) (hcap : 1 ≤ capacity) (disk : Disk)
    (ops : List PoolOp) :
    ∃ lru, Inv (PoolOp.run (start capacity disk) ops).pool [] lru ∧
      (PoolOp.run (start capacity disk) ops).pool.capacity = capacity ∧
      missCount (start capacity disk) ops =
        (PoolOp.run (start capacity disk) ops).pool.evictionCount + lru.length ∧
      ∀ hash pid, Misses hash pid (PoolOp.run (start capacity disk) ops) →
        (PoolOp.run (start capacity disk) ops).pool.freeCount = 0 →
        (PoolOp.run (start capacity disk) ops).pool.lruList.tail ≠ none := by
  obtain ⟨lru, hinv, hcount, hsize⟩ :=
    run_count (s := start capacity disk) (inv_new capacity) hcap ops
  refine ⟨lru, hinv, hsize, ?_, ?_⟩
  · change _ = 0 + 0 + missCount _ ops at hcount
    omega
  · intro hash pid _ hfull
    exact hinv.tail_ne_none (hsize.symm ▸ hcap) hfull

/-- Three fetches through one frame: the last two evict. -/
theorem run_representation_oneFrame :
    1 ≤ 1 ∧ ∃ lru, Inv (PoolOp.run (start 1 ⟨fun _ => none, []⟩)
        [.fetchPage makeOrdersSchema.filePath 3 0, .fetchPage makeOrdersSchema.filePath 3 1,
          .fetchPage makeOrdersSchema.filePath 3 0]).pool [] lru ∧ 3 = 2 + lru.length := by
  obtain ⟨lru, hinv, hsize, hcount, -⟩ := run_representation 1 (by decide) ⟨fun _ => none, []⟩
    [.fetchPage makeOrdersSchema.filePath 3 0, .fetchPage makeOrdersSchema.filePath 3 1,
      .fetchPage makeOrdersSchema.filePath 3 0]
  exact ⟨by decide, lru, hinv, hcount⟩

end NanoDB.PoolInvariant
