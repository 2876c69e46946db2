import NanoDB.ExecutorRefinement
import NanoDB.PoolRecency

/-!
A page that a statement goes on using while it fetches other pages. The pool does not pin
it: its frame holds the page only as long as fewer keys than the pool has frames have
been fetched since.
-/
namespace NanoDB.PinnedPage

open CTypes BufferPool DiskManager PoolInvariant PoolCoherence PoolRecency Executor Recency

def pageKey (schema : TableSchema) (pid : ℕ) : ℤ :=
  makePageKey (SystemCatalog.tableHash schema.tableName.val) pid

/-- The frame holds the page, and only keys of the list were fetched after it. -/
structure Pinned (schema : TableSchema) (pid f : ℕ) (after : List ℤ) (s : Storage) : Prop where
  holds : Holds s f schema.filePath pid
  ahead : ∃ lru xs ys, Inv s.pool [] lru ∧
    listKeys s.pool lru = xs ++ pageKey schema pid :: ys ∧ xs ⊆ after

theorem Pinned.mono {schema : TableSchema} {pid f : ℕ} {after after' : List ℤ} {s : Storage}
    (h : Pinned schema pid f after s) (hsub : after ⊆ after') : Pinned schema pid f after' s := by
  obtain ⟨lru, xs, ys, hinv, hkeys, hxs⟩ := h.ahead
  exact ⟨h.holds, lru, xs, ys, hinv, hkeys, List.Subset.trans hxs hsub⟩

section Fetch
variable {U : PageUniverse} {s : Storage} {st : Store} {schema other : TableSchema}
  {p pid f : ℕ} {after after' : List ℤ}

theorem fetchTable_capacity (h : Coherent U s st) (schema : TableSchema) (pid : ℕ) :
    (fetchTable schema pid s).2.pool.capacity = s.pool.capacity := by
  obtain ⟨lru, hinv⟩ := h.inv
  obtain ⟨-, -, -, hcap, -⟩ := fetch_touch schema.filePath
    (SystemCatalog.tableHash schema.tableName.val) pid hinv h.cap
  exact hcap

/-- A page that a fetch leaves in the pool stays in its frame. -/
theorem holds_of_cached (h : Coherent U s st) (hf : Holds s f schema.filePath p)
    (hU : U.has schema.filePath (SystemCatalog.tableHash schema.tableName.val) p)
    (hother : U.has other.filePath (SystemCatalog.tableHash other.tableName.val) pid)
    (hle : pid ≤ pageCount other.filePath s.disk)
    (hcached : Cached (fetchTable other pid s).2 (pageKey schema p)) :
    Holds (fetchTable other pid s).2 f schema.filePath p := by
  obtain ⟨lru, hinv⟩ := h.inv
  obtain ⟨hfetch, -⟩ := fetchPage_coherent h hother hle
  obtain ⟨g, hg⟩ := hcached
  have hgholds := (hfetch.get_iff hU g).mp hg
  have hframes : ∀ e, e ≠ (fetchTable other pid s).1 →
      (Holds (fetchTable other pid s).2 e schema.filePath p ↔ Holds s e schema.filePath p) := by
    intro e he
    obtain ⟨hpage, hinfo⟩ := fetch_otherFrames other.filePath
      (SystemCatalog.tableHash other.tableName.val) pid hinv h.cap he
    exact holds_congr (congrArg Page.isValid hpage) hinfo
  by_cases hfg : g = f
  · rwa [← hfg]
  · by_cases hret : g = (fetchTable other pid s).1
    · -- Then `f` is another frame, untouched, and two frames hold the page.
      have hf' : f ≠ (fetchTable other pid s).1 := fun heq => hfg (hret.trans heq.symm)
      exact (hframes f hf').mpr hf
    · exact absurd (h.holds_unique ((hframes g hret).mp hgholds) hf) hfg

/-- The page just fetched is the most recent one. -/
theorem pinned_fetchTable (h : Coherent U s st)
    (hU : U.has schema.filePath (SystemCatalog.tableHash schema.tableName.val) p)
    (hle : p ≤ pageCount schema.filePath s.disk) :
    Pinned schema p (fetchTable schema p s).1 [] (fetchTable schema p s).2 := by
  obtain ⟨lru, hinv⟩ := h.inv
  obtain ⟨lru', hinv', hkeys, -⟩ := fetch_touch schema.filePath
    (SystemCatalog.tableHash schema.tableName.val) p hinv h.cap
  obtain ⟨rest, htouch⟩ := touch_self h.cap (listKeys s.pool lru) (pageKey schema p)
  exact ⟨(fetchPage_coherent h hU hle).2, lru', [], rest, hinv', hkeys.trans htouch,
    List.Subset.refl _⟩

/-- A fetch keeps a pinned page if it is for this page, or for one of the keys allowed
after it, of which there are fewer than frames. -/
theorem fetchTable_pinned (h : Coherent U s st) (hpin : Pinned schema p f after s)
    (hU : U.has schema.filePath (SystemCatalog.tableHash schema.tableName.val) p)
    (hother : U.has other.filePath (SystemCatalog.tableHash other.tableName.val) pid)
    (hle : pid ≤ pageCount other.filePath s.disk)
    (hkey : pageKey other pid = pageKey schema p ∨
      pageKey other pid ∈ after' ∧ after ⊆ after' ∧ after'.length < s.pool.capacity) :
    Pinned schema p f after' (fetchTable other pid s).2 := by
  obtain ⟨lru, xs, ys, hinv, hkeys, hxs⟩ := hpin.ahead
  obtain ⟨lru', hinv', htouch, -⟩ := fetch_touch other.filePath
    (SystemCatalog.tableHash other.tableName.val) pid hinv h.cap
  have hnodup := nodup_listKeys hinv
  rw [hkeys] at htouch hnodup
  obtain ⟨xs', ys', hsplit, hsub⟩ : ∃ xs' ys', touch s.pool.capacity
      (xs ++ pageKey schema p :: ys) (pageKey other pid) = xs' ++ pageKey schema p :: ys' ∧
        xs' ⊆ after' := by
    by_cases hsame : pageKey other pid = pageKey schema p
    · obtain ⟨rest, hrest⟩ := touch_self h.cap (xs ++ pageKey schema p :: ys) (pageKey other pid)
      exact ⟨[], rest, by rw [hrest, hsame]; rfl, List.nil_subset _⟩
    · obtain ⟨hin, hsub, hfew⟩ := hkey.resolve_left hsame
      exact touch_ahead hnodup hsame hin (List.Subset.trans hxs hsub) hfew
  have hnow := htouch.trans hsplit
  refine ⟨holds_of_cached h hpin.holds hU hother hle ?_, lru', xs', ys', hinv', hnow, hsub⟩
  exact (mem_listKeys hinv' _).mp (by rw [hnow]; simp)

end Fetch

/-- Fetches under the keys, one after the other, keep a page whose own key is `key`, with
at most the keys `before` fetched after it so far and `after` in the end. -/
def Survives (cap : ℕ) (key : ℤ) (keys : ℕ → ℤ) (m : ℕ) (before after : List ℤ) : Prop :=
  ∃ sets : ℕ → List ℤ, before ⊆ sets 0 ∧ sets m ⊆ after ∧ ∀ k, k < m →
    keys k = key ∨ (keys k ∈ sets (k + 1) ∧ sets k ⊆ sets (k + 1) ∧ (sets (k + 1)).length < cap)

section Survives
variable {cap m p : ℕ} {key : ℤ} {keys : ℕ → ℤ} {before after : List ℤ}

/-- A set of keys that is smaller than the pool may be fetched again and again. -/
theorem survives_of_set (hbefore : before ⊆ after)
    (hkeys : ∀ k, k < m → keys k = key ∨ keys k ∈ after) (hlen : after.length < cap) :
    Survives cap key keys m before after := by
  refine ⟨fun _ => after, hbefore, List.Subset.refl _, ?_⟩
  intro k hk
  exact (hkeys k hk).imp_right fun hin => ⟨hin, List.Subset.refl _, hlen⟩

/-- A run through all pages of the page's own table, the first after it was fetched: it
comes up again before the pool is full of the pages ahead of it, and stays if those
behind it do not fill the pool. -/
theorem survives_own (hkey : keys p = key) (hlow : p < cap) (hhigh : m ≤ p + cap) (hp : p < m)
    (hafter : ∀ k, k < m → k ≠ p → keys k ∈ after) : Survives cap key keys m [] after := by
  refine ⟨fun k => if k ≤ p then (List.range k).map keys
    else (List.range' (p + 1) (k - (p + 1))).map keys, List.nil_subset _, ?_, ?_⟩
  · dsimp only
    rw [if_neg (show ¬ m ≤ p by omega)]
    intro a ha
    obtain ⟨k, hk, rfl⟩ := List.mem_map.mp ha
    have hbounds := List.mem_range'_1.mp hk
    exact hafter k (by omega) (by omega)
  · intro k hk
    by_cases hown : k = p
    · exact Or.inl (hown ▸ hkey)
    · right
      dsimp only
      by_cases hle : k < p
      · rw [if_pos (show k + 1 ≤ p by omega), if_pos (show k ≤ p by omega)]
        refine ⟨List.mem_map_of_mem (List.mem_range.mpr (Nat.lt_succ_self k)),
          List.map_subset _ (List.range_subset.mpr (Nat.le_succ k)), ?_⟩
        rw [List.length_map, List.length_range]
        omega
      · rw [if_neg (show ¬ k + 1 ≤ p by omega), if_neg (show ¬ k ≤ p by omega)]
        refine ⟨List.mem_map_of_mem (List.mem_range'_1.mpr ⟨by omega, by omega⟩),
          List.map_subset _ ?_, ?_⟩
        · intro a ha
          have hbounds := List.mem_range'_1.mp ha
          exact List.mem_range'_1.mpr ⟨by omega, by omega⟩
        · rw [List.length_map, List.length_range']
          omega

end Survives

end NanoDB.PinnedPage
