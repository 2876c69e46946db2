import NanoDB.JoinPairs

/-!
When a join of two tables prints the pairs of their logical rows. The outer page has to
stay in the pool while its rows are joined, which the sizes of the tables and of the pool
decide, and no page of the two tables may wait to be written when it is looked for. A
limit that is reached before makes both irrelevant.
-/
namespace NanoDB.JoinResult

open CTypes BufferPool DiskManager PoolInvariant PoolCoherence Executor RecordScan TableStore
open Engine Database FlushVisibility PinnedPage LimitedOutput JoinPairs

variable {D : Type} [CDouble D]

def diskRows (schema : TableSchema) (s : Storage) : List (Row D) :=
  (List.range (pageCount schema.filePath s.disk)).flatMap fun i =>
    Page.rows schema (pageView schema s i)

def firstPage (schema : TableSchema) (s : Storage) : ℕ :=
  (List.range (pageCount schema.filePath s.disk)).findIdx fun p =>
    0 < slotCount (pageView schema s p)

/-- The storage in which the first outer row is joined: the pages up to its own have been
fetched, which may have written the last page of the inner table. -/
def firstJoin (s0 : TableSchema) (s : Storage) : Storage :=
  (List.range (firstPage s0 s + 1)).foldl (Engine.readPage s0) s

def pairsBefore (same : Row D → Row D → Bool) (s0 s1 : TableSchema) (s : Storage) (p r : ℕ) :
    List (Row D × Option (Row D)) :=
  pairsBy same ((List.range p).flatMap (fun i => Page.rows s0 (pageView s0 s i)) ++
    (Page.rows s0 (pageView s0 s p)).take r) (diskRows s1 (firstJoin s0 s))

/-- The inner loop for record `r` of the outer page `p` does not evict this page: the pages
that it fetches since the outer page was fetched last do not fill the pool. -/
def StaysCached (s0 s1 : TableSchema) (s : Storage) (p r : ℕ) : Prop :=
  if s0.filePath = s1.filePath then
    if r = 0 then p < s.pool.capacity ∧ pageCount s1.filePath s.disk ≤ p + s.pool.capacity
    else pageCount s1.filePath s.disk ≤ s.pool.capacity
  else pageCount s1.filePath s.disk < s.pool.capacity

instance (s0 s1 : TableSchema) (s : Storage) (p r : ℕ) : Decidable (StaysCached s0 s1 s p r) :=
  inferInstanceAs (Decidable (ite _ _ _))

/-- Until the limit is reached no inner loop misses a waiting page or evicts the outer
page, and the outer table has no page waiting. -/
structure KeptBy (same : Row D → Row D → Bool) (s0 s1 : TableSchema) (printLimit : ℤ)
    (s : Storage) : Prop where
  rows : ∀ p, p < pageCount s0.filePath s.disk → ∀ r, r < slotCount (pageView s0 s p) →
    printLimit ≤ (pairsBefore same s0 s1 s p (r + 1)).length ∨
      (Settled s1 (firstJoin s0 s) ∧ StaysCached s0 s1 (firstJoin s0 s) p r)
  last : Settled s0 s ∨
    printLimit ≤ (pairsBefore same s0 s1 s (pageCount s0.filePath s.disk) 0).length

instance (same : Row D → Row D → Bool) (s0 s1 : TableSchema) (printLimit : ℤ) (s : Storage) :
    Decidable (KeptBy same s0 s1 printLimit s) :=
  decidable_of_iff ((∀ p, p < pageCount s0.filePath s.disk →
      ∀ r, r < slotCount (pageView s0 s p) →
        printLimit ≤ (pairsBefore same s0 s1 s p (r + 1)).length ∨
          (Settled s1 (firstJoin s0 s) ∧ StaysCached s0 s1 (firstJoin s0 s) p r)) ∧
      (Settled s0 s ∨
        printLimit ≤ (pairsBefore same s0 s1 s (pageCount s0.filePath s.disk) 0).length))
    ⟨fun h => ⟨h.1, h.2⟩, fun h => ⟨h.rows, h.last⟩⟩

variable (D) in
def OuterKept (s0 s1 : TableSchema) (printLimit : ℤ) (s : Storage) : Prop :=
  KeptBy (keysEqual : Row D → Row D → Bool) s0 s1 printLimit s

variable (D) in
def LinesKept (s0 s1 : TableSchema) (printLimit : ℤ) (s : Storage) : Prop :=
  KeptBy (keysMatch : Row D → Row D → Bool) s0 s1 printLimit s

instance (s0 s1 : TableSchema) (printLimit : ℤ) (s : Storage) :
    Decidable (OuterKept D s0 s1 printLimit s) :=
  inferInstanceAs (Decidable (KeptBy (keysEqual : Row D → Row D → Bool) s0 s1 printLimit s))

instance (s0 s1 : TableSchema) (printLimit : ℤ) (s : Storage) :
    Decidable (LinesKept D s0 s1 printLimit s) :=
  inferInstanceAs (Decidable (KeptBy (keysMatch : Row D → Row D → Bool) s0 s1 printLimit s))

section Keys
variable {s0 s1 : TableSchema} {s : Storage} {m p r : ℕ}

def otherKeys (s0 s1 : TableSchema) (m p : ℕ) : List ℤ :=
  ((if s0.filePath = s1.filePath then (List.range m).erase p else List.range m)).map (pageKey s1)

theorem survives_of_staysCached (hm : pageCount s1.filePath s.disk = m)
    (hown : s0.filePath = s1.filePath → s0 = s1 ∧ p < m) (h : StaysCached s0 s1 s p r) :
    Survives s.pool.capacity (pageKey s0 p) (pageKey s1) m
      (if r = 0 then [] else otherKeys s0 s1 m p) (otherKeys s0 s1 m p) := by
  unfold StaysCached at h
  rw [hm] at h
  unfold otherKeys
  by_cases hpath : s0.filePath = s1.filePath
  · obtain ⟨rfl, hp⟩ := hown hpath
    have hothers : ∀ k, k < m → k ≠ p → pageKey s0 k ∈ ((List.range m).erase p).map (pageKey s0) :=
      fun k hk hne => List.mem_map_of_mem
        ((List.mem_erase_of_ne hne).mpr (List.mem_range.mpr hk))
    rw [if_pos rfl] at h ⊢
    by_cases hr : r = 0
    · rw [if_pos hr] at h ⊢
      exact survives_own rfl h.1 h.2 hp hothers
    · rw [if_neg hr] at h ⊢
      apply survives_of_set (List.Subset.refl _)
      · intro k hk
        by_cases hkp : k = p
        · exact Or.inl (congrArg _ hkp)
        · exact Or.inr (hothers k hk hkp)
      · rw [List.length_map, List.length_erase_of_mem (List.mem_range.mpr hp), List.length_range]
        omega
  · rw [if_neg hpath] at h ⊢
    apply survives_of_set
    · split
      · exact List.nil_subset _
      · exact List.Subset.refl _
    · exact fun k hk => Or.inr (List.mem_map_of_mem (List.mem_range.mpr hk))
    · rw [List.length_map, List.length_range]
      exact h

end Keys

section Start
variable {U : PageUniverse} {s : Storage} {st : Store} {s0 s1 : TableSchema} {L : ℤ} {k : ℕ}

theorem readPages_follows (h : Coherent U s st)
    (hU : Covers U s0 (pageCount s0.filePath s.disk)) (hk : k ≤ pageCount s0.filePath s.disk + 1) :
    Follows U st s ((List.range k).foldl (Engine.readPage s0) s) := by
  induction k with
  | zero => exact ⟨h, FilesGrow.refl _, rfl⟩
  | succ k ih =>
    have hfollow := ih (by omega)
    rw [List.range_succ, List.foldl_append, List.foldl_cons, List.foldl_nil, Engine.readPage]
    split
    · rename_i hlt
      exact hfollow.trans
        (fetchTable_follows hfollow.coherent (hU k (by omega)) (Nat.le_of_lt hlt))
    · exact hfollow

/-- Before the first page with a record there are no rows. -/
theorem slotCount_before (hk : k < firstPage s0 s) : slotCount (pageView s0 s k) = 0 := by
  have hnot := List.not_of_lt_findIdx hk
  rw [List.getElem_range] at hnot
  simpa using hnot

theorem firstPage_le (s0 : TableSchema) (s : Storage) :
    firstPage s0 s ≤ pageCount s0.filePath s.disk := by
  unfold firstPage
  exact List.findIdx_le_length.trans_eq List.length_range

/-- A page without records ends the record loop at once. -/
theorem joinRecords_stop (inner : Option TableSchema) {f ri : ℕ} {acc : JoinState D}
    (h : (acc.2.pool.pages f).getRecordCount ≤ ri) (fuel : ℕ) :
    joinRecords s0 inner L f fuel ri acc = acc := by
  cases fuel with
  | zero => rfl
  | succ fuel =>
    rw [joinRecords]
    exact if_neg fun hcond => absurd hcond.1 (by omega)

/-- A page without records is fetched and nothing else happens. -/
theorem joinOuterPage_empty (inner : Option TableSchema) {acc : JoinState D}
    (h : Coherent U acc.2 st)
    (hU0 : U.has s0.filePath (SystemCatalog.tableHash s0.tableName.val) k)
    (hle : k ≤ pageCount s0.filePath acc.2.disk) (hroom : (acc.1.length : ℤ) < L)
    (hempty : slotCount (st.mem s0.filePath k) = 0) :
    joinOuterPage s0 inner L acc k = (acc.1, (fetchTable s0 k acc.2).2) := by
  have hcount : Page.recordCount (st.mem s0.filePath k) ≤ (0 : ℕ) := by
    unfold slotCount at hempty
    omega
  rw [joinOuterPage, if_pos hroom]
  apply joinRecords_stop
  change Page.recordCount _ ≤ _
  rw [fetchTable_data h hU0 hle]
  exact hcount

theorem joinOuterPages_empty (inner : Option TableSchema) (h : Coherent U s st)
    (hU : Covers U s0 (pageCount s0.filePath s.disk)) (hL : 0 < L) (hk : k ≤ firstPage s0 s) :
    (List.range k).foldl (joinOuterPage (D := D) s0 inner L) ([], s) =
      ([], (List.range k).foldl (Engine.readPage s0) s) := by
  induction k with
  | zero => rfl
  | succ k ih =>
    have hn := firstPage_le s0 s
    have hfollow := readPages_follows h hU (show k ≤ _ by omega)
    have hgrow := hfollow.grows s0.filePath
    have hhas := hU k (by omega)
    have hempty := slotCount_before (show k < firstPage s0 s by omega)
    rw [pageView_of_has h hhas] at hempty
    rw [List.range_succ, List.foldl_append, List.foldl_append, ih (by omega), List.foldl_cons,
      List.foldl_nil, List.foldl_cons, List.foldl_nil, Engine.readPage, if_pos (by omega)]
    have hle : k ≤ pageCount s0.filePath
        ((List.range k).foldl (Engine.readPage s0) s).disk := by omega
    exact joinOuterPage_empty inner hfollow.coherent hhas hle hL hempty

end Start

section Loop
variable {db : Database} {U : PageUniverse} {s : Storage} {st : Store} {s0 s1 : TableSchema}
  {L : ℤ} {m n p r : ℕ}

theorem joinOuter_full (inner : Option TableSchema) (acc : JoinState D)
    (hfull : L ≤ acc.1.length) (pids : List ℕ) :
    pids.foldl (joinOuterPage s0 inner L) acc = acc := by
  induction pids with
  | nil => rfl
  | cons pid pids ih =>
    rw [List.foldl_cons, joinOuterPage, if_neg (by omega)]
    exact ih

/-- All pages of a settled table that lie on known pages are on disk. -/
theorem settled_size (h : Coherent U s st) (hU : Reads U s1 (st.size s1.filePath))
    (hset : Settled s1 s) : st.size s1.filePath = pageCount s1.filePath s.disk := by
  have hle := h.pageCount_le_size s1.filePath
  by_contra hne
  have hcovers : Covers U s1 (pageCount s1.filePath s.disk) := fun i hi => hU i (by omega)
  exact hne (hset.pageCount_eq h hcovers).symm

theorem firstJoin_eq (h : firstPage s0 s < pageCount s0.filePath s.disk) :
    firstJoin s0 s = (fetchTable s0 (firstPage s0 s)
      ((List.range (firstPage s0 s)).foldl (Engine.readPage s0) s)).2 := by
  have hgrow : pageCount s0.filePath s.disk ≤ pageCount s0.filePath
      ((List.range (firstPage s0 s)).foldl (Engine.readPage s0) s).disk :=
    FilesGrow.foldl id (Engine.readPage s0) (readPage_grows s0) _ s s0.filePath
  rw [firstJoin, List.range_succ, List.foldl_append, List.foldl_cons, List.foldl_nil,
    Engine.readPage, if_pos (h.trans_le hgrow)]

/-- The rows seen through the pool are those of the store. -/
theorem pageView_rows {schema : TableSchema} (h : Coherent U s st) (hU : Reads U schema n) :
    ((List.range n).flatMap fun i => Page.rows schema (pageView schema s i) : List (Row D)) =
      storeRows schema st n := by
  unfold storeRows
  rw [List.flatMap_congr]
  intro i hi
  rw [pageView_of_has h (hU i (List.mem_range.mp hi))]

theorem pairsBefore_eq (h : Coherent U s st)
    (hU0 : Covers U s0 (pageCount s0.filePath s.disk)) (hU : Reads U s1 (st.size s1.filePath))
    (hp : p ≤ pageCount s0.filePath s.disk) :
    pairsBefore (keysMatch : Row D → Row D → Bool) s0 s1 s p r = joinLines (rowsBefore s0 st p r)
      (storeRows s1 st (pageCount s1.filePath (firstJoin s0 s).disk)) := by
  have hfirst := firstPage_le s0 s
  have hfollow : Follows U st s (firstJoin s0 s) := readPages_follows h hU0 (by omega)
  have hsize := hfollow.coherent.pageCount_le_size s1.filePath
  have hbefore : Reads U s0 p := fun i hi => hU0 i (by omega)
  rw [pairsBefore, diskRows, pageView_rows hfollow.coherent (hU.mono hsize),
    pageView_rows h hbefore, pageView_of_has h (hU0 p hp), rowsBefore]
  rfl

/-- The condition on the rows in terms of the store. -/
theorem rowKept_of_linesKept (h : Coherent U s st)
    (hU0 : Covers U s0 (pageCount s0.filePath s.disk)) (hU : Reads U s1 (st.size s1.filePath))
    (hsame : s0.filePath = s1.filePath → s0 = s1)
    (hkept : LinesKept D s0 s1 L s) (hp : p < pageCount s0.filePath s.disk)
    (hr : r < slotCount (st.mem s0.filePath p)) :
    RowKept D (otherKeys s0 s1 (pageCount s1.filePath (firstJoin s0 s).disk) p) st s0 s1 L
      (firstJoin s0 s).pool.capacity (pageCount s1.filePath (firstJoin s0 s).disk) p r := by
  have hfirst := firstPage_le s0 s
  have hfollow : Follows U st s (firstJoin s0 s) := readPages_follows h hU0 (by omega)
  have hrow := hkept.rows p hp r (by rwa [pageView_of_has h (hU0 p hp.le)])
  rw [pairsBefore_eq h hU0 hU hp.le] at hrow
  apply hrow.imp_right
  rintro ⟨hset, hstays⟩
  refine ⟨settled_size hfollow.coherent hU hset, survives_of_staysCached rfl ?_ hstays⟩
  intro hpath
  have hgrow := hfollow.grows s1.filePath
  have heq := hsame hpath
  exact ⟨heq, (heq ▸ hp).trans_le hgrow⟩

theorem storeRows_firstPage (h : Coherent U s st)
    (hU0 : Covers U s0 (pageCount s0.filePath s.disk)) :
    (storeRows s0 st (firstPage s0 s) : List (Row D)) = [] := by
  have hfirst := firstPage_le s0 s
  rw [← pageView_rows h fun i hi => hU0 i (by omega), List.flatMap_eq_nil_iff]
  intro i hi
  have hempty := slotCount_before (List.mem_range.mp hi)
  unfold slotCount at hempty
  rw [Page.rows, hempty]
  rfl

/-- The outer loop from the first page with a record on. -/
theorem joinOuterPages_emit (h : Coherent U s st)
    (hok : ∀ i, Page.CountOk s0 (st.mem s0.filePath i))
    (hU0 : Covers U s0 (pageCount s0.filePath s.disk)) (hU : Reads U s1 (st.size s1.filePath))
    (hsame : s0.filePath = s1.filePath → s0 = s1) (hkept : LinesKept D s0 s1 L s) (hL : 0 < L)
    (hm : pageCount s1.filePath (firstJoin s0 s).disk = m)
    (hfirst : firstPage s0 s + 1 ≤ n) (hn : n ≤ pageCount s0.filePath s.disk) :
    ((List.range n).foldl (joinOuterPage (D := D) s0 (some s1) L) ([], s)).1 =
        emit L.toNat [] (joinLines (storeRows s0 st n) (storeRows s1 st (m + 1))) ∧
      Follows U st (firstJoin s0 s)
        ((List.range n).foldl (joinOuterPage (D := D) s0 (some s1) L) ([], s)).2 := by
  have hstart : Follows U st s (firstJoin s0 s) := readPages_follows h hU0 (by omega)
  have hcount := hstart.grows s0.filePath
  subst hm
  induction n, hfirst using Nat.le_induction with
  | base =>
    have hbefore := readPages_follows h hU0 (show firstPage s0 s ≤ _ by omega)
    have hle : firstPage s0 s ≤ pageCount s0.filePath
        ((List.range (firstPage s0 s)).foldl (Engine.readPage s0) s).disk :=
      (show firstPage s0 s ≤ _ by omega).trans (hbefore.grows s0.filePath)
    rw [List.range_succ, List.foldl_append, joinOuterPages_empty _ h hU0 hL (le_refl _),
      List.foldl_cons, List.foldl_nil]
    apply joinFetched_emit hstart.coherent rfl hU (hU0 _ (by omega)) (hok _)
      (fun r hr => rowKept_of_linesKept h hU0 hU hsame hkept (by omega) hr) _ hbefore.coherent
    · exact hle
    · exact hL
    · rw [← firstJoin_eq (by omega)]
      exact ⟨hstart.coherent, FilesGrow.refl _, rfl⟩
    · rw [storeRows_firstPage h hU0]
      exact (emit_nil _ _).symm
  | succ n _ ih =>
    obtain ⟨hout, hfollow⟩ := ih (by omega)
    rw [List.range_succ, List.foldl_append, List.foldl_cons, List.foldl_nil]
    exact joinOuterPage_emit hstart.coherent rfl hU (hU0 n (by omega)) (by omega) (hok n)
      (fun r hr => rowKept_of_linesKept h hU0 hU hsame hkept (by omega) hr) _ hfollow hout

/-- The outer loop prints the pairs of the rows on the pages that it counts. -/
theorem joinOuterPages_all (h : Coherent U s st)
    (hok : ∀ i, Page.CountOk s0 (st.mem s0.filePath i))
    (hU0 : Covers U s0 (pageCount s0.filePath s.disk)) (hU : Reads U s1 (st.size s1.filePath))
    (hsame : s0.filePath = s1.filePath → s0 = s1) (hkept : LinesKept D s0 s1 L s)
    (hm : pageCount s1.filePath (firstJoin s0 s).disk = m)
    (hn : pageCount s0.filePath s.disk = n) :
    ((List.range n).foldl (joinOuterPage (D := D) s0 (some s1) L) ([], s)).1 =
      emit L.toNat [] (joinLines (storeRows s0 st n) (storeRows s1 st (m + 1))) := by
  by_cases hL : 0 < L
  · by_cases hrows : firstPage s0 s + 1 ≤ n
    · exact (joinOuterPages_emit h hok hU0 hU hsame hkept hL hm hrows hn.ge).1
    · have hfirst := firstPage_le s0 s
      obtain rfl : firstPage s0 s = n := by omega
      rw [joinOuterPages_empty _ h hU0 hL (le_refl _), storeRows_firstPage h hU0]
      exact (emit_nil _ _).symm
  · have hfull : L ≤ (([] : List (Row D × Option (Row D))).length : ℤ) := not_lt.mp hL
    rw [joinOuter_full _ _ hfull, emit_full]
    change L.toNat ≤ 0
    omega

/-- The pages that are not counted add nothing, or come behind the limit. -/
theorem emit_logicalRows (h : Coherent U s st)
    (hU0 : Covers U s0 (pageCount s0.filePath s.disk)) (hU : Reads U s1 (st.size s1.filePath))
    (hkept : LinesKept D s0 s1 L s) (hm : pageCount s1.filePath (firstJoin s0 s).disk = m)
    (hn : pageCount s0.filePath s.disk = n) :
    emit L.toNat [] (joinLines (storeRows s0 st n : List (Row D)) (storeRows s1 st (m + 1))) =
      (joinLines (storeRows s0 st (st.size s0.filePath))
        (storeRows s1 st (st.size s1.filePath))).take L.toNat := by
  have hfirst := firstPage_le s0 s
  have hstart : Follows U st s (firstJoin s0 s) := readPages_follows h hU0 (by omega)
  have hinner := size_le hstart.coherent s1.filePath
  have houter := h.pageCount_le_size s0.filePath
  rw [← storeRows_of_size_le hstart.coherent (hinner.trans_eq (congrArg (· + 1) hm)), ← emit_start]
  rcases hkept.last with hset | hlimit
  · have hbound := size_le h s0.filePath
    have hbefore : Reads U s0 (st.size s0.filePath) := fun i hi => hU0 i (by omega)
    rw [settled_size h hbefore hset, hn]
  · rw [pairsBefore_eq h hU0 hU (le_refl _), rowsBefore_zero, hm, hn] at hlimit
    obtain ⟨rest, hrest⟩ : ∃ rest, (storeRows s0 st (st.size s0.filePath) : List (Row D)) =
        storeRows s0 st n ++ rest := storeRows_prefix s0 st (hn.symm.trans_le houter)
    obtain ⟨rest', hrest'⟩ : ∃ rest, (storeRows s1 st (m + 1) : List (Row D)) =
        storeRows s1 st m ++ rest := storeRows_prefix s1 st (Nat.le_succ m)
    have hmore := joinLines_length_le (storeRows s0 st n : List (Row D)) (storeRows s1 st m) rest'
    rw [← hrest'] at hmore
    rw [hrest]
    apply emit_more_rows rfl
    apply le_length_emit
    change _ ≤ 0 + _
    omega

end Loop

section IntegerKeys
variable {s : Storage} {s0 s1 : TableSchema} {L : ℤ}

theorem getField_rows {schema : TableSchema} {i : ℕ}
    (hcol : ∃ col, schema.columns[i]? = some col ∧ col.type = .INT) {data : PageData}
    {row : Row D} (h : row ∈ Page.rows schema data) : ∃ v, row.getField i = some (.int v) := by
  obtain ⟨r, -, rfl⟩ := List.mem_map.mp h
  exact getField_int hcol data r

theorem getField_pages {schema : TableSchema} {i : ℕ}
    (hcol : ∃ col, schema.columns[i]? = some col ∧ col.type = .INT) {pages : ℕ → PageData} {n : ℕ}
    {row : Row D} (h : row ∈ (List.range n).flatMap fun k => Page.rows schema (pages k)) :
    ∃ v, row.getField i = some (.int v) := by
  obtain ⟨k, -, hk⟩ := List.mem_flatMap.mp h
  exact getField_rows hcol hk

/-- With integer keys the condition is the same for the keys and for what the join compares. -/
theorem linesKept_of_outerKept (hcols : JoinColumns s0 s1) (h : OuterKept D s0 s1 L s) :
    LinesKept D s0 s1 L s := by
  have hbefore : ∀ p r, pairsBefore (keysMatch : Row D → Row D → Bool) s0 s1 s p r =
      pairsBefore keysEqual s0 s1 s p r := by
    intro p r
    refine joinLines_eq (fun r0 hr0 => ?_) fun r1 hr1 => getField_pages hcols.key1 hr1
    rcases List.mem_append.mp hr0 with hmem | hmem
    · exact getField_pages hcols.key0 hmem
    · exact getField_rows hcols.key0 (List.mem_of_mem_take hmem)
  constructor
  · intro p hp r hr
    rw [hbefore]
    exact h.rows p hp r hr
  · rw [hbefore]
    exact h.last

end IntegerKeys

section Statement
variable {db : Database} {s : Storage} {s0 s1 : TableSchema} {t1 t2 : List Byte} {printLimit : ℤ}

/-- A join of two registered tables reads them in the order of the statement. -/
theorem executeJoin_two (h0 : db.catalog.getSchema t1 = some s0)
    (h1 : db.catalog.getSchema t2 = some s1) (printLimit : ℤ) (s : Storage) :
    executeJoin (D := D) db.catalog t1 (some t2) none printLimit s =
      (List.range (pageCount s0.filePath s.disk)).foldl
        (joinOuterPage s0 (some s1) printLimit) ([], s) := by
  obtain ⟨-, hname0⟩ := db.getSchema_registered h0
  obtain ⟨-, hname1⟩ := db.getSchema_registered h1
  have horder := JoinOptimizer.optimize_pair db.catalog s.disk s0.tableName s1.tableName
  rw [hname0, List.map_singleton, hname1] at horder
  unfold executeJoin
  dsimp only [Option.toList_some, Option.toList_none]
  rw [List.append_nil, horder]
  dsimp only
  rw [hname0, h0]
  dsimp only [List.head?_cons, Option.bind_some]
  rw [hname1, h1]

/-- As long as no inner loop evicts the outer page and no page that waits to be written is
missed, a join prints the first lines of the logical rows, whatever the pool's capacity. -/
theorem executeJoin_lines (hs : Reachable D db s) (hkeys : db.KeysDistinct s.disk)
    (h0 : db.catalog.getSchema t1 = some s0) (h1 : db.catalog.getSchema t2 = some s1)
    (hkept : LinesKept D s0 s1 printLimit s) :
    (executeJoin (D := D) db.catalog t1 (some t2) none printLimit s).1 =
      (joinLines (logicalRows s0 s) (logicalRows s1 s)).take printLimit.toNat := by
  have hU := db.pages_coversAll hkeys
  obtain ⟨st, hcoh, hok⟩ := hs.coherent hU
  have hmem0 := db.getSchema_mem h0
  have hmem1 := db.getSchema_mem h1
  have hreads : Reads (db.pages hkeys) s1 (st.size s1.filePath) := by
    intro i hi
    have hsize := size_le hcoh s1.filePath
    exact hU s1 hmem1 i (by omega)
  rw [executeJoin_two h0 h1, joinOuterPages_all hcoh (hok s0 hmem0) (hU s0 hmem0) hreads
      (db.paths_inj s0 hmem0 s1 hmem1) hkept rfl rfl,
    emit_logicalRows hcoh (hU s0 hmem0) hreads hkept rfl rfl, logicalRows_eq hcoh (hU s0 hmem0),
    logicalRows_eq hcoh (hU s1 hmem1)]

/-- With integer keys these are the pairs of rows with equal keys. -/
theorem executeJoin_pairs (hs : Reachable D db s) (hkeys : db.KeysDistinct s.disk)
    (h0 : db.catalog.getSchema t1 = some s0) (h1 : db.catalog.getSchema t2 = some s1)
    (hcols : JoinColumns s0 s1) (hkept : OuterKept D s0 s1 printLimit s) :
    (executeJoin (D := D) db.catalog t1 (some t2) none printLimit s).1 =
      (joinPairs (logicalRows s0 s) (logicalRows s1 s)).take printLimit.toNat := by
  have hlines : joinLines (logicalRows s0 s : List (Row D)) (logicalRows s1 s) =
      joinPairs (logicalRows s0 s) (logicalRows s1 s) :=
    joinLines_eq (fun r0 hr0 => getField_pages hcols.key0 hr0)
      fun r1 hr1 => getField_pages hcols.key1 hr1
  rw [executeJoin_lines hs hkeys h0 h1 (linesKept_of_outerKept hcols hkept), hlines]

def customerOrder (capacity : ℕ) : Storage :=
  run tpch.catalog (start capacity noFiles)
    [.insert (parsed "INSERT INTO customer VALUES (1, 1, 1)"), .flushAll,
      .insert (parsed "INSERT INTO customer VALUES (2, 2, 1)"),
      .insert (parsed "INSERT INTO orders VALUES (7, 2)"), .flushAll]

theorem customerOrder_reachable {capacity : ℕ} (hcap : 1 ≤ capacity) :
    Reachable ℤ tpch (customerOrder capacity) :=
  ⟨capacity, noFiles, _, hcap, rfl, tpch.wellFormed_noFiles, rfl⟩

theorem customerOrder_columns : JoinColumns makeCustomerSchema makeOrdersSchema :=
  ⟨⟨_, rfl, rfl⟩, ⟨_, rfl, rfl⟩, by decide⟩

/-- In a pool of two frames the page of the customers stays in its frame. -/
theorem customerOrder_kept :
    (∀ t ∈ tpch.tables, pageCount t.filePath (customerOrder 2).disk ≤ 1) ∧
      OuterKept ℤ makeCustomerSchema makeOrdersSchema 20 (customerOrder 2) := by
  decide +kernel

/-- A pool of two frames holds both pages, so the join finds the order. -/
theorem executeJoin_pairs_two :
    (executeJoin (D := ℤ) tpch.catalog (ascii "customer") (some (ascii "orders")) none 20
        (customerOrder 2)).1 =
      (joinPairs (logicalRows makeCustomerSchema (customerOrder 2))
        (logicalRows makeOrdersSchema (customerOrder 2))).take 20 := by
  obtain ⟨hpages, hkept⟩ := customerOrder_kept
  exact executeJoin_pairs (customerOrder_reachable (by decide)) (tpch_keysDistinct hpages) rfl rfl
    customerOrder_columns hkept

/-- In a pool of one frame the order's page takes the place of the customers' page, whose
second row is never read. -/
theorem executeJoin_outer_evicted :
    Reachable ℤ tpch (customerOrder 1) ∧ tpch.KeysDistinct (customerOrder 1).disk ∧
      tpch.catalog.getSchema (ascii "customer") = some makeCustomerSchema ∧
      tpch.catalog.getSchema (ascii "orders") = some makeOrdersSchema ∧
      JoinColumns makeCustomerSchema makeOrdersSchema ∧
      (executeJoin (D := ℤ) tpch.catalog (ascii "customer") (some (ascii "orders")) none 20
          (customerOrder 1)).1.length = 0 ∧
      ((joinPairs (logicalRows makeCustomerSchema (customerOrder 1))
          (logicalRows makeOrdersSchema (customerOrder 1)) : List (Row ℤ × Option (Row ℤ))).take
        20).length = 1 := by
  have hstate : (∀ t ∈ tpch.tables, pageCount t.filePath (customerOrder 1).disk ≤ 1) ∧
      (executeJoin (D := ℤ) tpch.catalog (ascii "customer") (some (ascii "orders")) none 20
        (customerOrder 1)).1.length = 0 ∧
      ((joinPairs (logicalRows makeCustomerSchema (customerOrder 1))
        (logicalRows makeOrdersSchema (customerOrder 1)) : List (Row ℤ × Option (Row ℤ))).take
          20).length = 1 := by
    decide +kernel
  obtain ⟨hpages, houtput⟩ := hstate
  exact ⟨customerOrder_reachable (by decide), tpch_keysDistinct hpages, rfl, rfl,
    customerOrder_columns, houtput⟩

end Statement

end NanoDB.JoinResult
