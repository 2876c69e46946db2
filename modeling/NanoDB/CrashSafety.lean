import NanoDB.Sessions

/-!
What a killed process leaves in the table files. The disk changes only when the pool
writes a frame back, and a statement changes a page completely before the next fetch may
evict it. So whenever the process is killed, a page on disk is the page as it was after
some of the statements since the last flush.
-/
namespace NanoDB.CrashSafety

open CTypes BufferPool DiskManager PoolInvariant PoolCoherence Executor TableStore Engine Database
open Sessions WrittenPages PageRows RelationalRefinement

variable {D : Type} [CDouble D]

/-- No file got shorter, writes are as reliable as before, and every page on the second disk
is a page of the first one or a page that is allowed. -/
structure Saves (allowed : FilePath → ℕ → PageData → Prop) (s s' : Storage) : Prop where
  grows : FilesGrow s s'
  faults : s.disk.faults = [] → s'.disk.faults = []
  pages : ∀ path i, i < pageCount path s'.disk →
    (i < pageCount path s.disk ∧ filePage s'.disk path i = filePage s.disk path i) ∨
      allowed path i (filePage s'.disk path i)

def Between (st st' : Store) (path : FilePath) (i : ℕ) (data : PageData) : Prop :=
  data = st.mem path i ∨ data = st'.mem path i

namespace Saves

variable {allowed allowed' : FilePath → ℕ → PageData → Prop} {s s' s'' : Storage}

theorem of_disk_eq (h : s'.disk = s.disk) : Saves allowed s s' := by
  constructor
  · intro path
    rw [h]
  · intro hok
    rwa [h]
  · intro path i hi
    rw [h] at hi ⊢
    exact Or.inl ⟨hi, rfl⟩

theorem refl (s : Storage) : Saves allowed s s := of_disk_eq rfl

theorem trans (h : Saves allowed s s') (h' : Saves allowed s' s'') : Saves allowed s s'' := by
  constructor
  · exact h.grows.trans h'.grows
  · exact fun hok => h'.faults (h.faults hok)
  · intro path i hi
    rcases h'.pages path i hi with ⟨hlt, hsame⟩ | hnew
    · rw [hsame]
      exact h.pages path i hlt
    · exact Or.inr hnew

theorem mono (himp : ∀ path i data, allowed path i data → allowed' path i data)
    (h : Saves allowed s s') : Saves allowed' s s' :=
  ⟨h.grows, h.faults, fun path i hi => (h.pages path i hi).imp_right (himp path i _)⟩

/-- A loop over numbers whose every round saves allowed pages. -/
theorem range {A : Type} (storage : A → Storage) (round : A → ℕ → A) (a : A) (n : ℕ)
    (h : ∀ k < n, Saves allowed (storage ((List.range k).foldl round a))
      (storage (round ((List.range k).foldl round a) k))) :
    ∀ j ≤ n, Saves allowed (storage a) (storage ((List.range j).foldl round a)) := by
  intro j hj
  induction j with
  | zero => exact refl _
  | succ j ih =>
    rw [List.range_succ, List.foldl_append, List.foldl_cons, List.foldl_nil]
    exact (ih (by omega)).trans (h j (by omega))

end Saves

section Pool
variable {U : PageUniverse} {s : Storage} {st : Store}

/-- Writing an occupied frame back saves the store's page. -/
theorem saves_writePage (h : Coherent U s st) {f : ℕ} (hvalid : (s.pool.pages f).isValid = true)
    (pool : BufferPool) : Saves (Between st st) s
      ⟨pool, (writePage (s.pool.frameInfos f).filePath (s.pool.pages f) s.disk).2⟩ := by
  obtain ⟨i, hi, -, hle⟩ := h.known f hvalid
  have hpid : (s.pool.pages f).pageId = i := (h.frame_pageId hvalid).trans hi
  have hdata := h.cached f _ i ⟨hvalid, rfl, hi⟩
  constructor
  · exact pageCount_le_writePage _ _ s.disk
  · exact fun _ => writePage_faults h.reliable
  · intro path j hj
    rw [lt_pageCount_writePage h.reliable hpid hle] at hj
    rw [filePage_writePage h.reliable hpid]
    by_cases hpage : path = (s.pool.frameInfos f).filePath ∧ j = i
    · rw [if_pos hpage, hdata, hpage.1, hpage.2]
      exact Or.inr (Or.inl rfl)
    · rw [if_neg hpage]
      exact Or.inl ⟨hj.resolve_left hpage, rfl⟩

/-- The only write of a fetch is that of its victim. -/
theorem saves_fetchPage (h : Coherent U s st) (path : FilePath) (hash pid : ℤ) :
    Saves (Between st st) s (fetchPage path hash pid s).2 := by
  obtain ⟨lru, hinv⟩ := h.inv
  cases fetchPage_cases hinv h.cap path hash pid with
  | hit xs ys a f lru_eq key_eq fetch_eq touch_eq inv =>
    rw [fetch_eq]
    apply Saves.of_disk_eq
    rw [touch_eq]
  | free a f miss freeCount_pos notMem fetch_eq inv =>
    rw [fetch_eq]
    exact Saves.of_disk_eq rfl
  | evict xs a b f miss freeCount_eq lru_eq notMem fetch_eq inv =>
    have hvalid : (s.pool.pages f).isValid = true :=
      (isValid_iff hinv f).mpr (by simp [lru_eq])
    have hpop : s.pool.lruList.popTail.1 = f := by
      rw [lru_eq] at hinv
      exact (DoublyLinkedList.popTail_spine hinv.spine).1
    rw [fetch_eq, evictLRU_eq hpop]
    by_cases hdirty : (s.pool.pages f).isDirty = true
    · have hwrite := saves_writePage h hvalid s.pool
      rw [if_pos hdirty]
      exact ⟨hwrite.grows, hwrite.faults, hwrite.pages⟩
    · rw [if_neg hdirty]
      exact Saves.of_disk_eq rfl

theorem saves_flushFrame (h : Coherent U s st) (f : ℕ) :
    Saves (Between st st) s (flushFrame (fun _ => true) s f) := by
  by_cases hwrite : ((s.pool.pages f).isValid && (s.pool.pages f).isDirty && true) = true
  · rw [flushFrame, if_pos hwrite]
    simp only [Bool.and_true, Bool.and_eq_true] at hwrite
    have hsaves := saves_writePage h hwrite.1 s.pool
    exact ⟨hsaves.grows, hsaves.faults, hsaves.pages⟩
  · rw [flushFrame, if_neg hwrite]
    exact Saves.refl s

/-- A flush writes frame after frame. -/
theorem saves_flush (h : Coherent U s st) (j : ℕ) :
    Saves (Between st st) s ((List.range j).foldl (flushFrame fun _ => true) s) := by
  apply Saves.range id (flushFrame fun _ => true) s j _ j (le_refl j)
  intro k _
  exact saves_flushFrame (flushFrames_coherent (fun _ => true) _ h) k

end Pool

section Disk
variable (schema : TableSchema)

theorem markTableDirty_disk (pid : ℕ) (s : Storage) :
    (markTableDirty schema pid s).disk = s.disk := by
  unfold markTableDirty markDirty
  split <;> rfl

/-- Changing a frame in place does not touch the disk. -/
theorem changeTable_disk (pid f : ℕ) (change : Page → Page) (s : Storage) :
    (markTableDirty schema pid (modifyPage f change s)).disk = s.disk :=
  markTableDirty_disk schema pid _

theorem updateRecords_disk (q : ParsedQuery D) (colIdx f pid : ℕ) (acc : List (ℕ × ℕ) × Storage)
    (ris : List ℕ) : (ris.foldl (updateRecord schema q colIdx f pid) acc).2.disk = acc.2.disk := by
  induction ris generalizing acc with
  | nil => rfl
  | cons ri ris ih =>
    rw [List.foldl_cons, ih, updateRecord]
    cases ((acc.2.pool.pages f).getRow schema ri : Option (Row D)) with
    | none => rfl
    | some row =>
      unfold updateFound
      dsimp only
      split
      · exact changeTable_disk schema pid f _ acc.2
      · rfl

def FetchesOnly {A : Type} (page : A × Storage → ℕ → A × Storage) : Prop :=
  ∀ acc pid, (page acc pid).2.disk = acc.2.disk ∨
    (page acc pid).2.disk = (fetchTable schema pid acc.2).2.disk

theorem updatePage_fetchesOnly (q : ParsedQuery D) (colIdx : ℕ) :
    FetchesOnly schema (updatePage schema q colIdx) :=
  fun _ pid => Or.inr (updateRecords_disk schema q colIdx _ pid _ _)

theorem deletePage_fetchesOnly (q : ParsedQuery D) : FetchesOnly schema (deletePage schema q) := by
  intro acc pid
  right
  unfold deletePage
  dsimp only
  split
  · exact changeTable_disk schema pid _ _ _
  · rfl

theorem scanPage_fetchesOnly (q : ParsedQuery D) (maxRecs : ℤ) :
    FetchesOnly schema (scanPage schema q maxRecs) := by
  intro acc pid
  unfold scanPage
  split
  · exact Or.inl rfl
  · exact Or.inr rfl

end Disk

section Sweep
variable {U : PageUniverse} {s : Storage} {st : Store} {schema : TableSchema}
  {find : PageData → List ℕ} {change : Bool → PageData → PageData}

/-- In the middle of a sweep a page is as before the sweep or as after it. -/
theorem sweep_between {path : FilePath} {k n : ℕ} (hk : k ≤ n) (p : FilePath) (i : ℕ)
    (data : PageData)
    (h : Between (sweep path find change k st).2 (sweep path find change k st).2 p i data) :
    Between st (sweep path find change n st).2 p i data := by
  have hdata : data = (sweep path find change k st).2.mem p i := by simpa [Between] using h
  by_cases hreached : p = path ∧ i < k
  · obtain ⟨rfl, hi⟩ := hreached
    right
    rw [hdata, sweep_mem_of_lt hi, sweep_mem_of_lt (by omega)]
  · left
    rw [hdata]
    apply sweep_mem_of_ge
    intro hp
    by_contra hlt
    exact hreached ⟨hp, by omega⟩

/-- A loop over pages that is a sweep saves pages as they are before or after the sweep. -/
theorem sweep_saves (find : PageData → List ℕ) (change : Bool → PageData → PageData)
    {A : Type} (found : A → List (ℕ × ℕ)) (running : A → Prop)
    (page : A × Storage → ℕ → A × Storage) (hfetch : FetchesOnly schema page)
    (hgrow : ∀ acc pid, FilesGrow acc.2 (page acc pid).2)
    (hpage : ∀ (acc : A × Storage) (st : Store) (pid : ℕ), running acc.1 →
      pid < pageCount schema.filePath acc.2.disk → pid < pageCount schema.filePath s.disk →
      Coherent U acc.2 st → running (page acc pid).1 ∧
        found (page acc pid).1 =
          (sweepPage schema.filePath find change (found acc.1, st) pid).1 ∧
        Coherent U (page acc pid).2
          (sweepPage schema.filePath find change (found acc.1, st) pid).2)
    (acc : A) (hrun : running acc) (hfound : found acc = []) (h : Coherent U s st) (j : ℕ)
    (hj : j ≤ pageCount schema.filePath s.disk) :
    Saves (Between st (sweep schema.filePath find change (pageCount schema.filePath s.disk) st).2)
      s ((List.range j).foldl page (acc, s)).2 := by
  apply Saves.range Prod.snd page (acc, s) (pageCount schema.filePath s.disk) _ j hj
  intro k hk
  obtain ⟨-, hcoh⟩ := sweep_coherent (n := k) find change found running page (by
      intro acc st pid hpid hrun hn hcoh
      obtain ⟨hrun', hfound', hcoh'⟩ := hpage acc st pid hrun (by omega) (by omega) hcoh
      exact ⟨hrun', hgrow acc pid, hfound', hcoh'⟩)
    acc hrun hfound h (Nat.le_of_lt hk)
  rcases hfetch ((List.range k).foldl page (acc, s)) k with hsame | hsame
  · exact Saves.of_disk_eq hsame
  · have hround := saves_fetchPage hcoh schema.filePath
      (SystemCatalog.tableHash schema.tableName.val) k
    refine Saves.mono (sweep_between (Nat.le_of_lt hk)) ⟨hgrow _ k, ?_, ?_⟩
    · rw [hsame]
      exact hround.faults
    · rw [hsame]
      exact hround.pages

end Sweep

def rounds {A B : Type} (storage : A → Storage) (round : A → B → A) (a : A) (bs : List B) :
    List Storage :=
  bs.inits.map fun done => storage (done.foldl round a)

/-- The states of the scan for room before it changes a page. -/
def insertMoments (schema : TableSchema) : ℕ → Storage → List Storage
  | 0, s => [s]
  | pid + 1, s =>
    let pg := fetchTable schema pid s
    if (pg.2.pool.pages pg.1).isFull schema then s :: insertMoments schema pid pg.2 else [s, pg.2]

def inside (catalog : SystemCatalog) (s : Storage) : Event D → List Storage
  | .insert q =>
    match catalog.getSchema q.tableName.val with
    | none => []
    | some schema => insertMoments schema (pageCount schema.filePath s.disk) s
  | .update q =>
    match catalog.getSchema q.tableName.val with
    | none => []
    | some schema =>
      match schema.columnIndex q.updateCol.val with
      | none => []
      | some colIdx => rounds Prod.snd (updatePage schema q colIdx) ([], s)
          (List.range (pageCount schema.filePath s.disk))
  | .delete q =>
    match catalog.getSchema q.tableName.val with
    | none => []
    | some schema => rounds Prod.snd (deletePage schema q) ([], s)
        (List.range (pageCount schema.filePath s.disk))
  | .select q =>
    match catalog.getSchema q.tableName.val with
    | none => []
    | some schema => rounds Prod.snd (scanPage schema q (-1)) (⟨[], 0, false⟩, s)
        (List.range (pageCount schema.filePath s.disk))
  | .read tableName pids =>
    match catalog.getSchema tableName with
    | none => []
    | some schema => rounds id (readPage schema) s pids
  | .flushAll => rounds id (flushFrame fun _ => true) s (List.range s.pool.capacity)

/-- The moments at which a kill may find an event: before it, between its page accesses and
after it. -/
def moments (catalog : SystemCatalog) (s : Storage) (e : Event D) : List Storage :=
  s :: (inside catalog s e ++ [step catalog s e])

section Rounds

theorem mem_rounds {A B : Type} {storage : A → Storage} {round : A → B → A} {a : A} {bs : List B}
    {m : Storage} (hm : m ∈ rounds storage round a bs) :
    ∃ done rest, done ++ rest = bs ∧ storage (done.foldl round a) = m := by
  obtain ⟨done, hdone, rfl⟩ := List.mem_map.mp hm
  obtain ⟨rest, hrest⟩ := List.mem_inits _ _ |>.mp hdone
  exact ⟨done, rest, hrest, rfl⟩

theorem rounds_grow {A B : Type} (storage : A → Storage) {round : A → B → A}
    (h : ∀ acc b, FilesGrow (storage acc) (storage (round acc b))) {a : A} {bs : List B}
    {m : Storage} (hm : m ∈ rounds storage round a bs) :
    FilesGrow m (storage (bs.foldl round a)) := by
  obtain ⟨done, rest, rfl, rfl⟩ := mem_rounds hm
  rw [List.foldl_append]
  exact FilesGrow.foldl storage round h rest _

/-- The rounds over numbers are done in order. -/
theorem mem_rounds_range {A : Type} {storage : A → Storage} {round : A → ℕ → A} {a : A} {n : ℕ}
    {m : Storage} (hm : m ∈ rounds storage round a (List.range n)) :
    ∃ j ≤ n, storage ((List.range j).foldl round a) = m := by
  obtain ⟨done, rest, hrange, rfl⟩ := mem_rounds hm
  have hlen : done.length ≤ n := by
    have hsum := congrArg List.length hrange
    rw [List.length_append, List.length_range] at hsum
    omega
  refine ⟨done.length, hlen, ?_⟩
  have htake : done = (List.range n).take done.length := by rw [← hrange, List.take_left]
  rw [List.take_range, Nat.min_eq_left hlen] at htake
  rw [← htake]

end Rounds

section Insert
variable {U : PageUniverse} {s : Storage} {st : Store} {schema : TableSchema} {n : ℕ}

/-- A page of the store that nothing has changed yet. -/
theorem between_of_self {st st' : Store} (path : FilePath) (i : ℕ) (data : PageData)
    (h : Between st st path i data) : Between st st' path i data := h.elim Or.inl Or.inl

/-- The scan for room changes its page behind its last fetch. -/
theorem insertScan_saves (row : Row D) (h : Coherent U s st) (hU : Covers U schema n)
    (hn : n ≤ pageCount schema.filePath s.disk) :
    Saves (Between st st) s (insertScan schema row n s).2 ∧
      ∀ m ∈ insertMoments schema n s, Saves (Between st st) s m ∧
        FilesGrow m (insertScan schema row n s).2 := by
  induction n generalizing s with
  | zero =>
    refine ⟨Saves.refl s, fun m hm => ?_⟩
    obtain rfl := List.mem_singleton.mp hm
    exact ⟨Saves.refl m, FilesGrow.refl m⟩
  | succ n ih =>
    have hfetch := (fetchTable_coherent h hU (Nat.le_succ n) hn).1
    have hgrow := fetchTable_grows schema n s
    have hsaves := saves_fetchPage h schema.filePath
      (SystemCatalog.tableHash schema.tableName.val) n
    change Saves (Between st st) s (fetchTable schema n s).2 at hsaves
    have hall := insertScan_grows schema row (n + 1) s
    have hcount := hgrow schema.filePath
    obtain ⟨hscan, hmoments⟩ := ih hfetch (fun i hi => hU i (by omega)) (by omega)
    by_cases hfull : ((fetchTable schema n s).2.pool.pages
        (fetchTable schema n s).1).isFull schema = true
    · rw [insertScan_full row hfull] at hall ⊢
      refine ⟨hsaves.trans hscan, fun m hm => ?_⟩
      rw [insertMoments, if_pos hfull] at hm
      rcases List.mem_cons.mp hm with rfl | hrest
      · exact ⟨Saves.refl m, hall⟩
      · obtain ⟨hm', hend⟩ := hmoments m hrest
        exact ⟨hsaves.trans hm', hend⟩
    · rw [insertScan_room row hfull] at hall ⊢
      refine ⟨hsaves.trans (Saves.of_disk_eq (changeTable_disk schema n _ _ _)), fun m hm => ?_⟩
      rw [insertMoments, if_neg hfull] at hm
      rcases List.mem_cons.mp hm with rfl | hrest
      · exact ⟨Saves.refl m, hall⟩
      · obtain rfl := List.mem_singleton.mp hrest
        exact ⟨hsaves, changeTable_grows schema n _ _ _⟩

theorem insertNewPage_saves (row : Row D) (h : Coherent U s st) :
    Saves (Between st st) s (insertNewPage schema row n s) :=
  (saves_fetchPage h schema.filePath (SystemCatalog.tableHash schema.tableName.val) n).trans
    (Saves.of_disk_eq (markTableDirty_disk schema n _))

theorem executeInsert_saves {catalog : SystemCatalog} {q : ParsedQuery D}
    (hschema : catalog.getSchema q.tableName.val = some schema) (h : Coherent U s st)
    (hU : Covers U schema (pageCount schema.filePath s.disk)) :
    Saves (Between st st) s (executeInsert catalog q s).2 ∧
      ∀ m ∈ insertMoments schema (pageCount schema.filePath s.disk) s, Saves (Between st st) s m ∧
        FilesGrow m (executeInsert catalog q s).2 := by
  obtain ⟨hscan, hmoments⟩ := insertScan_saves (insertRow schema q) h hU (le_refl _)
  obtain ⟨hflag, hcoh⟩ := insertScan_coherent (insertRow schema q) h hU (le_refl _)
  simp only [executeInsert, hschema]
  cases hroom : lastRoom schema st (pageCount schema.filePath s.disk) with
  | some pid =>
    rw [hroom, Option.isSome_some] at hflag
    rw [if_pos hflag]
    exact ⟨hscan, hmoments⟩
  | none =>
    rw [hroom] at hflag hcoh
    rw [if_neg (by simp [hflag])]
    refine ⟨hscan.trans (insertNewPage_saves (insertRow schema q) hcoh), fun m hm => ?_⟩
    obtain ⟨hm', hend⟩ := hmoments m hm
    exact ⟨hm', hend.trans (insertNewPage_grows schema _ _ _)⟩

end Insert

section Step
variable {db : Database} {U : PageUniverse} {s : Storage} {st : Store}

theorem readPages_saves {schema : TableSchema} (pids : List ℕ) (h : Coherent U s st)
    (hU : ∀ s', FilesGrow s s' → FilesGrow s' (pids.foldl (Engine.readPage schema) s) →
      Covers U schema (pageCount schema.filePath s'.disk)) :
    Saves (Between st st) s (pids.foldl (Engine.readPage schema) s) := by
  induction pids generalizing s with
  | nil => exact Saves.refl s
  | cons pid pids ih =>
    have hgrow := readPage_grows schema s pid
    have hrest : FilesGrow (Engine.readPage schema s pid) (pids.foldl (Engine.readPage schema) _) :=
      FilesGrow.foldl id (Engine.readPage schema) (readPage_grows schema) pids _
    have hcoh := readPages_coherent [pid] h fun s' hs' hend => hU s' hs' (hend.trans hrest)
    have hfirst : Saves (Between st st) s (Engine.readPage schema s pid) := by
      unfold Engine.readPage
      split
      · exact saves_fetchPage h schema.filePath _ pid
      · exact Saves.refl s
    exact hfirst.trans (ih hcoh fun s' hs' hend => hU s' (hgrow.trans hs') hend)

/-- The states of a loop over numbers and the one behind it. -/
theorem rounds_saves {A : Type} {n : ℕ} {round : A → ℕ → A} {storage : A → Storage} {a : A}
    {st' : Store} (hgrow : ∀ acc pid, FilesGrow (storage acc) (storage (round acc pid)))
    (h : ∀ j ≤ n, Saves (Between st st') s (storage ((List.range j).foldl round a))) :
    ∀ m ∈ rounds storage round a (List.range n) ++ [storage ((List.range n).foldl round a)],
      Saves (Between st st') s m ∧ FilesGrow m (storage ((List.range n).foldl round a)) := by
  intro m hm
  rcases List.mem_append.mp hm with hround | hend
  · refine ⟨?_, rounds_grow _ hgrow hround⟩
    obtain ⟨j, hj, rfl⟩ := mem_rounds_range hround
    exact h j hj
  · obtain rfl := List.mem_singleton.mp hend
    exact ⟨h n (le_refl n), FilesGrow.refl _⟩

/-- A statement that fails does nothing. -/
theorem idle_saves (s : Storage) (st st' : Store) :
    ∀ m ∈ [] ++ [s], Saves (Between st st') s m ∧ FilesGrow m s := by
  intro m hm
  obtain rfl := List.mem_singleton.mp hm
  exact ⟨Saves.refl m, FilesGrow.refl m⟩

/-- Whenever an event is interrupted, every page it has written is as before or as after it. -/
theorem inside_saves (e : Event D) (h : Coherent U s st)
    (hU : CoversAll U db (step db.catalog s e).disk) :
    ∀ m ∈ inside db.catalog s e ++ [step db.catalog s e],
      Saves (Between st (storeStep db.catalog (fun path => pageCount path s.disk) st e)) s m ∧
        FilesGrow m (step db.catalog s e) := by
  have hnow := hU.mono (step_grows db.catalog s e)
  have hbelow : ∀ t ∈ db.tables, ∀ pid, pid < pageCount t.filePath s.disk →
      Covers U t (pid + 1) := fun t ht pid hpid i hi => hnow t ht i (by omega)
  cases e with
  | insert q =>
    cases hschema : db.catalog.getSchema q.tableName.val with
    | none =>
      simp only [inside, step, executeInsert, hschema]
      exact idle_saves s st _
    | some schema =>
      obtain ⟨hend, hmoments⟩ :=
        executeInsert_saves hschema h (hnow schema (db.getSchema_mem hschema))
      simp only [inside, step, hschema]
      intro m hm
      rcases List.mem_append.mp hm with hscan | hlast
      · obtain ⟨hm', hgrow⟩ := hmoments m hscan
        exact ⟨hm'.mono between_of_self, hgrow⟩
      · obtain rfl := List.mem_singleton.mp hlast
        exact ⟨hend.mono between_of_self, FilesGrow.refl _⟩
  | update q =>
    cases hschema : db.catalog.getSchema q.tableName.val with
    | none =>
      simp only [inside, step, executeUpdate, hschema]
      exact idle_saves s st _
    | some schema =>
      cases hcol : schema.columnIndex q.updateCol.val with
      | none =>
        simp only [inside, step, executeUpdate, hschema, hcol]
        exact idle_saves s st _
      | some colIdx =>
        simp only [inside, step, executeUpdate, storeStep, hschema, hcol]
        apply rounds_saves (updatePage_grows schema q colIdx)
        apply sweep_saves _ _ (fun acc => acc) (fun _ => True) _
          (updatePage_fetchesOnly schema q colIdx) (updatePage_grows schema q colIdx) _ []
          trivial rfl h
        intro acc st pid _ hlt hpid hcoh
        exact ⟨trivial, updatePage_coherent q colIdx acc hcoh
          (hbelow schema (db.getSchema_mem hschema) pid hpid) (Nat.lt_succ_self pid) hlt⟩
  | delete q =>
    cases hschema : db.catalog.getSchema q.tableName.val with
    | none =>
      simp only [inside, step, executeDelete, hschema]
      exact idle_saves s st _
    | some schema =>
      simp only [inside, step, executeDelete, storeStep, hschema]
      apply rounds_saves (deletePage_grows schema q)
      apply sweep_saves _ _ (fun acc => acc) (fun _ => True) _ (deletePage_fetchesOnly schema q)
        (deletePage_grows schema q) _ [] trivial rfl h
      intro acc st pid _ hlt hpid hcoh
      exact ⟨trivial, deletePage_coherent acc hcoh
        (hbelow schema (db.getSchema_mem hschema) pid hpid) (Nat.lt_succ_self pid) hlt⟩
  | select q =>
    cases hschema : db.catalog.getSchema q.tableName.val with
    | none =>
      simp only [inside, step, executeSelect, hschema]
      exact idle_saves s st _
    | some schema =>
      have hsize := h.pageCount_le_size schema.filePath
      have hsame := sweep_id (matchingSlots schema q) (fun _ data => data) hsize (fun _ _ => rfl)
      simp only [inside, step, executeSelect, hschema]
      apply rounds_saves (scanPage_grows schema q (-1))
      have hscan := sweep_saves (matchingSlots schema q) (fun _ data => data)
        ScanState.matched (fun acc => acc.stopped = false) _ (scanPage_fetchesOnly schema q (-1))
        (scanPage_grows schema q (-1)) (by
          intro acc st pid hrun hlt hpid hcoh
          exact scanPage_coherent acc hrun hcoh
            (hbelow schema (db.getSchema_mem hschema) pid hpid) (Nat.lt_succ_self pid) hlt)
        ⟨[], 0, false⟩ rfl rfl h
      rw [hsame] at hscan
      exact hscan
  | read name pids =>
    cases hschema : db.catalog.getSchema name with
    | none =>
      simp only [inside, step, readPages, hschema]
      exact idle_saves s st _
    | some schema =>
      simp only [inside, step, readPages, hschema] at hU ⊢
      have hpart : ∀ done rest, done ++ rest = pids → Saves (Between st st) s
          (done.foldl (Engine.readPage schema) s) := by
        rintro done rest rfl
        apply readPages_saves done h
        intro s' _ hend
        rw [List.foldl_append] at hU
        have hrest : FilesGrow (done.foldl (Engine.readPage schema) s)
            (rest.foldl (Engine.readPage schema) (done.foldl (Engine.readPage schema) s)) :=
          FilesGrow.foldl id (Engine.readPage schema) (readPage_grows schema) rest _
        exact hU.mono (hend.trans hrest) schema (db.getSchema_mem hschema)
      intro m hm
      rcases List.mem_append.mp hm with hround | hlast
      · refine ⟨?_, rounds_grow id (readPage_grows schema) hround⟩
        obtain ⟨done, rest, hpids, rfl⟩ := mem_rounds hround
        exact hpart done rest hpids
      · obtain rfl := List.mem_singleton.mp hlast
        exact ⟨hpart pids [] (List.append_nil pids), FilesGrow.refl _⟩
  | flushAll =>
    exact rounds_saves (flushFrame_grows _) fun j _ => saves_flush h j

theorem moments_saves (e : Event D) (h : Coherent U s st)
    (hU : CoversAll U db (step db.catalog s e).disk) :
    ∀ m ∈ moments db.catalog s e,
      Saves (Between st (storeStep db.catalog (fun path => pageCount path s.disk) st e)) s m ∧
        FilesGrow m (step db.catalog s e) := by
  intro m hm
  rcases List.mem_cons.mp hm with rfl | hrest
  · exact ⟨Saves.refl m, step_grows db.catalog m e⟩
  · exact inside_saves e h hU m hrest

end Step

section Run
variable {db : Database} {U : PageUniverse} {s m : Storage} {st : Store} {schema : TableSchema}

/-- The interrupted run of reliable writes can be completed. -/
theorem moments_run (events : List (Event D)) (e : Event D) (h : Coherent U s st)
    (hU : CoversAll U db (run db.catalog s (events ++ [e])).disk)
    (hm : m ∈ moments db.catalog (run db.catalog s events) e) :
    m.disk.faults = [] ∧ FilesGrow s m ∧ FilesGrow m (run db.catalog s (events ++ [e])) := by
  have hrun : run db.catalog s (events ++ [e]) =
      step db.catalog (run db.catalog s events) e := List.foldl_append
  rw [hrun] at hU ⊢
  obtain ⟨st', hcoh⟩ := run_store h events (hU.mono (step_grows db.catalog _ e))
  obtain ⟨hsaves, hgrow⟩ := moments_saves e hcoh hU m hm
  exact ⟨hsaves.faults hcoh.reliable, (run_grows db.catalog s events).trans hsaves.grows, hgrow⟩

/-- A page on disk is as it was at the start of the run or as the table had it after some of
the events, the interrupted one included. -/
theorem run_saves (events : List (Event D)) (e : Event D) (h : Coherent U s st)
    (hU : CoversAll U db (run db.catalog s (events ++ [e])).disk) (ht : schema ∈ db.tables)
    (hm : m ∈ moments db.catalog (run db.catalog s events) e) {i : ℕ}
    (hi : i < pageCount schema.filePath m.disk) :
    (i < pageCount schema.filePath s.disk ∧
        filePage m.disk schema.filePath i = filePage s.disk schema.filePath i) ∨
      ∃ k ≤ events.length + 1, filePage m.disk schema.filePath i =
        pageView schema (run db.catalog s ((events ++ [e]).take k)) i := by
  have hhas : U.has schema.filePath (SystemCatalog.tableHash schema.tableName.val) i :=
    hU schema ht i (hi.le.trans ((moments_run events e h hU hm).2.2 schema.filePath))
  induction events generalizing s st with
  | nil =>
    obtain ⟨hsaves, -⟩ := moments_saves e h hU m hm
    have hnext := (step_coherent h e hU).1
    rcases hsaves.pages schema.filePath i hi with hold | hbefore | hafter
    · exact Or.inl hold
    · exact Or.inr ⟨0, by omega, hbefore.trans (pageView_of_has h hhas).symm⟩
    · exact Or.inr ⟨1, le_refl 1, hafter.trans (pageView_of_has hnext hhas).symm⟩
  | cons e' events ih =>
    have hgrown := hU.mono (run_grows db.catalog _ (events ++ [e]))
    have hnext := (step_coherent h e' hgrown).1
    rcases ih hnext hU hm with ⟨hlt, hsame⟩ | ⟨k, hk, hview⟩
    · obtain ⟨hsaves, -⟩ := moments_saves e' h hgrown (step db.catalog s e') (by simp [moments])
      rw [hsame]
      rcases hsaves.pages schema.filePath i hlt with hold | hbefore | hafter
      · exact Or.inl hold
      · exact Or.inr ⟨0, by omega, hbefore.trans (pageView_of_has h hhas).symm⟩
      · exact Or.inr ⟨1, by simp, hafter.trans (pageView_of_has hnext hhas).symm⟩
    · exact Or.inr ⟨k + 1, by simp [hk], hview⟩

/-- After a flush every page on disk is the page of the store. -/
theorem filePage_flushAll (h : Coherent U s st) {path : FilePath} {i : ℕ}
    (hi : i < pageCount path (flushAll s).disk) :
    filePage (flushAll s).disk path i = st.mem path i := by
  rw [← (flushAll_disk h path i).2, Store.onDisk, if_pos hi]

end Run

section Kill
variable {db : Database} {disk : Disk} {m : Storage} {schema : TableSchema}

/-- Kill the process between any two page accesses. No page that the last flush left in the
files is missing, and every page is as its table had it after some of the events since
then: no page mixes two states, and none is older than the flush. -/
theorem killed_pages (capacity : ℕ) (hcap : 1 ≤ capacity) (hok : disk.faults = [])
    (flushed since : List (Event D)) (e : Event D)
    (hkeys : db.KeysDistinct
      (run db.catalog (start capacity disk) (flushed ++ .flushAll :: (since ++ [e]))).disk)
    (ht : schema ∈ db.tables)
    (hm : m ∈ moments db.catalog
      (run db.catalog (start capacity disk) (flushed ++ .flushAll :: since)) e) :
    FilesGrow (run db.catalog (start capacity disk) (flushed ++ [.flushAll])) m ∧
      ∀ i, i < pageCount schema.filePath m.disk → ∃ k ≤ since.length + 1,
        filePage m.disk schema.filePath i =
          pageView schema (run db.catalog (start capacity disk)
            (flushed ++ .flushAll :: (since ++ [e]).take k)) i := by
  have hsplit : ∀ events : List (Event D),
      run db.catalog (start capacity disk) (flushed ++ .flushAll :: events) =
        run db.catalog (flushAll (run db.catalog (start capacity disk) flushed)) events := by
    intro events
    exact List.foldl_append
  have hcovers := db.pages_coversAll hkeys
  simp only [hsplit] at hcovers hm ⊢
  obtain ⟨st, hcoh⟩ := run_store (coherent_start _ capacity hcap disk hok) flushed
    (hcovers.mono ((flushAll_grows _).trans (run_grows db.catalog _ _)))
  have hflush := flushFrames_coherent (fun _ => true)
    (List.range (run db.catalog (start capacity disk) flushed).pool.capacity) hcoh
  change Coherent _ (flushAll _) st at hflush
  obtain ⟨-, hgrow, hend⟩ := moments_run since e hflush hcovers hm
  refine ⟨hgrow, fun i hi => ?_⟩
  rcases run_saves since e hflush hcovers ht hm hi with ⟨hlt, hsame⟩ | hafter
  · have hhas := hcovers schema ht i (hi.le.trans (hend schema.filePath))
    refine ⟨0, by omega, ?_⟩
    rw [hsame, filePage_flushAll hcoh hlt]
    exact (pageView_of_has hflush hhas).symm
  · exact hafter

def firstOrder : Event DoubleBits := .insert (PageEffects.query "INSERT INTO orders VALUES (1, 1)")
def secondOrder : Event DoubleBits := .insert (PageEffects.query "INSERT INTO orders VALUES (2, 2)")
def newCustomer : Event DoubleBits :=
  .insert (PageEffects.query "INSERT INTO customer VALUES (7, 'x')")

/-- With one frame the insertion of the customer evicts the orders. -/
theorem evicted_pages : (∀ t ∈ tpch.tables, pageCount t.filePath (run tpch.catalog (start 1 noFiles)
      ([firstOrder] ++ .flushAll :: ([secondOrder] ++ [newCustomer]))).disk ≤ 1) ∧
    pageCount makeOrdersSchema.filePath (run tpch.catalog (start 1 noFiles)
      ([firstOrder] ++ .flushAll :: ([secondOrder] ++ [newCustomer]))).disk = 1 := by
  decide +kernel

theorem killed_pages_evicted : ∃ k ≤ 2, filePage (run tpch.catalog (start 1 noFiles)
      ([firstOrder] ++ .flushAll :: ([secondOrder] ++ [newCustomer]))).disk
        makeOrdersSchema.filePath 0 =
      pageView makeOrdersSchema (run tpch.catalog (start 1 noFiles)
        ([firstOrder] ++ .flushAll :: ([secondOrder] ++ [newCustomer]).take k)) 0 := by
  have hend : run tpch.catalog (start 1 noFiles)
      ([firstOrder] ++ .flushAll :: ([secondOrder] ++ [newCustomer])) =
        step tpch.catalog (run tpch.catalog (start 1 noFiles)
          ([firstOrder] ++ .flushAll :: [secondOrder])) newCustomer := List.foldl_append
  exact (killed_pages 1 (le_refl 1) rfl [firstOrder] [secondOrder] newCustomer
    (tpch_keysDistinct evicted_pages.1) (by simp [tpch])
    (by rw [moments, ← hend]; simp)).2 0 (by rw [evicted_pages.2]; decide)

end Kill

section Written
variable {db : Database} {U : PageUniverse} {s : Storage} {st : Store} {disk disk' : Disk}

end Written

end NanoDB.CrashSafety
