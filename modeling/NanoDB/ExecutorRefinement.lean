import NanoDB.Engine
import NanoDB.PoolAccess
import NanoDB.TableStore

/-!
The statements on a coherent pool do to the logical store what TableStore says they do
to the first pages of the table, as many as the file has on disk. Each loop over
pages is matched round by round with a sweep of the store.
-/
namespace NanoDB

open CTypes BufferPool DiskManager PoolInvariant PoolCoherence Executor RecordScan TableStore

variable {D : Type} [CDouble D]

section Growth
variable (catalog : SystemCatalog) (schema : TableSchema) (q : ParsedQuery D)

theorem fetchTable_grows (pid : ℕ) (s : Storage) : FilesGrow s (fetchTable schema pid s).2 :=
  fetchPage_grows _ _ _ s

theorem changeTable_grows (pid f : ℕ) (change : Page → Page) (s : Storage) :
    FilesGrow s (markTableDirty schema pid (modifyPage f change s)) :=
  (modifyPage_grows f change s).trans (markDirty_grows _ _ _)

theorem insertScan_grows (row : Row D) (n : ℕ) (s : Storage) :
    FilesGrow s (insertScan schema row n s).2 := by
  induction n generalizing s with
  | zero => exact FilesGrow.refl s
  | succ n ih =>
    have hfetch := fetchTable_grows schema n s
    rw [insertScan]
    exact FilesGrow.ite Prod.snd (hfetch.trans (ih _))
      (hfetch.trans (changeTable_grows schema n _ _ _))

theorem insertNewPage_grows (row : Row D) (newPid : ℕ) (s : Storage) :
    FilesGrow s (insertNewPage schema row newPid s) :=
  (fetchTable_grows schema newPid s).trans
    ((modifyPage_grows _ _ _).trans (changeTable_grows schema newPid _ _ _))

theorem updateFound_grows (colIdx f pid ri : ℕ) (acc : List (ℕ × ℕ) × Storage)
    (row : Option (Row D)) : FilesGrow acc.2 (updateFound schema q colIdx f pid ri acc row).2 := by
  cases row with
  | none => exact FilesGrow.refl _
  | some row => exact FilesGrow.ite Prod.snd (changeTable_grows schema pid f _ _) (FilesGrow.refl _)

theorem updatePage_grows (colIdx : ℕ) (acc : List (ℕ × ℕ) × Storage) (pid : ℕ) :
    FilesGrow acc.2 (updatePage schema q colIdx acc pid).2 :=
  (fetchTable_grows schema pid acc.2).trans
    (FilesGrow.foldl Prod.snd (updateRecord schema q colIdx _ pid)
      (fun acc ri => updateFound_grows schema q colIdx _ pid ri acc _) _ (acc.1, _))

theorem deletePage_grows (acc : List (ℕ × ℕ) × Storage) (pid : ℕ) :
    FilesGrow acc.2 (deletePage schema q acc pid).2 := by
  have hfetch := fetchTable_grows schema pid acc.2
  rw [deletePage]
  exact FilesGrow.ite Prod.snd (hfetch.trans (changeTable_grows schema pid _ _ _)) hfetch

theorem scanPage_grows (maxRecs : ℤ) (acc : ScanState × Storage) (pid : ℕ) :
    FilesGrow acc.2 (scanPage schema q maxRecs acc pid).2 := by
  rw [scanPage]
  exact FilesGrow.ite Prod.snd (FilesGrow.refl _) (fetchTable_grows schema pid acc.2)

theorem executeInsert_grows (s : Storage) : FilesGrow s (executeInsert catalog q s).2 := by
  rw [executeInsert]
  cases catalog.getSchema q.tableName.val with
  | none => exact FilesGrow.refl s
  | some schema =>
    have hscan := insertScan_grows schema (insertRow schema q)
      (pageCount schema.filePath s.disk) s
    exact FilesGrow.ite Prod.snd hscan (hscan.trans (insertNewPage_grows schema _ _ _))

theorem executeUpdate_grows (s : Storage) : FilesGrow s (executeUpdate catalog q s).2 := by
  rw [executeUpdate]
  cases catalog.getSchema q.tableName.val with
  | none => exact FilesGrow.refl s
  | some schema =>
    dsimp only
    cases schema.columnIndex q.updateCol.val with
    | none => exact FilesGrow.refl s
    | some colIdx =>
      exact FilesGrow.foldl Prod.snd (updatePage schema q colIdx)
        (updatePage_grows schema q colIdx) _ ([], s)

theorem executeDelete_grows (s : Storage) : FilesGrow s (executeDelete catalog q s).2 := by
  rw [executeDelete]
  cases catalog.getSchema q.tableName.val with
  | none => exact FilesGrow.refl s
  | some schema =>
    exact FilesGrow.foldl Prod.snd (deletePage schema q) (deletePage_grows schema q) _ ([], s)

theorem executeSelect_grows (s : Storage) : FilesGrow s (executeSelect catalog q s).2 := by
  rw [executeSelect]
  cases catalog.getSchema q.tableName.val with
  | none => exact FilesGrow.refl s
  | some schema =>
    exact FilesGrow.foldl Prod.snd (scanPage schema q (-1)) (scanPage_grows schema q (-1)) _
      (⟨[], 0, false⟩, s)

end Growth

section Pages
variable {U : PageUniverse} {s s' : Storage} {st : Store} {schema : TableSchema} {f pid n : ℕ}

def Covers (U : PageUniverse) (schema : TableSchema) (n : ℕ) : Prop :=
  ∀ i : ℕ, i ≤ n → U.has schema.filePath (SystemCatalog.tableHash schema.tableName.val) i

theorem fetchTable_coherent (h : Coherent U s st) (hU : Covers U schema n) (hpid : pid ≤ n)
    (hn : n ≤ pageCount schema.filePath s.disk) :
    Coherent U (fetchTable schema pid s).2 st ∧
      Holds (fetchTable schema pid s).2 (fetchTable schema pid s).1 schema.filePath pid :=
  fetchPage_coherent h (hU pid hpid) (hpid.trans hn)

/-- Changing a held page in place and marking it dirty. -/
theorem changeTable_coherent (h : Coherent U s st) (hU : Covers U schema n) (hpid : pid ≤ n)
    (hf : Holds s f schema.filePath pid) (change : Page → Page)
    (hid : (change (s.pool.pages f)).pageId = (s.pool.pages f).pageId)
    (hvalid : (change (s.pool.pages f)).isValid = (s.pool.pages f).isValid) :
    Coherent U (markTableDirty schema pid (modifyPage f change s))
        (st.write schema.filePath pid (change (s.pool.pages f)).data) ∧
      Holds (markTableDirty schema pid (modifyPage f change s)) f schema.filePath pid := by
  refine ⟨modify_coherent h hf (hU pid hpid) change hid hvalid, ?_⟩
  have honly := (modifyPage_pagesOnly s f change hid hvalid).trans
    (markDirty_pagesOnly _ (SystemCatalog.tableHash schema.tableName.val) pid)
  exact (holds_pagesOnly honly).mpr hf

end Pages

section Insert
variable {U : PageUniverse} {s : Storage} {st : Store} {schema : TableSchema} {n : ℕ}

theorem insertScan_full (row : Row D)
    (h : ((fetchTable schema n s).2.pool.pages (fetchTable schema n s).1).isFull schema = true) :
    insertScan schema row (n + 1) s = insertScan schema row n (fetchTable schema n s).2 := by
  rw [insertScan, if_pos h]

theorem insertScan_room (row : Row D)
    (h : ¬ ((fetchTable schema n s).2.pool.pages (fetchTable schema n s).1).isFull schema = true) :
    insertScan schema row (n + 1) s = (true, markTableDirty schema n
      (modifyPage (fetchTable schema n s).1 (fun page => (page.appendRow schema row).2)
        (fetchTable schema n s).2)) := by
  rw [insertScan, if_neg h]

/-- The scan for room finds the last page with room and appends to it. -/
theorem insertScan_coherent (row : Row D) (h : Coherent U s st) (hU : Covers U schema n)
    (hn : n ≤ pageCount schema.filePath s.disk) :
    (insertScan schema row n s).1 = (lastRoom schema st n).isSome ∧
      Coherent U (insertScan schema row n s).2
        (match lastRoom schema st n with
        | some pid => st.write schema.filePath pid
            (appendedData schema row (st.mem schema.filePath pid))
        | none => st) := by
  induction n generalizing s with
  | zero => exact ⟨rfl, h⟩
  | succ n ih =>
    obtain ⟨hfetch, hf⟩ := fetchTable_coherent h hU (Nat.le_succ n) hn
    have hdata := hfetch.cached _ schema.filePath n hf
    have hgrow := fetchTable_grows schema n s schema.filePath
    have hfull := isFull_iff schema
      ((fetchTable schema n s).2.pool.pages (fetchTable schema n s).1)
    rw [hdata] at hfull
    by_cases hroom : Page.recordCount (st.mem schema.filePath n) ≥ schema.recordsPerPage
    · rw [insertScan_full row (hfull.mpr hroom), lastRoom, if_pos hroom]
      exact ih hfetch (fun i hi => hU i (by omega)) (by omega)
    · rw [insertScan_room row (mt hfull.mp hroom), lastRoom, if_neg hroom]
      refine ⟨rfl, ?_⟩
      have hchange := (changeTable_coherent hfetch hU (Nat.le_succ n) hf
        (fun page => (page.appendRow schema row).2) (appendRow_pageId _) (appendRow_isValid _)).1
      rw [appendRow_data, hdata] at hchange
      exact hchange

theorem insertNewPage_coherent (row : Row D) (h : Coherent U s st) (hU : Covers U schema n)
    (hn : n ≤ pageCount schema.filePath s.disk) :
    Coherent U (insertNewPage schema row n s)
      (st.write schema.filePath n (appendedData schema row (Page.initData n))) := by
  obtain ⟨hfetch, hf⟩ := fetchTable_coherent h hU (le_refl n) hn
  have hframe : ((fetchTable schema n s).2.pool.pages (fetchTable schema n s).1).pageId = n :=
    (hfetch.frame_pageId hf.1).trans hf.2.2
  -- The two writes to the frame are one change of it, from its page to a new one.
  have hchange := (changeTable_coherent hfetch hU (le_refl n) hf
    (fun _ => ((Page.init n).appendRow schema row).2)
    ((appendRow_pageId _).trans hframe.symm) ((appendRow_isValid _).trans hf.1.symm)).1
  rw [appendRow_data] at hchange
  have hmodify : insertNewPage schema row n s =
      markTableDirty schema n (modifyPage (fetchTable schema n s).1
        (fun _ => ((Page.init n).appendRow schema row).2) (fetchTable schema n s).2) := by
    simp [insertNewPage, modifyPage]
  rw [hmodify]
  exact hchange

/-- INSERT on the logical store. -/
theorem executeInsert_coherent {catalog : SystemCatalog} {q : ParsedQuery D}
    (hschema : catalog.getSchema q.tableName.val = some schema) (h : Coherent U s st)
    (hU : Covers U schema (pageCount schema.filePath s.disk)) :
    (executeInsert catalog q s).1 = true ∧
      Coherent U (executeInsert catalog q s).2 (insertStore schema (insertRow schema q)
        (pageCount schema.filePath s.disk) st) := by
  obtain ⟨hflag, hscan⟩ := insertScan_coherent (insertRow schema q) h hU (le_refl _)
  rw [executeInsert, hschema, insertStore]
  dsimp only
  cases hroom : lastRoom schema st (pageCount schema.filePath s.disk) with
  | some pid =>
    rw [hroom] at hflag hscan
    have hfound : (insertScan schema (insertRow schema q)
        (pageCount schema.filePath s.disk) s).1 = true := hflag
    rw [if_pos hfound]
    exact ⟨hfound, hscan⟩
  | none =>
    rw [hroom] at hflag hscan
    have hgrow := insertScan_grows schema (insertRow schema q)
      (pageCount schema.filePath s.disk) s schema.filePath
    rw [if_neg (by simp [hflag])]
    exact ⟨rfl, insertNewPage_coherent (insertRow schema q) hscan hU hgrow⟩

end Insert

end NanoDB
