import Mathlib.Data.List.Perm.Subperm
import NanoDB.IndexScan
import NanoDB.ScanAgreement

/-!
The scan through an index against the scan of the table. An index is built from the disk
at the first look-up of its column and never changed, so a later look-up counts the rows
that stand where the disk had the key then. The two scans agree exactly when these are
all the rows that the clause accepts.
-/
namespace NanoDB.IndexAgreement

open CTypes DiskManager PoolInvariant PoolCoherence Executor RecordScan TableStore Engine Database
open ScanAgreement

variable {D : Type} [CDouble D]

section Growth
variable (catalog : SystemCatalog) (schema : TableSchema) (q : ParsedQuery D)

theorem indexRecord_grows (acc : List (ℕ × ℕ) × Storage) (loc : ℕ × ℕ) :
    FilesGrow acc.2 (indexRecord schema q acc loc).2 := by
  have hfetch := fetchTable_grows schema loc.1 acc.2
  unfold indexRecord
  dsimp only
  split
  · exact hfetch
  · exact FilesGrow.ite Prod.snd hfetch hfetch

theorem indexScan_grows (idx : AVLIndex) (key : Int32) (s : Storage) :
    FilesGrow s (indexScan schema idx q key s).2 := by
  unfold indexScan
  cases idx.search key with
  | none => exact FilesGrow.refl s
  | some entry =>
    exact FilesGrow.foldl Prod.snd (indexRecord schema q) (indexRecord_grows schema q) _ ([], s)

theorem indexedStep_grows (s : IndexedState) (e : IndexedEvent D) :
    FilesGrow s.storage (indexedStep catalog s e).storage := by
  cases e with
  | statement e => exact step_grows catalog s.storage e
  | lookUp tableName colIdx q key =>
    change FilesGrow s.storage (lookUp catalog tableName colIdx q key s).storage
    unfold lookUp
    cases catalog.getSchema tableName with
    | none => exact FilesGrow.refl _
    | some schema =>
      dsimp only
      cases (getOrBuildIndex D catalog tableName colIdx s.storage.disk s.cache).1 with
      | none => exact FilesGrow.refl _
      | some idx => exact indexScan_grows schema q idx key s.storage

/-- The file of a table has at least the pages it had when an index was built. -/
theorem indexedDisk_grows (s : Storage) (events : List (IndexedEvent D)) (tableName : List Byte)
    (colIdx : ℕ) (path : FilePath) :
    pageCount path (indexedDisk catalog s events tableName colIdx) ≤
      pageCount path (indexedRun catalog s events).storage.disk := by
  have hsplit : events = beforeIndex tableName colIdx events ++
      events.dropWhile fun e => !usesIndex tableName colIdx e :=
    (List.takeWhile_append_dropWhile).symm
  have hrun : indexedRun catalog s events =
      (events.dropWhile fun e => !usesIndex tableName colIdx e).foldl (indexedStep catalog)
        (indexedRun catalog s (beforeIndex tableName colIdx events)) := by
    unfold indexedRun
    rw [← List.foldl_append, ← hsplit]
  rw [hrun]
  exact FilesGrow.foldl IndexedState.storage (indexedStep catalog) (indexedStep_grows catalog)
    _ _ path

end Growth

section Coherent
variable {db : Database} {U : PageUniverse} {s : Storage} {st : Store} {schema : TableSchema}
  {q : ParsedQuery D} {n : ℕ}

def accepted (schema : TableSchema) (q : ParsedQuery D) (st : Store) (loc : ℕ × ℕ) : Bool :=
  loc.2 < slotCount (st.mem schema.filePath loc.1) &&
    matching schema q (Page.rowAt schema (st.mem schema.filePath loc.1) loc.2)

theorem getRow_eq_none (page : Page) {i : ℕ} (h : slotCount page.data ≤ i) :
    (page.getRow schema i : Option (Row D)) = none := by
  have hcount : page.getRecordCount ≤ i := by
    have hdef : page.getRecordCount = Page.recordCount page.data := rfl
    unfold slotCount at h
    omega
  rw [Page.getRow, if_pos (Or.inr hcount)]

/-- The scan through an index keeps the positions whose records the clause accepts. -/
theorem indexRecords_coherent (locs : List (ℕ × ℕ)) (hlocs : ∀ loc ∈ locs, loc.1 < n)
    (h : Coherent U s st) (hU : Covers U schema n) (hn : n ≤ pageCount schema.filePath s.disk)
    (acc : List (ℕ × ℕ)) :
    (locs.foldl (indexRecord schema q) (acc, s)).1 = acc ++ locs.filter (accepted schema q st) ∧
      Coherent U (locs.foldl (indexRecord schema q) (acc, s)).2 st := by
  induction locs generalizing s acc with
  | nil => exact ⟨(List.append_nil acc).symm, h⟩
  | cons loc locs ih =>
    have hpid : loc.1 < n := hlocs loc List.mem_cons_self
    obtain ⟨hfetch, hf⟩ := fetchTable_coherent h hU (Nat.le_of_lt hpid) hn
    have hdata := hfetch.cached _ schema.filePath loc.1 hf
    have hgrow := fetchTable_grows schema loc.1 s schema.filePath
    have hrecord : indexRecord schema q (acc, s) loc =
        (acc ++ [loc].filter (accepted schema q st), (fetchTable schema loc.1 s).2) := by
      unfold indexRecord
      dsimp only
      by_cases hslot : loc.2 < slotCount (st.mem schema.filePath loc.1)
      · have hin := hslot
        rw [← hdata] at hin
        rw [getRow_eq _ hin, hdata]
        by_cases hmatch : matching schema q
            (Page.rowAt schema (st.mem schema.filePath loc.1) loc.2)
        · have hcond := hmatch
          unfold matching at hcond
          simp [accepted, hslot, hmatch, hcond]
        · have hcond := hmatch
          unfold matching at hcond
          simp [accepted, hslot, hmatch, hcond]
      · have hout := not_lt.mp hslot
        rw [← hdata] at hout
        rw [getRow_eq_none _ hout]
        simp [accepted, hslot]
    rw [List.foldl_cons, hrecord]
    obtain ⟨hfound, hcoh⟩ := ih (fun loc' hloc' => hlocs loc' (List.mem_cons_of_mem loc hloc'))
      hfetch (hn.trans hgrow) (acc ++ [loc].filter (accepted schema q st))
    refine ⟨?_, hcoh⟩
    rw [hfound, List.append_assoc, ← List.filter_append, List.singleton_append]

theorem indexScan_eq (schema : TableSchema) (idx : AVLIndex) (q : ParsedQuery D) (key : Int32)
    (s : Storage) : indexScan schema idx q key s =
      (idx.locations key).foldl (indexRecord schema q) ([], s) := by
  unfold indexScan AVLIndex.locations
  cases idx.search key with
  | none => rfl
  | some entry => rfl

/-- A built index points to pages that the table had when it was built. -/
theorem locations_lt {colIdx : ℕ} {disk : Disk} {key : Int32} {loc : ℕ × ℕ}
    (h : loc ∈ (AVLIndex.build D schema.filePath schema colIdx disk AVLIndex.new).locations key) :
    loc.1 < pageCount schema.filePath disk := by
  rw [(AVLIndex.build_holds D schema colIdx disk).answers] at h
  exact (mem_positions.mp (List.mem_of_mem_take h)).1

theorem lookUp_coherent {tableName : List Byte} {colIdx : ℕ} {disk : Disk}
    (events : List (IndexedEvent D)) (key : Int32)
    (h : Coherent U (indexedRun db.catalog (start n disk) events).storage st)
    (hU : CoversAll U db (indexedRun db.catalog (start n disk) events).storage.disk) :
    Coherent U (lookUp db.catalog tableName colIdx q key
      (indexedRun db.catalog (start n disk) events)).storage st := by
  unfold lookUp
  cases hschema : db.catalog.getSchema tableName with
  | none => exact h
  | some schema =>
    dsimp only
    cases hidx : (getOrBuildIndex D db.catalog tableName colIdx
        (indexedRun db.catalog (start n disk) events).storage.disk
        (indexedRun db.catalog (start n disk) events).cache).1 with
    | none => exact h
    | some idx =>
      have hbuilt := indexedRun_index hschema hidx
      dsimp only
      rw [indexScan_eq]
      refine (indexRecords_coherent _ ?_ h (hU schema (db.getSchema_mem hschema))
        (le_refl _) []).2
      intro loc hloc
      rw [hbuilt] at hloc
      exact lt_of_lt_of_le (locations_lt hloc)
        (indexedDisk_grows db.catalog _ events tableName colIdx schema.filePath)

/-- Every state that a run with look-ups reaches represents a logical store. -/
theorem indexedRun_coherent {disk : Disk} (hcap : 1 ≤ n) (hok : disk.faults = [])
    (events : List (IndexedEvent D))
    (hU : CoversAll U db (indexedRun db.catalog (start n disk) events).storage.disk) :
    ∃ st, Coherent U (indexedRun db.catalog (start n disk) events).storage st := by
  induction events using List.reverseRecOn with
  | nil => exact ⟨_, coherent_start _ n hcap disk hok⟩
  | append_singleton events e ih =>
    rw [indexedRun_append] at hU ⊢
    have hbefore := hU.mono (indexedStep_grows db.catalog _ e)
    obtain ⟨st, hst⟩ := ih hbefore
    cases e with
    | statement e => exact ⟨_, (step_coherent hst e hU).1⟩
    | lookUp tableName colIdx q key => exact ⟨st, lookUp_coherent events key hst hbefore⟩

end Coherent

/-- Every row that the clause accepts now stands at one of the first `MAX_LOCS` positions that
held the key on this disk. -/
def AllIndexed (schema : TableSchema) (colIdx : ℕ) (key : Int32) (q : ParsedQuery D)
    (disk : Disk) (s : Storage) : Prop :=
  ∀ pid ri, pid < pageCount schema.filePath s.disk → ri < slotCount (pageView schema s pid) →
    matching schema q (Page.rowAt schema (pageView schema s pid) ri) = true →
    (pid, ri) ∈ (keyPositions D schema colIdx disk key).take MAX_LOCS

/-- A record has an integer in an INT column. -/
theorem keyOf_rowAt {schema : TableSchema} {colIdx : ℕ} {column : ColumnDef}
    (hcol : schema.columns[colIdx]? = some column) (hint : column.type = .INT) (data : PageData)
    (ri : ℕ) : ∃ v, keyOf colIdx (Page.rowAt schema data ri : Row D) = some v := by
  obtain ⟨f, hrow, htype⟩ := getField_rowAt D data hcol ri
  rw [hint] at htype
  unfold keyOf
  rw [hrow]
  cases f with
  | int v => exact ⟨v, rfl⟩
  | float v => contradiction
  | string v => contradiction

/-- A part of a duplicate-free list is as long as another such list that holds it exactly
when nothing of the other is missing. -/
theorem length_filter_eq_iff {A : Type} {locs all : List A} (p : A → Bool) (hlocs : locs.Nodup)
    (hall : all.Nodup) (hp : ∀ x ∈ locs, p x = true ↔ x ∈ all) :
    (locs.filter p).length = all.length ↔ ∀ x ∈ all, x ∈ locs := by
  have hsub : locs.filter p ⊆ all := by
    intro x hx
    obtain ⟨hx, hpx⟩ := List.mem_filter.mp hx
    exact (hp x hx).mp hpx
  constructor
  · intro hlen x hx
    have hperm := ((hlocs.filter p).subperm hsub).perm_of_length_le (le_of_eq hlen.symm)
    exact (List.mem_filter.mp (hperm.mem_iff.mpr hx)).1
  · intro hcovered
    refine le_antisymm ((hlocs.filter p).subperm hsub).length_le (hall.subperm ?_).length_le
    intro x hx
    exact List.mem_filter.mpr ⟨hcovered x hx, (hp x (hcovered x hx)).mpr hx⟩

/-- In one state, for an index of what the disk held at some time. -/
theorem indexScan_count_of_holds {U : PageUniverse} {s : Storage} {st : Store}
    {schema : TableSchema} {colIdx : ℕ} {built : Disk} {idx : AVLIndex} (h : Coherent U s st)
    (hU : Covers U schema (pageCount schema.filePath s.disk))
    (hidx : idx.Holds (keyPositions D schema colIdx built))
    (hgrows : pageCount schema.filePath built ≤ pageCount schema.filePath s.disk)
    (key : Int32) (q : ParsedQuery D) :
    (indexScan schema idx q key s).1.length = (seqScan schema q (-1) s).1.length ↔
      AllIndexed schema colIdx key q built s := by
  have hlocs : ∀ loc ∈ (keyPositions D schema colIdx built key).take MAX_LOCS,
      loc.1 < pageCount schema.filePath s.disk := by
    intro loc hloc
    exact lt_of_lt_of_le (mem_positions.mp (List.mem_of_mem_take hloc)).1 hgrows
  have hview : ∀ i, i < pageCount schema.filePath s.disk →
      pageView schema s i = st.mem schema.filePath i :=
    fun i hi => pageView_eq h hU (Nat.le_of_lt hi)
  have hselected : ∀ loc : ℕ × ℕ,
      loc ∈ (selectStore schema q (pageCount schema.filePath s.disk) st).1 ↔
        loc.1 < pageCount schema.filePath s.disk ∧ accepted schema q st loc = true := by
    intro loc
    rw [selectStore_found, ← Prod.mk.eta (p := loc), mem_positions]
    simp [matchingSlots, slots, accepted]
  rw [indexScan_eq, (indexRecords_coherent _ (by rwa [hidx.answers]) h hU (le_refl _) []).1,
    (seqScan_coherent h hU).1, List.nil_append, hidx.answers, length_filter_eq_iff]
  · constructor
    · intro hall pid ri hpid hri hmatch
      rw [hview pid hpid] at hri hmatch
      exact hall (pid, ri) ((hselected (pid, ri)).mpr ⟨hpid, by simp [accepted, hri, hmatch]⟩)
    · intro hall loc hloc
      obtain ⟨hpid, hacc⟩ := (hselected loc).mp hloc
      unfold accepted at hacc
      rw [← hview loc.1 hpid, Bool.and_eq_true, decide_eq_true_eq] at hacc
      exact hall loc.1 loc.2 hpid hacc.1 hacc.2
  · exact (nodup_positions (fun _ => List.nodup_range.filter _) _).sublist (List.take_sublist _ _)
  · rw [selectStore_found]
    exact nodup_positions (fun _ => List.nodup_range.filter _) _
  · intro loc hloc
    rw [hselected]
    exact ⟨fun hacc => ⟨hlocs loc hloc, hacc⟩, fun hacc => hacc.2⟩

section Statement
variable {db : Database} {tableName : List Byte} {schema : TableSchema} {colIdx capacity : ℕ}
  {disk : Disk}

/-- A look-up through the index and the scan of the table count alike, in any state of any
run, if and only if every row the clause accepts is where the index was built to have it. -/
theorem indexScan_count_iff (hcap : 1 ≤ capacity) (hok : disk.faults = [])
    (events : List (IndexedEvent D))
    (hkeys : db.KeysDistinct
      (indexedRun db.catalog (start capacity disk) events).storage.disk)
    (hschema : db.catalog.getSchema tableName = some schema) {idx : AVLIndex}
    (hidx : (getOrBuildIndex D db.catalog tableName colIdx
      (indexedRun db.catalog (start capacity disk) events).storage.disk
      (indexedRun db.catalog (start capacity disk) events).cache).1 = some idx)
    (key : Int32) (q : ParsedQuery D) :
    (indexScan schema idx q key
        (indexedRun db.catalog (start capacity disk) events).storage).1.length =
      (seqScan schema q (-1)
        (indexedRun db.catalog (start capacity disk) events).storage).1.length ↔
    AllIndexed schema colIdx key q
      (indexedDisk db.catalog (start capacity disk) events tableName colIdx)
      (indexedRun db.catalog (start capacity disk) events).storage := by
  have hcovers := db.pages_coversAll hkeys
  have hU := hcovers schema (db.getSchema_mem hschema)
  obtain ⟨st, hcoh⟩ := indexedRun_coherent hcap hok events hcovers
  have hbuilt := indexedRun_index hschema hidx
  have hgrows := indexedDisk_grows db.catalog (start capacity disk) events tableName colIdx
    schema.filePath
  have hholds := AVLIndex.build_holds D schema colIdx
    (indexedDisk db.catalog (start capacity disk) events tableName colIdx)
  rw [← hbuilt] at hholds
  exact indexScan_count_of_holds hcoh hU hholds hgrows key q

/-- The first look-up after a flush finds every row through the index. -/
theorem indexScan_count_flushed :
    AllIndexed makeOrdersSchema 0 5 (parsed "SELECT * FROM orders WHERE o_orderkey == 5")
      (indexedDisk tpch.catalog (start 1 noFiles)
        [.statement (.insert (parsed "INSERT INTO orders VALUES (5, 2)")), .statement .flushAll]
        (ascii "orders") 0)
      (indexedRun tpch.catalog (start 1 noFiles)
        [.statement (.insert (parsed "INSERT INTO orders VALUES (5, 2)")),
          .statement .flushAll]).storage := by
  have hschema : tpch.catalog.getSchema (ascii "orders") = some makeOrdersSchema := rfl
  have hcounts : (getOrBuildIndex ℤ tpch.catalog (ascii "orders") 0
      (indexedRun tpch.catalog (start 1 noFiles)
        [.statement (.insert (parsed "INSERT INTO orders VALUES (5, 2)")),
          .statement .flushAll]).storage.disk
      (indexedRun tpch.catalog (start 1 noFiles)
        [.statement (.insert (parsed "INSERT INTO orders VALUES (5, 2)")),
          .statement .flushAll]).cache).1.map (fun idx =>
        decide ((indexScan makeOrdersSchema idx
            (parsed "SELECT * FROM orders WHERE o_orderkey == 5") 5
            (indexedRun tpch.catalog (start 1 noFiles)
              [.statement (.insert (parsed "INSERT INTO orders VALUES (5, 2)")),
                .statement .flushAll]).storage).1.length =
          (seqScan makeOrdersSchema (parsed "SELECT * FROM orders WHERE o_orderkey == 5") (-1)
            (indexedRun tpch.catalog (start 1 noFiles)
              [.statement (.insert (parsed "INSERT INTO orders VALUES (5, 2)")),
                .statement .flushAll]).storage).1.length)) = some true := by decide +kernel
  obtain ⟨idx, hidx, hcount⟩ := Option.map_eq_some_iff.mp hcounts
  exact (indexScan_count_iff (le_refl 1) rfl _ (tpch_keysDistinct (by decide +kernel)) hschema
    hidx 5 _).mp (of_decide_eq_true hcount)

/-- A row inserted after the first look-up is not found through the index. -/
theorem indexScan_misses_insert :
    let q := parsed "SELECT * FROM orders WHERE o_orderkey == 5"
    let s := indexedRun tpch.catalog (start MAX_POOL_SIZE noFiles)
      [.statement (.insert (parsed "INSERT INTO orders VALUES (5, 2)")), .statement .flushAll,
        .lookUp (ascii "orders") 0 q 5,
        .statement (.insert (parsed "INSERT INTO orders VALUES (5, 3)"))]
    (getOrBuildIndex ℤ tpch.catalog (ascii "orders") 0 s.storage.disk s.cache).1.map (fun idx =>
        ((indexScan makeOrdersSchema idx q 5 s.storage).1,
          (seqScan makeOrdersSchema q (-1) s.storage).1)) =
      some ([(0, 0)], [(0, 0), (0, 1)]) := by
  decide +kernel

end Statement

end NanoDB.IndexAgreement
