import NanoDB.AVLMap
import NanoDB.RecordScan

/-!
The index on an integer column (index/AVLIndex.cpp). It is built from the pages on disk,
without the buffer pool. What it answers for a key are the positions of the records that
hold the key, in the order of the scan and cut at `MAX_LOCS`.
-/
namespace NanoDB

open CTypes DiskManager RecordScan AVLTree

abbrev MAX_LOCS : ℕ := 32

/-- The positions of one key, page id and record slot. -/
structure IndexEntry where
  locs : List (ℕ × ℕ)
  count_le : locs.length ≤ MAX_LOCS

namespace IndexEntry

def new : IndexEntry := ⟨[], Nat.zero_le _⟩

/-- A position past `MAX_LOCS` is dropped. -/
def add (e : IndexEntry) (pageId recIdx : ℕ) : IndexEntry :=
  if h : e.locs.length < MAX_LOCS then
    ⟨e.locs ++ [(pageId, recIdx)], by rw [List.length_append, List.length_singleton]; exact h⟩
  else e

theorem locs_add {e : IndexEntry} {all : List (ℕ × ℕ)} (h : e.locs = all.take MAX_LOCS)
    (pageId recIdx : ℕ) :
    (e.add pageId recIdx).locs = (all ++ [(pageId, recIdx)]).take MAX_LOCS := by
  have hlen : e.locs.length = min MAX_LOCS all.length := by rw [h, List.length_take]
  unfold add
  split
  · rename_i hroom
    have hall : all.length < MAX_LOCS := by omega
    have hshort : (all ++ [(pageId, recIdx)]).length ≤ MAX_LOCS := by
      rw [List.length_append, List.length_singleton]
      omega
    rw [List.take_of_length_le hshort]
    change e.locs ++ [(pageId, recIdx)] = _
    rw [h, List.take_of_length_le (Nat.le_of_lt hall)]
  · rw [h, List.take_append_of_le_length (by omega)]

end IndexEntry

structure AVLIndex where
  tree : AVLTree IndexEntry
  built : Bool

def keyOf {D : Type} [CDouble D] (colIndex : ℕ) (row : Row D) : Option Int32 :=
  match row.getField colIndex with
  | some (.int v) => some v
  | _ => none

namespace AVLIndex

def new : AVLIndex := ⟨AVLTree.new, false⟩

def insert (idx : AVLIndex) (key : Int32) (pageId recIdx : ℕ) : AVLIndex :=
  match idx.tree.search key with
  | some existing => { idx with tree := idx.tree.insert key (existing.add pageId recIdx) }
  | none => { idx with tree := idx.tree.insert key (IndexEntry.new.add pageId recIdx) }

def search (idx : AVLIndex) (key : Int32) : Option IndexEntry := idx.tree.search key

/-- A record with an integer in the column is entered as by `insert`. -/
def buildRecord (D : Type) [CDouble D] (schema : TableSchema) (colIndex : ℕ) (page : Page)
    (pid : ℕ) (idx : AVLIndex) (ri : ℕ) : AVLIndex :=
  match (page.getRow schema ri : Option (Row D)) with
  | none => idx
  | some row =>
    match keyOf colIndex row with
    | some key => idx.insert key pid ri
    | none => idx

def buildPage (D : Type) [CDouble D] (filePath : FilePath) (schema : TableSchema) (colIndex : ℕ)
    (disk : Disk) (idx : AVLIndex) (pid : ℕ) : AVLIndex :=
  let rd := readPage filePath pid Page.blank disk
  if rd.1 then
    (List.range rd.2.getRecordCount.toNat).foldl (buildRecord D schema colIndex rd.2 pid) idx
  else idx

def build (D : Type) [CDouble D] (filePath : FilePath) (schema : TableSchema) (colIndex : ℕ)
    (disk : Disk) (idx : AVLIndex) : AVLIndex :=
  { (List.range (pageCount filePath disk)).foldl
      (buildPage D filePath schema colIndex disk) idx with built := true }

def locations (idx : AVLIndex) (key : Int32) : List (ℕ × ℕ) :=
  match idx.search key with
  | some entry => entry.locs
  | none => []

/-- The index holds, for every key, the first `MAX_LOCS` of these positions. -/
structure Holds (idx : AVLIndex) (positions : Int32 → List (ℕ × ℕ)) : Prop where
  tree_ok : idx.tree.Invariant
  answers : ∀ key, idx.locations key = (positions key).take MAX_LOCS

theorem holds_new : Holds new fun _ => [] := ⟨invariant_new, fun _ => rfl⟩

variable {idx : AVLIndex} {positions : Int32 → List (ℕ × ℕ)}

/-- Entering a position adds it at its key. -/
theorem Holds.insert (h : idx.Holds positions) (key : Int32) (pid ri : ℕ) :
    (idx.insert key pid ri).Holds fun k => positions k ++ if k = key then [(pid, ri)] else [] := by
  obtain ⟨entry, hins, hentry⟩ : ∃ entry : IndexEntry,
      idx.insert key pid ri = { idx with tree := idx.tree.insert key (entry.add pid ri) } ∧
        entry.locs = (positions key).take MAX_LOCS := by
    have hanswer := h.answers key
    unfold locations AVLIndex.search at hanswer
    unfold AVLIndex.insert
    split
    · rename_i existing hsome
      rw [hsome] at hanswer
      exact ⟨existing, rfl, hanswer⟩
    · rename_i hnone
      rw [hnone] at hanswer
      exact ⟨IndexEntry.new, rfl, hanswer⟩
  have hsearch : ∀ k, (idx.insert key pid ri).search k =
      if k = key then some (entry.add pid ri) else idx.search k := by
    intro k
    rw [hins]
    exact search_step h.tree_ok (.insert key (entry.add pid ri)) k
  refine ⟨?_, ?_⟩
  · rw [hins]
    exact h.tree_ok.step (.insert key (entry.add pid ri))
  · intro k
    unfold locations
    rw [hsearch]
    by_cases hk : k = key
    · subst hk
      rw [if_pos rfl, if_pos rfl]
      exact IndexEntry.locs_add hentry pid ri
    · rw [if_neg hk, if_neg hk, List.append_nil]
      exact h.answers k

end AVLIndex

section Build
variable (D : Type) [CDouble D] (schema : TableSchema) (colIndex : ℕ)

def keySlots (key : Int32) (data : PageData) (n : ℕ) : List ℕ :=
  slots schema (fun row : Row D => keyOf colIndex row = some key) data n

def keyPositions (disk : Disk) (key : Int32) : List (ℕ × ℕ) :=
  (List.range (pageCount schema.filePath disk)).flatMap fun pid =>
    (keySlots D schema colIndex key (filePage disk schema.filePath pid)
      (slotCount (filePage disk schema.filePath pid))).map (pid, ·)

namespace AVLIndex

theorem buildRecords_holds {idx : AVLIndex} {positions : Int32 → List (ℕ × ℕ)}
    (h : idx.Holds positions) (page : Page) (pid n : ℕ) (hn : n ≤ slotCount page.data) :
    ((List.range n).foldl (buildRecord D schema colIndex page pid) idx).Holds fun key =>
      positions key ++ (keySlots D schema colIndex key page.data n).map (pid, ·) := by
  induction n with
  | zero => simpa [keySlots, slots] using h
  | succ n ih =>
    have hrest := ih (by omega)
    rw [List.range_succ, List.foldl_append, List.foldl_cons, List.foldl_nil, buildRecord,
      getRow_eq page (by omega)]
    dsimp only
    cases hkey : keyOf colIndex (Page.rowAt schema page.data n : Row D) with
    | none => simpa [keySlots, slots_succ, hkey] using hrest
    | some key =>
      have hins := hrest.insert key pid n
      have heq : ∀ k, (keySlots D schema colIndex k page.data (n + 1)).map (pid, ·) =
          (keySlots D schema colIndex k page.data n).map (pid, ·) ++
            if k = key then [(pid, n)] else [] := by
        intro k
        rw [keySlots, slots_succ, hkey]
        by_cases hk : k = key
        · simp [hk, keySlots]
        · simp [hk, Ne.symm hk, keySlots]
      simpa only [heq, List.append_assoc] using hins

/-- Reading the page from disk succeeds below the page count. -/
theorem buildPage_eq {disk : Disk} (idx : AVLIndex) {pid : ℕ}
    (hpid : pid < pageCount schema.filePath disk) :
    ∃ page : Page, page.data = filePage disk schema.filePath pid ∧
      buildPage D schema.filePath schema colIndex disk idx pid =
        (List.range (slotCount page.data)).foldl (buildRecord D schema colIndex page pid) idx := by
  refine ⟨⟨pid, false, true, filePage disk schema.filePath pid⟩, rfl, ?_⟩
  unfold buildPage
  dsimp only
  rw [readPage_of_lt Page.blank hpid]
  rfl

/-- A built index answers with the positions on disk. -/
theorem build_holds (disk : Disk) :
    (build D schema.filePath schema colIndex disk new).Holds
      (keyPositions D schema colIndex disk) := by
  have hpages : ∀ n ≤ pageCount schema.filePath disk,
      ((List.range n).foldl (buildPage D schema.filePath schema colIndex disk) new).Holds
        fun key => (List.range n).flatMap fun pid =>
          (keySlots D schema colIndex key (filePage disk schema.filePath pid)
            (slotCount (filePage disk schema.filePath pid))).map (pid, ·) := by
    intro n hn
    induction n with
    | zero => exact holds_new
    | succ n ih =>
      obtain ⟨page, hdata, hpage⟩ := buildPage_eq D schema colIndex
        ((List.range n).foldl (buildPage D schema.filePath schema colIndex disk) new)
        (show n < pageCount schema.filePath disk by omega)
      have hnext := buildRecords_holds D schema colIndex
        (ih (by omega)) page n _ (le_refl _)
      rw [List.range_succ, List.foldl_append, List.foldl_cons, List.foldl_nil, hpage]
      simpa only [List.flatMap_append, List.flatMap_singleton, hdata] using hnext
  have hall := hpages _ (le_refl _)
  exact ⟨hall.tree_ok, hall.answers⟩

end AVLIndex

end Build

end NanoDB
