import NanoDB.Page

/-!
Page I/O on table files (storage/DiskManager.h). A file is its bytes. The disk
also carries the outcomes of the writes to come, so that a run may meet any
pattern of failing writes; with no outcome left every write succeeds.
-/
namespace NanoDB

open CTypes

/-- How one write ends: in full, with no file opened, or after a few bytes only. -/
inductive WriteOutcome
  | full
  | noOpen
  | short (bytes : Fin PAGE_SIZE)

structure Disk where
  files : FilePath → Option (List Byte)
  faults : List WriteOutcome

namespace DiskManager

/-- `fwrite` at a position; a gap behind the old end is filled with NUL bytes. -/
def writeAt (f : List Byte) (off : ℕ) (bs : List Byte) : List Byte :=
  if bs = [] then f
  else f.take off ++ List.replicate (off - f.length) 0 ++ bs ++ f.drop (off + bs.length)

def contents (disk : Disk) (path : FilePath) : List Byte := (disk.files path).getD []

/-- The position after `fseek`; seeking before the start fails and stays at 0. -/
def filePos (pageId : ℤ) : ℕ := (pageId * PAGE_SIZE).toNat

def pageBytes (data : PageData) : List Byte := List.ofFn data

def writePage (path : FilePath) (page : Page) (disk : Disk) : Bool × Disk :=
  let put (bs : List Byte) (faults : List WriteOutcome) : Disk :=
    ⟨Function.update disk.files path
      (some (writeAt (contents disk path) (filePos page.pageId) bs)), faults⟩
  match disk.faults with
  | [] => (true, put (pageBytes page.data) [])
  | .full :: rest => (true, put (pageBytes page.data) rest)
  | .noOpen :: rest => (false, { disk with faults := rest })
  | .short n :: rest => (false, put ((pageBytes page.data).take n) rest)

/-- A short read fills what it can of `dest` and fails. -/
def readPage (path : FilePath) (pageId : ℤ) (dest : Page) (disk : Disk) : Bool × Page :=
  match disk.files path with
  | none => (false, dest)
  | some f =>
    let rd := (f.drop (filePos pageId)).take PAGE_SIZE
    let data := Buffer.write dest.data 0 rd
    if rd.length ≠ PAGE_SIZE then (false, { dest with data := data })
    else (true, ⟨pageId, false, true, data⟩)

/-- Whole pages in the file; an absent file has none. The cast of the source to
`int` is exact for files below 8 TiB. -/
def pageCount (path : FilePath) (disk : Disk) : ℕ := (contents disk path).length / PAGE_SIZE

def filePage (disk : Disk) (path : FilePath) (i : ℕ) : PageData :=
  fun j => ((contents disk path)[i * PAGE_SIZE + j.val]?).getD 0

theorem writeAt_length (f : List Byte) (off : ℕ) (bs : List Byte) (hne : bs ≠ []) :
    (writeAt f off bs).length = max f.length (off + bs.length) := by
  have hpos : 0 < bs.length := List.length_pos_iff.mpr hne
  rw [writeAt, if_neg hne]
  simp only [List.length_append, List.length_take, List.length_replicate, List.length_drop]
  omega

theorem length_le_writeAt (f : List Byte) (off : ℕ) (bs : List Byte) :
    f.length ≤ (writeAt f off bs).length := by
  by_cases hbs : bs = []
  · rw [writeAt, if_pos hbs]
  · rw [writeAt_length f off bs hbs]
    exact le_max_left _ _

/-- No write, whether it succeeds or not, makes a file shorter. -/
theorem pageCount_le_writePage (path : FilePath) (page : Page) (disk : Disk) (other : FilePath) :
    pageCount other disk ≤ pageCount other (writePage path page disk).2 := by
  have hput : ∀ bs faults, pageCount other disk ≤ pageCount other
      ⟨Function.update disk.files path
        (some (writeAt (contents disk path) (filePos page.pageId) bs)), faults⟩ := by
    intro bs faults
    apply Nat.div_le_div_right
    by_cases h : other = path
    · subst h
      simpa [contents] using length_le_writeAt (contents disk other) (filePos page.pageId) bs
    · simp [contents, h]
  unfold writePage
  split
  · exact hput _ _
  · exact hput _ _
  · exact le_refl _
  · exact hput _ _

/-- Inside the written block the new bytes are read, elsewhere the old ones. -/
theorem writeAt_getD (f : List Byte) (off k : ℕ) (bs : List Byte) :
    ((writeAt f off bs)[k]?).getD 0 =
      if off ≤ k ∧ k < off + bs.length then (bs[k - off]?).getD 0 else (f[k]?).getD 0 := by
  by_cases hbs : bs = []
  · subst bs
    have hnot : ¬ (off ≤ k ∧ k < off + ([] : List Byte).length) := by simp
    rw [writeAt, if_pos rfl, if_neg hnot]
  rw [writeAt, if_neg hbs]
  have hpre : (f.take off ++ List.replicate (off - f.length) (0 : Byte)).length = off := by
    simp only [List.length_append, List.length_take, List.length_replicate]
    omega
  by_cases hlow : k < off
  · have hnot : ¬ (off ≤ k ∧ k < off + bs.length) := by omega
    rw [if_neg hnot, List.append_assoc, List.getElem?_append_left (by omega)]
    by_cases hf : k < f.length
    · rw [List.getElem?_append_left (by rw [List.length_take]; omega), List.getElem?_take]
      simp [hlow]
    · rw [List.getElem?_append_right (by rw [List.length_take]; omega),
        List.getElem?_eq_none (show f.length ≤ k by omega)]
      rw [List.getElem?_replicate]
      split <;> rfl
  · rw [List.append_assoc, List.getElem?_append_right (by omega), hpre]
    by_cases hin : k < off + bs.length
    · rw [if_pos ⟨by omega, hin⟩, List.getElem?_append_left (by omega)]
    · have hnot : ¬ (off ≤ k ∧ k < off + bs.length) := by omega
      have hsum : off + bs.length + (k - off - bs.length) = k := by omega
      rw [if_neg hnot, List.getElem?_append_right (by omega), List.getElem?_drop, hsum]

theorem pageBytes_length (data : PageData) : (pageBytes data).length = PAGE_SIZE :=
  List.length_ofFn

theorem filePos_natCast (i : ℕ) : filePos i = i * PAGE_SIZE := by
  unfold filePos
  rw [← Int.natCast_mul, Int.toNat_natCast]

/-- Whether the read succeeds or not, a freshly initialised page stays valid and
keeps its id. -/
theorem readPage_meta (path : FilePath) (pid : ℤ) (disk : Disk) :
    (readPage path pid (Page.init pid) disk).2.isValid = true ∧
      (readPage path pid (Page.init pid) disk).2.pageId = pid := by
  unfold readPage
  cases disk.files path with
  | none => exact ⟨rfl, rfl⟩
  | some f =>
    dsimp only
    split <;> exact ⟨rfl, rfl⟩

section Reliable
variable {disk : Disk} {path : FilePath} {page : Page} {i : ℕ}

theorem writePage_reliable (hok : disk.faults = []) :
    writePage path page disk = (true, ⟨Function.update disk.files path
      (some (writeAt (contents disk path) (filePos page.pageId) (pageBytes page.data))), []⟩) := by
  simp [writePage, hok]

theorem writePage_faults (hok : disk.faults = []) : (writePage path page disk).2.faults = [] := by
  rw [writePage_reliable hok]

theorem contents_writePage (hok : disk.faults = []) (other : FilePath) :
    contents (writePage path page disk).2 other =
      if other = path then
        writeAt (contents disk path) (filePos page.pageId) (pageBytes page.data)
      else contents disk other := by
  rw [writePage_reliable hok]
  unfold contents
  by_cases h : other = path
  · simp [h]
  · simp [h]

theorem pageCount_writePage (hok : disk.faults = []) (hpid : page.pageId = i)
    (other : FilePath) :
    pageCount other (writePage path page disk).2 =
      if other = path then max (pageCount path disk) (i + 1) else pageCount other disk := by
  unfold pageCount
  rw [contents_writePage hok]
  by_cases h : other = path
  · have hne : pageBytes page.data ≠ [] := by
      rw [← List.length_pos_iff, pageBytes_length]
      decide
    rw [if_pos h, if_pos h, writeAt_length _ _ _ hne, pageBytes_length, hpid, filePos_natCast,
      ← Nat.succ_mul]
    change max _ ((i + 1) * 4096) / 4096 = max (_ / 4096) (i + 1)
    omega
  · rw [if_neg h, if_neg h]

/-- A write changes its own page of its own file and no other. -/
theorem filePage_writePage (hok : disk.faults = []) (hpid : page.pageId = i)
    (other : FilePath) (j : ℕ) :
    filePage (writePage path page disk).2 other j =
      if other = path ∧ j = i then page.data else filePage disk other j := by
  funext b
  have hb : b.val < 4096 := b.isLt
  unfold filePage
  rw [contents_writePage hok]
  by_cases h : other = path
  · subst other
    rw [if_pos rfl, writeAt_getD, pageBytes_length, hpid, filePos_natCast]
    by_cases hj : j = i
    · subst j
      have hsub : i * PAGE_SIZE + b.val - i * PAGE_SIZE = b.val := by omega
      rw [if_pos ⟨by omega, by omega⟩, hsub, if_pos ⟨rfl, rfl⟩, pageBytes, List.getElem?_ofFn,
        dif_pos b.isLt]
      rfl
    · have hnot : ¬ (i * PAGE_SIZE ≤ j * PAGE_SIZE + b.val ∧
          j * PAGE_SIZE + b.val < i * PAGE_SIZE + PAGE_SIZE) := by
        change ¬ (i * 4096 ≤ j * 4096 + b.val ∧ j * 4096 + b.val < i * 4096 + 4096)
        omega
      rw [if_neg hnot]
      simp [hj]
  · simp [h]

/-- Reading a page the file holds in full succeeds with its bytes. -/
theorem readPage_of_lt (dest : Page) (h : i < pageCount path disk) :
    readPage path i dest disk = (true, ⟨i, false, true, filePage disk path i⟩) := by
  cases hf : disk.files path with
  | none => simp [pageCount, contents, hf] at h
  | some f =>
    have hcontents : contents disk path = f := by simp [contents, hf]
    have hlen : (i + 1) * 4096 ≤ f.length := by
      unfold pageCount at h
      rw [hcontents] at h
      change i < f.length / 4096 at h
      omega
    have hrd : ((f.drop (filePos i)).take PAGE_SIZE).length = PAGE_SIZE := by
      rw [List.length_take, List.length_drop, filePos_natCast]
      change min 4096 (f.length - i * 4096) = 4096
      omega
    unfold readPage
    simp only [hf, hrd, ne_eq, not_true_eq_false, if_false]
    congr 2
    funext j
    have hj : j.val < 4096 := j.isLt
    have hget : ((f.drop (filePos i)).take PAGE_SIZE)[j.val]? = f[i * PAGE_SIZE + j.val]? := by
      rw [List.getElem?_take, if_pos j.isLt, List.getElem?_drop, filePos_natCast]
    have hin : i * PAGE_SIZE + j.val < f.length := by
      change i * 4096 + j.val < f.length
      omega
    simp only [Buffer.write, Nat.zero_le, if_true, Nat.sub_zero, hget, filePage, hcontents]
    simp [List.getElem?_eq_getElem hin]

end Reliable

end DiskManager

end NanoDB
