import NanoDB.DiskManager
import NanoDB.DoublyLinkedList

/-!
The buffer pool (storage/BufferPool.h) together with the disk it reads and
writes. Frames are numbers below the capacity, a fetched page is returned as
its frame number, and a caller changes a page in place through that number.
-/
namespace NanoDB

open CTypes

/-- The page key in 32-bit `int` arithmetic, wrapping where the source overflows. -/
def makePageKey (tableHash pageId : ℤ) : ℤ := wrap32 (wrap32 (tableHash * 100000) + pageId)

structure FrameInfo where
  frameIndex : ℕ
  tableHash : ℤ
  pageId : ℤ
  filePath : FilePath

structure BufferPool where
  capacity : ℕ
  pages : ℕ → Page
  frameInfos : ℕ → FrameInfo
  lruNodes : ℕ → Option Addr
  lruList : DoublyLinkedList ℕ
  frameMap : IntHashMap ℕ
  freeFrames : ℕ → ℕ
  freeCount : ℕ
  evictionCount : ℕ

structure Storage where
  pool : BufferPool
  disk : Disk

namespace BufferPool

def new (capacity : ℕ) : BufferPool where
  capacity := capacity
  pages _ := Page.blank
  frameInfos _ := ⟨0, 0, 0, CStr.empty 256 textSize_pos⟩
  lruNodes _ := none
  lruList := DoublyLinkedList.new
  frameMap := IntHashMap.new (capacity * 4)
  freeFrames i := capacity - 1 - i
  freeCount := capacity
  evictionCount := 0

/-- Write the least recently used page back if it is dirty and empty its frame.
The result of the write is not looked at. -/
def evictLRU (s : Storage) : ℕ × Storage :=
  let popped := s.pool.lruList.popTail
  let frameIdx := popped.1
  let fi := s.pool.frameInfos frameIdx
  let pg := s.pool.pages frameIdx
  let disk := if pg.isDirty then (DiskManager.writePage fi.filePath pg s.disk).2 else s.disk
  (frameIdx, ⟨{ s.pool with
    pages := Function.update s.pool.pages frameIdx Page.blank
    lruNodes := Function.update s.pool.lruNodes frameIdx none
    lruList := popped.2
    frameMap := (s.pool.frameMap.remove (makePageKey fi.tableHash fi.pageId)).2
    evictionCount := s.pool.evictionCount + 1 }, disk⟩)

def allocFrame (s : Storage) : ℕ × Storage :=
  if s.pool.freeCount > 0 then
    (s.pool.freeFrames (s.pool.freeCount - 1),
      { s with pool := { s.pool with freeCount := s.pool.freeCount - 1 } })
  else evictLRU s

def loadFrame (filePath : FilePath) (tableHash pageId : ℤ) (frameIdx : ℕ) (s : Storage) :
    Storage :=
  let pg := Page.init pageId
  let pg := if (DiskManager.pageCount filePath s.disk : ℤ) > pageId then
    (DiskManager.readPage filePath pageId pg s.disk).2 else pg
  let fi : FrameInfo :=
    ⟨frameIdx, tableHash, pageId, snprintf 256 textSize_pos filePath.val⟩
  let pushed := s.pool.lruList.pushFront frameIdx
  { s with pool := { s.pool with
    pages := Function.update s.pool.pages frameIdx pg
    frameInfos := Function.update s.pool.frameInfos frameIdx fi
    frameMap := s.pool.frameMap.put (makePageKey tableHash pageId) frameIdx
    lruNodes := Function.update s.pool.lruNodes frameIdx (some pushed.1)
    lruList := pushed.2 } }

def touchFrame (frameIdx : ℕ) (s : Storage) : Storage :=
  match s.pool.lruNodes frameIdx with
  | none => s
  | some node => { s with pool := { s.pool with lruList := s.pool.lruList.moveToFront node } }

def fetchPage (filePath : FilePath) (tableHash pageId : ℤ) (s : Storage) : ℕ × Storage :=
  match s.pool.frameMap.get (makePageKey tableHash pageId) with
  | some frameIdx => (frameIdx, touchFrame frameIdx s)
  | none =>
    let alloc := allocFrame s
    (alloc.1, loadFrame filePath tableHash pageId alloc.1 alloc.2)

/-- A write through the pointer a fetch returned. -/
def modifyPage (frameIdx : ℕ) (f : Page → Page) (s : Storage) : Storage :=
  { s with pool := { s.pool with
    pages := Function.update s.pool.pages frameIdx (f (s.pool.pages frameIdx)) } }

def markDirty (tableHash pageId : ℤ) (s : Storage) : Storage :=
  match s.pool.frameMap.get (makePageKey tableHash pageId) with
  | some frameIdx => modifyPage frameIdx (fun pg => { pg with isDirty := true }) s
  | none => s

/-- One round of the flush loops: a frame that is valid, dirty and wanted is
written and marked clean, whatever the write returns. -/
def flushFrame (wanted : FrameInfo → Bool) (s : Storage) (i : ℕ) : Storage :=
  let pg := s.pool.pages i
  let fi := s.pool.frameInfos i
  if pg.isValid && pg.isDirty && wanted fi then
    modifyPage i (fun pg => { pg with isDirty := false })
      { s with disk := (DiskManager.writePage fi.filePath pg s.disk).2 }
  else s

def flushAll (s : Storage) : Storage :=
  (List.range s.pool.capacity).foldl (flushFrame fun _ => true) s

def flushTable (tableHash : ℤ) (s : Storage) : Storage :=
  (List.range s.pool.capacity).foldl (flushFrame fun fi => fi.tableHash = tableHash) s

def Misses (tableHash pageId : ℤ) (s : Storage) : Prop :=
  s.pool.frameMap.get (makePageKey tableHash pageId) = none

instance (tableHash pageId : ℤ) (s : Storage) : Decidable (Misses tableHash pageId s) :=
  inferInstanceAs (Decidable (_ = _))

end BufferPool

/-- The calls a pool can receive. `modify` is a caller's use of a page: fetch it,
change its bytes in place, mark it dirty. -/
inductive PoolOp
  | fetchPage (filePath : FilePath) (tableHash pageId : ℤ)
  | modify (filePath : FilePath) (tableHash pageId : ℤ) (change : PageData → PageData)
  | markDirty (tableHash pageId : ℤ)
  | flushAll
  | flushTable (tableHash : ℤ)

namespace PoolOp

def step (s : Storage) : PoolOp → Storage
  | .fetchPage path hash pid => (BufferPool.fetchPage path hash pid s).2
  | .modify path hash pid change =>
    let fetched := BufferPool.fetchPage path hash pid s
    BufferPool.markDirty hash pid
      (BufferPool.modifyPage fetched.1 (fun pg => { pg with data := change pg.data }) fetched.2)
  | .markDirty hash pid => BufferPool.markDirty hash pid s
  | .flushAll => BufferPool.flushAll s
  | .flushTable hash => BufferPool.flushTable hash s

def run (s : Storage) (ops : List PoolOp) : Storage := ops.foldl step s

def fetched : PoolOp → Option (FilePath × ℤ × ℤ)
  | .fetchPage path hash pid => some (path, hash, pid)
  | .modify path hash pid _ => some (path, hash, pid)
  | _ => none

theorem run_append (s : Storage) (ops ops' : List PoolOp) :
    run s (ops ++ ops') = run (run s ops) ops' := List.foldl_append

theorem run_concat (s : Storage) (ops : List PoolOp) (op : PoolOp) :
    run s (ops ++ [op]) = step (run s ops) op := run_append s ops [op]

end PoolOp

end NanoDB
