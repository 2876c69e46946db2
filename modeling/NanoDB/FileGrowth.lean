import NanoDB.BufferPool

/-!
Table files never get shorter, whatever the pool does and whether its writes succeed
or not. A page id below a file's page count stays below it.
-/
namespace NanoDB

open CTypes BufferPool DiskManager

def FilesGrow (s s' : Storage) : Prop :=
  ∀ path, pageCount path s.disk ≤ pageCount path s'.disk

namespace FilesGrow

theorem refl (s : Storage) : FilesGrow s s := fun _ => le_refl _

theorem trans {s t u : Storage} (h : FilesGrow s t) (h' : FilesGrow t u) : FilesGrow s u :=
  fun path => (h path).trans (h' path)

/-- Files grow along a loop when they grow in every round of it. -/
theorem foldl {A B : Type} (storage : A → Storage) (round : A → B → A)
    (h : ∀ acc b, FilesGrow (storage acc) (storage (round acc b))) (bs : List B) (acc : A) :
    FilesGrow (storage acc) (storage (bs.foldl round acc)) := by
  induction bs generalizing acc with
  | nil => exact refl _
  | cons b bs ih => exact (h acc b).trans (ih (round acc b))

theorem ite {A : Type} (storage : A → Storage) {c : Prop} [Decidable c] {s : Storage} {a b : A}
    (ha : FilesGrow s (storage a)) (hb : FilesGrow s (storage b)) :
    FilesGrow s (storage (if c then a else b)) := by
  split
  · exact ha
  · exact hb

end FilesGrow

theorem evictLRU_grows (s : Storage) : FilesGrow s (evictLRU s).2 := by
  intro path
  simp only [evictLRU]
  split
  · exact pageCount_le_writePage _ _ _ path
  · exact le_refl _

theorem fetchPage_grows (path : FilePath) (hash pid : ℤ) (s : Storage) :
    FilesGrow s (fetchPage path hash pid s).2 := by
  unfold fetchPage
  split
  · unfold touchFrame
    split
    · exact FilesGrow.refl s
    · exact fun _ => le_refl _
  · change FilesGrow s (allocFrame s).2
    unfold allocFrame
    split
    · exact fun _ => le_refl _
    · exact evictLRU_grows s

theorem modifyPage_grows (f : ℕ) (change : Page → Page) (s : Storage) :
    FilesGrow s (modifyPage f change s) := fun _ => le_refl _

theorem markDirty_grows (hash pid : ℤ) (s : Storage) : FilesGrow s (markDirty hash pid s) := by
  unfold markDirty
  split
  · exact modifyPage_grows _ _ s
  · exact FilesGrow.refl s

theorem flushFrame_grows (wanted : FrameInfo → Bool) (s : Storage) (i : ℕ) :
    FilesGrow s (flushFrame wanted s i) := by
  intro path
  unfold flushFrame
  dsimp only
  split
  · exact pageCount_le_writePage _ _ _ path
  · exact le_refl _

theorem flushAll_grows (s : Storage) : FilesGrow s (flushAll s) :=
  FilesGrow.foldl id (flushFrame fun _ => true) (flushFrame_grows _) _ s

end NanoDB
