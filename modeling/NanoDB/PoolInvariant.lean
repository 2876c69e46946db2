import NanoDB.BufferPool
import Mathlib.Data.List.Perm.Basic
import Mathlib.Data.List.Perm.Lattice

/-!
The representation invariant of the buffer pool. The free stack, the LRU list,
the node table, the hash map and the frame metadata describe one set of occupied
frames. While a page is being replaced its frame belongs to neither the free stack
nor the list; `held` names the frames in that state, none between two calls.
-/
namespace NanoDB.PoolInvariant

open CTypes ChainedTable BufferPool DoublyLinkedList

/-- `freeFrames_[0..freeCount_)`, the top of the stack last. -/
def freeStack (p : BufferPool) : List ℕ := (List.range p.freeCount).map p.freeFrames

/-- The key a frame is registered under, from its own metadata. -/
def frameKey (p : BufferPool) (f : ℕ) : ℤ :=
  makePageKey (p.frameInfos f).tableHash (p.frameInfos f).pageId

/-- The pool's structures agree; `lru` is the list read from head to tail, as pairs
of node address and frame. -/
structure Inv (p : BufferPool) (held : List ℕ) (lru : List (Addr × ℕ)) : Prop where
  spine : p.lruList.Spine lru
  partition : (freeStack p ++ held ++ lru.map Prod.snd).Perm (List.range p.capacity)
  nodes : ∀ f a, p.lruNodes f = some a ↔ (a, f) ∈ lru
  placed : WellPlaced intHash p.frameMap
  mapped : ∀ k f, p.frameMap.get k = some f ↔ f ∈ lru.map Prod.snd ∧ frameKey p f = k
  loaded : ∀ f ∈ lru.map Prod.snd,
    (p.pages f).isValid = true ∧ (p.pages f).pageId = (p.frameInfos f).pageId
  unused : ∀ f, f ∉ lru.map Prod.snd → (p.pages f).isValid = false

theorem inv_new (capacity : ℕ) : Inv (BufferPool.new capacity) [] [] where
  spine := spine_new
  partition := by
    have hstack : freeStack (BufferPool.new capacity) =
        (List.range capacity).map fun i => capacity - 1 - i := rfl
    rw [hstack, List.append_nil, List.map_nil, List.append_nil]
    have hnodup : ((List.range capacity).map fun i => capacity - 1 - i).Nodup := by
      refine List.Nodup.map_on ?_ List.nodup_range
      intro i hi j hj heq
      have hi' := List.mem_range.mp hi
      have hj' := List.mem_range.mp hj
      omega
    rw [show (BufferPool.new capacity).capacity = capacity from rfl,
      List.perm_ext_iff_of_nodup hnodup List.nodup_range]
    intro f
    rw [List.mem_map, List.mem_range]
    constructor
    · rintro ⟨i, hi, heq⟩
      have hi' := List.mem_range.mp hi
      omega
    · intro hf
      exact ⟨capacity - 1 - f, List.mem_range.mpr (by omega), by omega⟩
  nodes f a := by simp [BufferPool.new]
  placed := wellPlaced_new intHash _
  mapped k f := by
    have hget : (BufferPool.new capacity).frameMap.get k = none := get_new intHash _ k
    simp [hget]
  loaded := by simp
  unused f _ := rfl

namespace Inv

variable {p : BufferPool} {held : List ℕ} {lru : List (Addr × ℕ)}

theorem nodup (h : Inv p held lru) : (freeStack p ++ held ++ lru.map Prod.snd).Nodup :=
  h.partition.nodup_iff.mpr List.nodup_range

theorem frames_nodup (h : Inv p held lru) : (lru.map Prod.snd).Nodup :=
  (List.nodup_append.mp h.nodup).2.1

theorem frame_lt (h : Inv p held lru) {f : ℕ} (hf : f ∈ lru.map Prod.snd) : f < p.capacity :=
  List.mem_range.mp (h.partition.mem_iff.mp (List.mem_append_right _ hf))

theorem ne_last {xs : List (Addr × ℕ)} {a : Addr} {f : ℕ} (h : Inv p held (xs ++ [(a, f)])) :
    ∀ g ∈ xs.map Prod.snd, g ≠ f := by
  have hframes := h.frames_nodup
  rw [List.map_append, List.map_singleton, List.nodup_append] at hframes
  exact fun g hg => hframes.2.2 g hg f (by simp)

theorem held_notMem (h : Inv p held lru) {f : ℕ} (hf : f ∈ held) : f ∉ lru.map Prod.snd := by
  intro hmem
  exact (List.nodup_append.mp h.nodup).2.2 f (List.mem_append_right _ hf) f hmem rfl

theorem length_eq (h : Inv p held lru) : p.freeCount + held.length + lru.length = p.capacity := by
  have hlen := h.partition.length_eq
  simp only [freeStack, List.length_append, List.length_map, List.length_range] at hlen
  exact hlen

/-- Two occupied frames are never registered under the same key. -/
theorem frameKey_inj (h : Inv p held lru) {f g : ℕ} (hf : f ∈ lru.map Prod.snd)
    (hg : g ∈ lru.map Prod.snd) (heq : frameKey p f = frameKey p g) : f = g := by
  have hfget := (h.mapped (frameKey p g) f).mpr ⟨hf, heq⟩
  have hgget := (h.mapped (frameKey p g) g).mpr ⟨hg, rfl⟩
  exact Option.some.inj (hfget.symm.trans hgget)

theorem get_frameKey (h : Inv p held lru) {f : ℕ} (hf : f ∈ lru.map Prod.snd) :
    p.frameMap.get (frameKey p f) = some f :=
  (h.mapped _ f).mpr ⟨hf, rfl⟩

/-- The place of a frame in the list, with the node the node table gives for it. -/
theorem split (h : Inv p held lru) {f : ℕ} (hf : f ∈ lru.map Prod.snd) :
    ∃ xs a ys, lru = xs ++ (a, f) :: ys ∧ p.lruNodes f = some a := by
  obtain ⟨e, he, rfl⟩ := List.mem_map.mp hf
  obtain ⟨xs, ys, heq⟩ := List.append_of_mem he
  exact ⟨xs, e.1, ys, heq, (h.nodes e.2 e.1).mpr he⟩

/-- Changing page contents keeps the invariant as long as page ids and validity stay. -/
theorem setPages (h : Inv p held lru) (pages : ℕ → Page)
    (hid : ∀ f, (pages f).pageId = (p.pages f).pageId)
    (hvalid : ∀ f, (pages f).isValid = (p.pages f).isValid) :
    Inv { p with pages := pages } held lru where
  spine := h.spine
  partition := h.partition
  nodes := h.nodes
  placed := h.placed
  mapped := h.mapped
  loaded f hf := by
    change (pages f).isValid = true ∧ (pages f).pageId = _
    rw [hid, hvalid]
    exact h.loaded f hf
  unused f hf := (hvalid f).trans (h.unused f hf)

end Inv

/-- The pools differ in page contents and dirty flags only; the disks may differ. -/
def PagesOnly (s s' : Storage) : Prop :=
  ∃ pages, s'.pool = { s.pool with pages := pages } ∧
    ∀ f, (pages f).pageId = (s.pool.pages f).pageId ∧
      (pages f).isValid = (s.pool.pages f).isValid

namespace PagesOnly

theorem refl (s : Storage) : PagesOnly s s := ⟨s.pool.pages, rfl, fun _ => ⟨rfl, rfl⟩⟩

theorem trans {s t u : Storage} (h : PagesOnly s t) (h' : PagesOnly t u) : PagesOnly s u := by
  obtain ⟨pages, heq, hmeta⟩ := h
  obtain ⟨pages', heq', hmeta'⟩ := h'
  rw [heq] at heq' hmeta'
  refine ⟨pages', heq', ?_⟩
  intro f
  exact ⟨(hmeta' f).1.trans (hmeta f).1, (hmeta' f).2.trans (hmeta f).2⟩

theorem inv {s s' : Storage} {held : List ℕ} {lru : List (Addr × ℕ)} (h : PagesOnly s s')
    (hinv : Inv s.pool held lru) : Inv s'.pool held lru := by
  obtain ⟨pages, heq, hmeta⟩ := h
  rw [heq]
  exact hinv.setPages pages (fun f => (hmeta f).1) (fun f => (hmeta f).2)

theorem frameKey_eq {s s' : Storage} (h : PagesOnly s s') : frameKey s'.pool = frameKey s.pool := by
  obtain ⟨pages, heq, -⟩ := h
  rw [heq]
  rfl

theorem fields_eq {s s' : Storage} (h : PagesOnly s s') :
    s'.pool.evictionCount = s.pool.evictionCount ∧ s'.pool.capacity = s.pool.capacity := by
  obtain ⟨pages, heq, -⟩ := h
  rw [heq]
  exact ⟨rfl, rfl⟩

end PagesOnly

theorem modifyPage_pagesOnly (s : Storage) (f : ℕ) (change : Page → Page)
    (hid : (change (s.pool.pages f)).pageId = (s.pool.pages f).pageId)
    (hvalid : (change (s.pool.pages f)).isValid = (s.pool.pages f).isValid) :
    PagesOnly s (modifyPage f change s) := by
  refine ⟨_, rfl, ?_⟩
  intro g
  by_cases hg : g = f
  · subst g
    simp [hid, hvalid]
  · simp [hg]

/-- A change to the frame of a page and `markDirty` of the page are one change. -/
theorem markDirty_modifyPage {s : Storage} {f : ℕ} {hash pid : ℤ}
    (hget : s.pool.frameMap.get (makePageKey hash pid) = some f) (change : Page → Page) :
    markDirty hash pid (modifyPage f change s) =
      modifyPage f (fun pg => { change pg with isDirty := true }) s := by
  have hget' : (modifyPage f change s).pool.frameMap.get (makePageKey hash pid) = some f := hget
  unfold markDirty
  rw [hget']
  simp [modifyPage]

theorem markDirty_pagesOnly (s : Storage) (hash pid : ℤ) :
    PagesOnly s (markDirty hash pid s) := by
  unfold markDirty
  split
  · exact modifyPage_pagesOnly s _ _ rfl rfl
  · exact PagesOnly.refl s

theorem flushFrame_pagesOnly (wanted : FrameInfo → Bool) (s : Storage) (i : ℕ) :
    PagesOnly s (flushFrame wanted s i) := by
  by_cases hflush : (s.pool.pages i).isValid && (s.pool.pages i).isDirty &&
      wanted (s.pool.frameInfos i)
  · rw [flushFrame, if_pos hflush]
    exact modifyPage_pagesOnly _ i _ rfl rfl
  · rw [flushFrame, if_neg hflush]
    exact PagesOnly.refl s

theorem flushFrames_pagesOnly (wanted : FrameInfo → Bool) (is : List ℕ) (s : Storage) :
    PagesOnly s (is.foldl (flushFrame wanted) s) := by
  induction is generalizing s with
  | nil => exact PagesOnly.refl s
  | cons i is ih => exact (flushFrame_pagesOnly wanted s i).trans (ih _)

/-- A hit: the node of the frame goes to the front and nothing else changes. -/
theorem touchFrame_inv {s : Storage} {xs ys : List (Addr × ℕ)} {a : Addr} {f : ℕ}
    (h : Inv s.pool [] (xs ++ (a, f) :: ys)) :
    touchFrame f s = { s with pool := { s.pool with lruList := s.pool.lruList.moveToFront a } } ∧
      Inv (touchFrame f s).pool [] ((a, f) :: (xs ++ ys)) := by
  have hnode : s.pool.lruNodes f = some a := (h.nodes f a).mpr (by simp)
  have heq : touchFrame f s =
      { s with pool := { s.pool with lruList := s.pool.lruList.moveToFront a } } := by
    simp [touchFrame, hnode]
  have hperm : ((a, f) :: (xs ++ ys)).Perm (xs ++ (a, f) :: ys) := List.perm_middle.symm
  have hmem : ∀ g, g ∈ ((a, f) :: (xs ++ ys)).map Prod.snd ↔
      g ∈ (xs ++ (a, f) :: ys).map Prod.snd := fun g => (hperm.map Prod.snd).mem_iff
  refine ⟨heq, ?_⟩
  rw [heq]
  exact {
    spine := moveToFront_spine h.spine
    partition := ((hperm.map Prod.snd).append_left _).trans h.partition
    nodes := fun g b => (h.nodes g b).trans hperm.mem_iff.symm
    placed := h.placed
    mapped := fun k g => (h.mapped k g).trans (and_congr_left fun _ => (hmem g).symm)
    loaded := fun g hg => h.loaded g ((hmem g).mp hg)
    unused := fun g hg => h.unused g (fun hg' => hg ((hmem g).mpr hg')) }

/-- A free frame is taken off the stack and held. -/
theorem popFree_inv {s : Storage} {lru : List (Addr × ℕ)} (h : Inv s.pool [] lru)
    (hfree : 0 < s.pool.freeCount) :
    Inv { s.pool with freeCount := s.pool.freeCount - 1 }
      [s.pool.freeFrames (s.pool.freeCount - 1)] lru := by
  have hstack : freeStack s.pool = (List.range (s.pool.freeCount - 1)).map s.pool.freeFrames ++
      [s.pool.freeFrames (s.pool.freeCount - 1)] := by
    unfold freeStack
    obtain ⟨n, hn⟩ : ∃ n, s.pool.freeCount = n + 1 := ⟨s.pool.freeCount - 1, by omega⟩
    rw [hn, List.range_succ, List.map_append]
    rfl
  have hpart := h.partition
  rw [hstack, List.append_nil] at hpart
  exact {
    spine := h.spine
    partition := hpart
    nodes := h.nodes
    placed := h.placed
    mapped := h.mapped
    loaded := h.loaded
    unused := h.unused }

/-- Eviction with its victim named. -/
theorem evictLRU_eq {s : Storage} {f : ℕ} (h : s.pool.lruList.popTail.1 = f) :
    evictLRU s = (f, ⟨{ s.pool with
      pages := Function.update s.pool.pages f Page.blank
      lruNodes := Function.update s.pool.lruNodes f none
      lruList := s.pool.lruList.popTail.2
      frameMap := (s.pool.frameMap.remove (frameKey s.pool f)).2
      evictionCount := s.pool.evictionCount + 1 },
      if (s.pool.pages f).isDirty then
        (DiskManager.writePage (s.pool.frameInfos f).filePath (s.pool.pages f) s.disk).2
      else s.disk⟩) := by
  subst h
  rfl

/-- The last frame of the list leaves the hash map, the others stay in it. -/
theorem mapped_evictLRU {s : Storage} {xs : List (Addr × ℕ)} {a : Addr} {f : ℕ}
    (h : Inv s.pool [] (xs ++ [(a, f)])) (k : ℤ) (g : ℕ) :
    (s.pool.frameMap.remove (frameKey s.pool f)).2.get k = some g ↔
      g ∈ xs.map Prod.snd ∧ frameKey s.pool g = k := by
  have hget := get_remove h.placed (frameKey s.pool f) k
  change (s.pool.frameMap.remove (frameKey s.pool f)).2.get k = _ at hget
  rw [hget]
  by_cases hk : k = frameKey s.pool f
  · rw [if_pos hk]
    constructor
    · intro hnone
      contradiction
    · intro ⟨hg, hkey⟩
      have hold : g ∈ (xs ++ [(a, f)]).map Prod.snd := by
        rw [List.map_append]
        exact List.mem_append_left _ hg
      have hgf := h.frameKey_inj hold (by simp) (hkey.trans hk)
      exact absurd hgf (h.ne_last g hg)
  · rw [if_neg hk]
    refine (h.mapped k g).trans ?_
    rw [List.map_append, List.mem_append]
    constructor
    · intro ⟨hg, hkey⟩
      rcases hg with hg | hg
      · exact ⟨hg, hkey⟩
      · obtain rfl : g = f := by simpa using hg
        exact absurd hkey.symm hk
    · intro ⟨hg, hkey⟩
      exact ⟨Or.inl hg, hkey⟩

/-- With no free frame the tail of the list is the victim, and its frame is held. -/
theorem evictLRU_inv {s : Storage} {xs : List (Addr × ℕ)} {a : Addr} {f : ℕ}
    (h : Inv s.pool [] (xs ++ [(a, f)])) :
    (evictLRU s).1 = f ∧ Inv (evictLRU s).2.pool [f] xs := by
  obtain ⟨hfst, hspine⟩ := popTail_spine h.spine
  have hf : f ∉ xs.map Prod.snd := fun hmem => h.ne_last f hmem rfl
  have hsub : ∀ g ∈ xs.map Prod.snd, g ∈ (xs ++ [(a, f)]).map Prod.snd := by
    intro g hg
    rw [List.map_append]
    exact List.mem_append_left _ hg
  refine ⟨hfst, ?_⟩
  rw [evictLRU_eq hfst]
  exact {
    spine := hspine
    partition := by
      refine List.Perm.trans ?_ h.partition
      rw [List.map_append, List.append_nil]
      change (freeStack s.pool ++ [f] ++ xs.map Prod.snd).Perm _
      rw [List.append_assoc]
      exact List.perm_append_comm.append_left _
    nodes := by
      intro g b
      by_cases hg : g = f
      · subst g
        have hnot : (b, f) ∉ xs := fun hmem => hf (List.mem_map_of_mem hmem)
        simp [hnot]
      · change Function.update s.pool.lruNodes f none g = some b ↔ _
        rw [Function.update_of_ne hg, h.nodes]
        simp [hg]
    placed := wellPlaced_remove h.placed _
    mapped := mapped_evictLRU h
    loaded := by
      intro g hg
      change (Function.update s.pool.pages f Page.blank g).isValid = true ∧
        (Function.update s.pool.pages f Page.blank g).pageId = _
      rw [Function.update_of_ne (h.ne_last g hg)]
      exact h.loaded g (hsub g hg)
    unused := by
      intro g hg
      change (Function.update s.pool.pages f Page.blank g).isValid = false
      by_cases hgf : g = f
      · subst g
        rw [Function.update_self]
        rfl
      · rw [Function.update_of_ne hgf]
        apply h.unused
        rw [List.map_append, List.mem_append]
        rintro (hmem | hmem)
        · exact hg hmem
        · exact hgf (by simpa using hmem) }

/-- Eviction registers no key. -/
theorem evictLRU_misses {s : Storage} {lru : List (Addr × ℕ)} {f : ℕ} {hash pid : ℤ}
    (h : Inv s.pool [] lru) (hfst : (evictLRU s).1 = f) (hmiss : Misses hash pid s) :
    Misses hash pid (evictLRU s).2 := by
  have hremove := get_remove h.placed (frameKey s.pool f) (makePageKey hash pid)
  rw [evictLRU_eq hfst]
  refine hremove.trans ?_
  split
  · rfl
  · exact hmiss

theorem frameKey_loadFrame (path : FilePath) (hash pid : ℤ) (f : ℕ) (s : Storage) :
    frameKey (loadFrame path hash pid f s).pool =
      Function.update (frameKey s.pool) f (makePageKey hash pid) := by
  funext g
  by_cases hg : g = f
  · subst g
    simp [frameKey, loadFrame]
  · simp [frameKey, loadFrame, hg]

/-- The filled frame enters the hash map under the missing key, the others stay in it. -/
theorem mapped_loadFrame {s : Storage} {lru : List (Addr × ℕ)} {f : ℕ} (path : FilePath)
    {hash pid : ℤ} (h : Inv s.pool [f] lru) (hmiss : Misses hash pid s) (k : ℤ) (g : ℕ) :
    (loadFrame path hash pid f s).pool.frameMap.get k = some g ↔
      g ∈ f :: lru.map Prod.snd ∧ frameKey (loadFrame path hash pid f s).pool g = k := by
  have hf : f ∉ lru.map Prod.snd := h.held_notMem (by simp)
  have hget : (loadFrame path hash pid f s).pool.frameMap.get k =
      if k = makePageKey hash pid then some f else s.pool.frameMap.get k :=
    get_put s.pool.frameMap (makePageKey hash pid) k f
  have hkeyne : ∀ g ∈ lru.map Prod.snd,
      frameKey (loadFrame path hash pid f s).pool g = frameKey s.pool g := by
    intro g hg
    have hne : g ≠ f := fun heq => hf (heq ▸ hg)
    rw [frameKey_loadFrame, Function.update_of_ne hne]
  have hkeyself : frameKey (loadFrame path hash pid f s).pool f = makePageKey hash pid := by
    rw [frameKey_loadFrame, Function.update_self]
  rw [hget, List.mem_cons]
  by_cases hk : k = makePageKey hash pid
  · rw [if_pos hk]
    constructor
    · intro heq
      obtain rfl := Option.some.inj heq
      exact ⟨Or.inl rfl, hkeyself.trans hk.symm⟩
    · intro ⟨hg, hkey⟩
      rcases hg with rfl | hg
      · rfl
      · rw [hkeyne g hg, hk] at hkey
        have hmapped := (h.mapped (makePageKey hash pid) g).mpr ⟨hg, hkey⟩
        exact absurd (hmiss.symm.trans hmapped) (by simp)
  · rw [if_neg hk, h.mapped]
    constructor
    · intro ⟨hg, hkey⟩
      exact ⟨Or.inr hg, (hkeyne g hg).trans hkey⟩
    · intro ⟨hg, hkey⟩
      rcases hg with rfl | hg
      · exact absurd (hkey.symm.trans hkeyself) hk
      · exact ⟨hg, (hkeyne g hg).symm.trans hkey⟩

/-- The held frame is filled, registered under a new key and put at the head. -/
theorem loadFrame_inv {s : Storage} {lru : List (Addr × ℕ)} {f : ℕ} {path : FilePath}
    {hash pid : ℤ} (h : Inv s.pool [f] lru) (hmiss : Misses hash pid s) :
    Inv (loadFrame path hash pid f s).pool [] ((s.pool.lruList.fresh, f) :: lru) := by
  have hf : f ∉ lru.map Prod.snd := h.held_notMem (by simp)
  have hne : ∀ g ∈ lru.map Prod.snd, g ≠ f := fun g hg heq => hf (heq ▸ hg)
  have hfresh : ∀ g, (s.pool.lruList.fresh, g) ∉ lru := by
    intro g hmem
    have hlt := h.spine.allocated _ hmem
    exact absurd hlt (Nat.lt_irrefl _)
  exact {
    spine := pushFront_spine h.spine f
    partition := by
      refine List.Perm.trans ?_ h.partition
      rw [List.append_nil, List.map_cons, List.append_assoc]
      exact List.Perm.refl _
    nodes := by
      intro g a
      change Function.update s.pool.lruNodes f (some s.pool.lruList.fresh) g = some a ↔ _
      by_cases hg : g = f
      · subst g
        have hnot : (a, f) ∉ lru := fun hmem => hf (List.mem_map_of_mem hmem)
        simp [hnot, eq_comm]
      · rw [Function.update_of_ne hg, h.nodes]
        simp [hg]
    placed := wellPlaced_put h.placed _ _
    mapped := mapped_loadFrame path h hmiss
    loaded := by
      intro g hg
      rcases List.mem_cons.mp hg with rfl | hg
      · have hpage : (loadFrame path hash pid g s).pool.pages g =
            if (DiskManager.pageCount path s.disk : ℤ) > pid then
              (DiskManager.readPage path pid (Page.init pid) s.disk).2
            else Page.init pid := by
          simp [loadFrame]
        have hinfo : ((loadFrame path hash pid g s).pool.frameInfos g).pageId = pid := by
          simp [loadFrame]
        rw [hpage, hinfo]
        split
        · exact DiskManager.readPage_meta path pid s.disk
        · exact ⟨rfl, rfl⟩
      · have hold := h.loaded g hg
        simpa [loadFrame, hne g hg] using hold
    unused := by
      intro g hg
      have hg' : g ≠ f ∧ g ∉ lru.map Prod.snd := by simpa using hg
      have hold := h.unused g hg'.2
      simpa [loadFrame, hg'.1] using hold }

end NanoDB.PoolInvariant
