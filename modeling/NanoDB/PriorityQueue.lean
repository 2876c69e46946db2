import Mathlib.Data.List.Perm.Basic
import NanoDB.CTypes
import NanoDB.Library.HeapOrder

/-!
The priority queue (common/PriorityQueue.h). The live part `heap_[0..size_)` of the
array is a list, so `size_` is its length; that it fits into the allocated array is a
field. Each sift loop gets as much fuel as it can take steps.
-/
namespace NanoDB

open CTypes HeapOrder

structure PQEntry (T : Type) where
  priority : Int32
  data : T
deriving DecidableEq

variable {T : Type}

namespace PriorityQueue

/-- The priority at a position that the loops have checked to be in range. -/
def priorityAt (heap : List (PQEntry T)) (i : ℕ) : Int32 :=
  (heap[i]?.map PQEntry.priority).getD 0

def Ordered (heap : List (PQEntry T)) : Prop := IsHeap (priorityAt heap) heap.length

def swap (heap : List (PQEntry T)) (a b : ℕ) : List (PQEntry T) :=
  match heap[a]?, heap[b]? with
  | some x, some y => (heap.set a y).set b x
  | _, _ => heap

def siftUpLoop : ℕ → List (PQEntry T) → ℕ → List (PQEntry T)
  | 0, heap, _ => heap
  | fuel + 1, heap, i =>
    if i > 0 then
      let parent := (i - 1) / 2
      if priorityAt heap parent ≤ priorityAt heap i then heap
      else siftUpLoop fuel (swap heap parent i) parent
    else heap

def siftUp (heap : List (PQEntry T)) (i : ℕ) : List (PQEntry T) := siftUpLoop i heap i

def smallestAt (heap : List (PQEntry T)) (i : ℕ) : ℕ :=
  let left := 2 * i + 1
  let right := 2 * i + 2
  let smallest :=
    if left < heap.length ∧ priorityAt heap left < priorityAt heap i then left else i
  if right < heap.length ∧ priorityAt heap right < priorityAt heap smallest then right
  else smallest

def siftDownLoop : ℕ → List (PQEntry T) → ℕ → List (PQEntry T)
  | 0, heap, _ => heap
  | fuel + 1, heap, i =>
    if smallestAt heap i = i then heap
    else siftDownLoop fuel (swap heap i (smallestAt heap i)) (smallestAt heap i)

def siftDown (heap : List (PQEntry T)) (i : ℕ) : List (PQEntry T) :=
  siftDownLoop heap.length heap i

/-- `heap_[0] = heap_[--size_]` and the sift that repairs the order. -/
def removeRoot (heap : List (PQEntry T)) : List (PQEntry T) :=
  match heap.getLast? with
  | none => []
  | some last => siftDown (heap.set 0 last).dropLast 0

section Swap
variable {heap : List (PQEntry T)} {a b : ℕ}

theorem swap_eq (ha : a < heap.length) (hb : b < heap.length) :
    swap heap a b = (heap.set a heap[b]).set b heap[a] := by
  simp [swap, ha, hb]

theorem swap_perm (ha : a < heap.length) (hb : b < heap.length) : (swap heap a b).Perm heap := by
  rw [swap_eq ha hb]
  exact List.set_set_perm ha hb

theorem priorityAt_swap (ha : a < heap.length) (hb : b < heap.length) :
    priorityAt (swap heap a b) = priorityAt heap ∘ Equiv.swap a b := by
  funext i
  rw [swap_eq ha hb, Function.comp_apply]
  unfold priorityAt
  congr 2
  by_cases hib : i = b
  · subst i
    rw [Equiv.swap_apply_right, List.getElem?_set_self (by simpa using hb)]
    simp [ha]
  · rw [List.getElem?_set_ne (Ne.symm hib)]
    by_cases hia : i = a
    · subst i
      rw [Equiv.swap_apply_left, List.getElem?_set_self ha]
      simp [hb]
    · rw [List.getElem?_set_ne (Ne.symm hia), Equiv.swap_apply_of_ne_of_ne hia hib]

end Swap

/-- With a defect at `i` the loop ends in a heap of the same entries. -/
theorem siftUpLoop_spec (fuel : ℕ) (heap : List (PQEntry T)) (i : ℕ) (hfuel : i ≤ fuel)
    (hi : i < heap.length) (h : UpHeap (priorityAt heap) heap.length i) :
    Ordered (siftUpLoop fuel heap i) ∧ (siftUpLoop fuel heap i).Perm heap := by
  induction fuel generalizing heap i with
  | zero =>
    obtain rfl := Nat.le_zero.mp hfuel
    exact ⟨h.stop fun hpos => absurd hpos (lt_irrefl 0), List.Perm.refl _⟩
  | succ fuel ih =>
    rw [siftUpLoop]
    split
    · rename_i hpos
      dsimp only
      split
      · rename_i hle
        exact ⟨h.stop fun _ => hle, List.Perm.refl _⟩
      · rename_i hlt
        have hparent := parent_lt hpos
        have hperm := swap_perm (hparent.trans hi) hi
        have hup := h.swap hpos hi (not_le.mp hlt)
        rw [← priorityAt_swap (hparent.trans hi) hi, ← hperm.length_eq] at hup
        obtain ⟨hheap, hsame⟩ := ih (swap heap (parent i) i) (parent i) (by omega)
          (by rw [hperm.length_eq]; exact hparent.trans hi) hup
        exact ⟨hheap, hsame.trans hperm⟩
    · rename_i hzero
      exact ⟨h.stop fun hpos => absurd hpos hzero, List.Perm.refl _⟩

/-- Either no child has a smaller priority or the smallest child is found. -/
theorem smallestAt_spec (heap : List (PQEntry T)) (i : ℕ) :
    (smallestAt heap i = i ∧
        ∀ j, 0 < j → j < heap.length → parent j = i → priorityAt heap i ≤ priorityAt heap j) ∨
      (0 < smallestAt heap i ∧ smallestAt heap i < heap.length ∧
        parent (smallestAt heap i) = i ∧
        priorityAt heap (smallestAt heap i) < priorityAt heap i ∧
        ∀ j, 0 < j → j < heap.length → parent j = i →
          priorityAt heap (smallestAt heap i) ≤ priorityAt heap j) := by
  have hleft : parent (2 * i + 1) = i := (parent_eq_iff (by omega)).mpr (Or.inl rfl)
  have hright : parent (2 * i + 2) = i := (parent_eq_iff (by omega)).mpr (Or.inr rfl)
  by_cases hl : 2 * i + 1 < heap.length ∧ priorityAt heap (2 * i + 1) < priorityAt heap i
  · by_cases hr : 2 * i + 2 < heap.length ∧
        priorityAt heap (2 * i + 2) < priorityAt heap (2 * i + 1)
    · have hfound : smallestAt heap i = 2 * i + 2 := by
        rw [smallestAt, if_pos hl, if_pos hr]
      rw [hfound]
      refine Or.inr ⟨by omega, hr.1, hright, hr.2.trans hl.2, ?_⟩
      intro j hj hn hpar
      rcases (parent_eq_iff hj).mp hpar with rfl | rfl
      · exact hr.2.le
      · exact le_refl _
    · have hfound : smallestAt heap i = 2 * i + 1 := by
        rw [smallestAt, if_pos hl, if_neg hr]
      rw [hfound]
      refine Or.inr ⟨by omega, hl.1, hleft, hl.2, ?_⟩
      intro j hj hn hpar
      rcases (parent_eq_iff hj).mp hpar with rfl | rfl
      · exact le_refl _
      · exact not_lt.mp fun hlt => hr ⟨hn, hlt⟩
  · by_cases hr : 2 * i + 2 < heap.length ∧ priorityAt heap (2 * i + 2) < priorityAt heap i
    · have hfound : smallestAt heap i = 2 * i + 2 := by
        rw [smallestAt, if_neg hl, if_pos hr]
      rw [hfound]
      refine Or.inr ⟨by omega, hr.1, hright, hr.2, ?_⟩
      intro j hj hn hpar
      rcases (parent_eq_iff hj).mp hpar with rfl | rfl
      · exact hr.2.le.trans (not_lt.mp fun hlt => hl ⟨hn, hlt⟩)
      · exact le_refl _
    · have hfound : smallestAt heap i = i := by
        rw [smallestAt, if_neg hl, if_neg hr]
      refine Or.inl ⟨hfound, ?_⟩
      intro j hj hn hpar
      rcases (parent_eq_iff hj).mp hpar with rfl | rfl
      · exact not_lt.mp fun hlt => hl ⟨hn, hlt⟩
      · exact not_lt.mp fun hlt => hr ⟨hn, hlt⟩

theorem siftDownLoop_spec (fuel : ℕ) (heap : List (PQEntry T)) (i : ℕ)
    (hfuel : heap.length ≤ fuel + i) (h : DownHeap (priorityAt heap) heap.length i) :
    Ordered (siftDownLoop fuel heap i) ∧ (siftDownLoop fuel heap i).Perm heap := by
  induction fuel generalizing heap i with
  | zero =>
    refine ⟨h.stop ?_, List.Perm.refl _⟩
    intro j hj hn hpar
    have hlt := parent_lt hj
    omega
  | succ fuel ih =>
    rw [siftDownLoop]
    rcases smallestAt_spec heap i with ⟨hfound, hmin⟩ | ⟨hpos, hn, hpar, hlt, hmin⟩
    · rw [if_pos hfound]
      exact ⟨h.stop hmin, List.Perm.refl _⟩
    · have hchild := parent_lt hpos
      rw [hpar] at hchild
      rw [if_neg hchild.ne']
      have hperm := swap_perm (hchild.trans hn) hn
      have hdown := h.swap hpos hn hpar hlt hmin
      rw [← priorityAt_swap (hchild.trans hn) hn, ← hperm.length_eq] at hdown
      obtain ⟨hheap, hsame⟩ := ih (swap heap i (smallestAt heap i)) (smallestAt heap i)
        (by rw [hperm.length_eq]; omega) hdown
      exact ⟨hheap, hsame.trans hperm⟩

/-- A new last entry is the only possible defect for the sift up. -/
theorem siftUp_spec {heap : List (PQEntry T)} (h : Ordered heap) (e : PQEntry T) :
    Ordered (siftUp (heap ++ [e]) heap.length) ∧
      (siftUp (heap ++ [e]) heap.length).Perm (e :: heap) := by
  have hold : ∀ i, i < heap.length → priorityAt (heap ++ [e]) i = priorityAt heap i := by
    intro i hi
    rw [priorityAt, priorityAt, List.getElem?_append_left hi]
  have hup : UpHeap (priorityAt (heap ++ [e])) (heap ++ [e]).length heap.length := by
    rw [List.length_append, List.length_singleton]
    constructor
    · intro j hj hn hne
      have hlt := parent_lt hj
      rw [hold j (by omega), hold _ (by omega)]
      exact h j hj (by omega)
    · intro hpos j hj hn hpar
      have hlt := parent_lt hj
      omega
  obtain ⟨hheap, hperm⟩ := siftUpLoop_spec heap.length (heap ++ [e]) heap.length (le_refl _)
    (by simp) hup
  exact ⟨hheap, hperm.trans (List.perm_append_singleton e heap)⟩

theorem removeRoot_concat (root last : PQEntry T) (front : List (PQEntry T)) :
    removeRoot (root :: (front ++ [last])) = siftDown (last :: front) 0 := by
  have hlast : (root :: (front ++ [last])).getLast? = some last := by
    rw [← List.cons_append, List.getLast?_concat]
  have hdrop : (last :: (front ++ [last])).dropLast = last :: front := by
    rw [← List.cons_append, List.dropLast_concat]
  rw [removeRoot, hlast]
  exact congrArg (fun l => siftDown l 0) hdrop

/-- Without its root the heap is a heap of the other entries. -/
theorem removeRoot_spec {heap : List (PQEntry T)} (h : Ordered heap) :
    Ordered (removeRoot heap) ∧ (removeRoot heap).Perm heap.tail := by
  cases heap with
  | nil => exact ⟨fun i hi hn => absurd hn (Nat.not_lt_zero i), List.Perm.refl _⟩
  | cons root rest =>
    rcases List.eq_nil_or_concat rest with rfl | ⟨front, last, hrest⟩
    · exact ⟨fun i hi hn => absurd hn (Nat.not_lt_zero i), List.Perm.refl _⟩
    · rw [List.concat_eq_append] at hrest
      subst hrest
      have hold : ∀ i, 0 < i → i < front.length + 1 →
          priorityAt (last :: front) i = priorityAt (root :: (front ++ [last])) i := by
        intro i hi hn
        obtain ⟨j, rfl⟩ := Nat.exists_eq_succ_of_ne_zero hi.ne'
        rw [priorityAt, priorityAt, List.getElem?_cons_succ, List.getElem?_cons_succ,
          List.getElem?_append_left (by omega)]
      have hdown : DownHeap (priorityAt (last :: front)) (last :: front).length 0 := by
        rw [List.length_cons]
        constructor
        · intro j hj hn hpar
          have hlt := parent_lt hj
          rw [hold j hj hn, hold _ (Nat.pos_of_ne_zero hpar) (by omega)]
          exact h j hj (by rw [List.length_cons, List.length_append]; omega)
        · intro hpos
          exact absurd hpos (lt_irrefl 0)
      obtain ⟨hheap, hperm⟩ := siftDownLoop_spec (last :: front).length (last :: front) 0
        (Nat.le_refl _) hdown
      rw [removeRoot_concat]
      exact ⟨hheap, hperm.trans (List.perm_append_singleton last front).symm⟩

end PriorityQueue

/-- `capacity` is the length of the allocated array. -/
structure PriorityQueue (T : Type) where
  heap : List (PQEntry T)
  capacity : ℕ
  capacity_pos : 0 < capacity
  fits : heap.length ≤ capacity
  ordered : PriorityQueue.Ordered heap

namespace PriorityQueue

def new (capacity : ℕ) (h : 0 < capacity) : PriorityQueue T where
  heap := []
  capacity := capacity
  capacity_pos := h
  fits := Nat.zero_le capacity
  ordered i _ hn := absurd hn (Nat.not_lt_zero i)

def isEmpty (q : PriorityQueue T) : Bool := q.heap.length = 0

def resize (q : PriorityQueue T) : PriorityQueue T where
  heap := q.heap
  capacity := q.capacity * 2
  capacity_pos := Nat.mul_pos q.capacity_pos (by decide)
  fits := q.fits.trans (Nat.le_mul_of_pos_right _ (by decide))
  ordered := q.ordered

/-- A full array is resized before the new entry is written behind the last one. -/
def reserve (q : PriorityQueue T) : PriorityQueue T :=
  if q.heap.length ≥ q.capacity then q.resize else q

theorem reserve_heap (q : PriorityQueue T) : q.reserve.heap = q.heap := by
  unfold reserve
  split <;> rfl

theorem reserve_room (q : PriorityQueue T) : q.reserve.heap.length < q.reserve.capacity := by
  have hfits := q.fits
  have hpos := q.capacity_pos
  unfold reserve
  split
  · change q.heap.length < q.capacity * 2
    omega
  · omega

def enqueue (q : PriorityQueue T) (val : T) (priority : Int32) : PriorityQueue T where
  heap := siftUp (q.reserve.heap ++ [⟨priority, val⟩]) q.reserve.heap.length
  capacity := q.reserve.capacity
  capacity_pos := q.reserve.capacity_pos
  fits := by
    have hroom := q.reserve_room
    rw [(siftUp_spec q.reserve.ordered _).2.length_eq, List.length_cons]
    exact hroom
  ordered := (siftUp_spec q.reserve.ordered _).1

def dropRoot (q : PriorityQueue T) : PriorityQueue T where
  heap := removeRoot q.heap
  capacity := q.capacity
  capacity_pos := q.capacity_pos
  fits := by
    rw [(removeRoot_spec q.ordered).2.length_eq, List.length_tail]
    exact (Nat.sub_le _ _).trans q.fits
  ordered := (removeRoot_spec q.ordered).1

/-- The error is the text of the exception. -/
def dequeueRoot (q : PriorityQueue T) : Option (PQEntry T) → Except String T × PriorityQueue T
  | none => (.error "PriorityQueue underflow", q)
  | some root => (.ok root.data, q.dropRoot)

def dequeue (q : PriorityQueue T) : Except String T × PriorityQueue T :=
  dequeueRoot q q.heap.head?

def peek (q : PriorityQueue T) : Except String T :=
  match q.heap.head? with
  | none => .error "PriorityQueue empty"
  | some root => .ok root.data

theorem enqueue_perm (q : PriorityQueue T) (val : T) (priority : Int32) :
    (q.enqueue val priority).heap.Perm (⟨priority, val⟩ :: q.heap) := by
  have hperm := (siftUp_spec q.reserve.ordered (⟨priority, val⟩ : PQEntry T)).2
  rw [reserve_heap] at hperm
  change (siftUp (q.reserve.heap ++ _) q.reserve.heap.length).Perm _
  rwa [reserve_heap]

theorem dequeue_of_empty (q : PriorityQueue T) (h : q.heap = []) :
    q.dequeue = (.error "PriorityQueue underflow", q) := by
  rw [dequeue, h]
  rfl

/-- A dequeue takes out one entry of smallest priority, the one `peek` shows. -/
theorem dequeue_spec (q : PriorityQueue T) (h : q.heap ≠ []) :
    ∃ e ∈ q.heap, (∀ e' ∈ q.heap, e.priority ≤ e'.priority) ∧ q.dequeue.1 = .ok e.data ∧
      q.heap.Perm (e :: q.dequeue.2.heap) ∧ q.peek = q.dequeue.1 := by
  obtain ⟨root, rest, hheap⟩ := List.exists_cons_of_ne_nil h
  have hdequeue : q.dequeue = (.ok root.data, q.dropRoot) := by rw [dequeue, hheap]; rfl
  refine ⟨root, by rw [hheap]; exact List.mem_cons_self, ?_, by rw [hdequeue], ?_, ?_⟩
  · intro e' he'
    obtain ⟨i, hi, heq⟩ := List.mem_iff_getElem.mp he'
    have hroot := q.ordered.root_le i hi
    rw [priorityAt, priorityAt, List.getElem?_eq_getElem hi, heq, hheap] at hroot
    exact hroot
  · have hperm := (removeRoot_spec q.ordered).2
    rw [hheap, List.tail_cons] at hperm
    rw [hdequeue, hheap]
    change List.Perm _ (root :: removeRoot q.heap)
    rw [hheap]
    exact hperm.symm.cons root
  · rw [hdequeue, peek, hheap]
    rfl

end PriorityQueue

end NanoDB
