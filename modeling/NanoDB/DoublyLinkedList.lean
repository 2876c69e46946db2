import Mathlib.Data.Int.Notation
import Mathlib.Data.List.Induction
import Mathlib.Data.List.Nodup
import Mathlib.Logic.Function.Basic

/-!
The pointer list of common/DoublyLinkedList.h over an explicit node heap. A
node is an address, `new` takes a fresh one and `delete` clears it. `Spine`
describes the list by the addresses and data met from head to tail; every
operation is proved to turn one spine into another.
-/
namespace NanoDB

abbrev Addr := ℕ

structure DLLNode (T : Type) where
  data : T
  prev : Option Addr
  next : Option Addr

structure DoublyLinkedList (T : Type) where
  heap : Addr → Option (DLLNode T)
  fresh : Addr
  head : Option Addr
  tail : Option Addr
  size : ℤ

variable {T : Type}

namespace DoublyLinkedList

def new : DoublyLinkedList T := ⟨fun _ => none, 0, none, none, 0⟩

/-- A write through a node pointer; a null or dangling pointer writes nothing. -/
def modifyNode (l : DoublyLinkedList T) (p : Option Addr) (f : DLLNode T → DLLNode T) :
    DoublyLinkedList T :=
  match p with
  | none => l
  | some a => { l with heap := Function.update l.heap a ((l.heap a).map f) }

def pushFront (l : DoublyLinkedList T) (val : T) : Addr × DoublyLinkedList T :=
  let node := l.fresh
  let l1 := { l with
    heap := Function.update l.heap node (some ⟨val, none, l.head⟩), fresh := node + 1 }
  let l2 := l1.modifyNode l.head fun n => { n with prev := some node }
  (node, { l2 with
    head := some node
    tail := if l2.tail = none then some node else l2.tail
    size := l2.size + 1 })

def unlink (l : DoublyLinkedList T) (node : Addr) : DoublyLinkedList T :=
  match l.heap node with
  | none => l
  | some n =>
    let l1 := if n.prev = none then { l with head := n.next }
      else l.modifyNode n.prev fun m => { m with next := n.next }
    let l2 := if n.next = none then { l1 with tail := n.prev }
      else l1.modifyNode n.next fun m => { m with prev := n.prev }
    let l3 := l2.modifyNode (some node) fun m => { m with prev := none, next := none }
    { l3 with size := l3.size - 1 }

def delete (l : DoublyLinkedList T) (node : Addr) : DoublyLinkedList T :=
  { l with heap := Function.update l.heap node none }

def moveToFront (l : DoublyLinkedList T) (node : Addr) : DoublyLinkedList T :=
  if l.head = some node then l
  else
    let l1 := l.unlink node
    let l2 := l1.modifyNode (some node) fun n => { n with prev := none, next := l1.head }
    let l3 := l2.modifyNode l2.head fun n => { n with prev := some node }
    { l3 with
      head := some node
      tail := if l3.tail = none then some node else l3.tail }

/-- `popTail` of an empty list returns the default value and changes nothing. -/
def popTail [Inhabited T] (l : DoublyLinkedList T) : T × DoublyLinkedList T :=
  match l.tail with
  | none => (default, l)
  | some node =>
    match l.heap node with
    | none => (default, l)
    | some n => (n.data, (l.unlink node).delete node)

def remove (l : DoublyLinkedList T) (node : Addr) : DoublyLinkedList T :=
  (l.unlink node).delete node

def firstAddr (es : List (Addr × T)) (next : Option Addr) : Option Addr :=
  match es with
  | [] => next
  | e :: _ => some e.1

def lastAddr (prev : Option Addr) (es : List (Addr × T)) : Option Addr :=
  match es with
  | [] => prev
  | e :: rest => lastAddr (some e.1) rest

def Segment (heap : Addr → Option (DLLNode T)) (prev : Option Addr)
    (es : List (Addr × T)) (next : Option Addr) : Prop :=
  match es with
  | [] => True
  | e :: rest =>
    heap e.1 = some ⟨e.2, prev, firstAddr rest next⟩ ∧ Segment heap (some e.1) rest next

structure Spine (l : DoublyLinkedList T) (es : List (Addr × T)) : Prop where
  head_eq : l.head = firstAddr es none
  tail_eq : l.tail = lastAddr none es
  linked : Segment l.heap none es none
  nodup : (es.map Prod.fst).Nodup
  allocated : ∀ e ∈ es, e.1 < l.fresh

theorem firstAddr_append (xs ys : List (Addr × T)) (next : Option Addr) :
    firstAddr (xs ++ ys) next = firstAddr xs (firstAddr ys next) := by
  cases xs <;> rfl

theorem lastAddr_append (xs ys : List (Addr × T)) (prev : Option Addr) :
    lastAddr prev (xs ++ ys) = lastAddr (lastAddr prev xs) ys := by
  induction xs generalizing prev with
  | nil => rfl
  | cons e rest ih => exact ih (some e.1)

theorem segment_append (heap : Addr → Option (DLLNode T)) (prev : Option Addr)
    (xs ys : List (Addr × T)) (next : Option Addr) :
    Segment heap prev (xs ++ ys) next ↔
      Segment heap prev xs (firstAddr ys next) ∧ Segment heap (lastAddr prev xs) ys next := by
  induction xs generalizing prev with
  | nil => simp [Segment, lastAddr]
  | cons e rest ih =>
    simp only [List.cons_append, Segment, lastAddr, ih (some e.1), firstAddr_append, and_assoc]

/-- A segment only depends on the heap at its own addresses. -/
theorem Segment.congr {heap heap' : Addr → Option (DLLNode T)} {prev : Option Addr}
    {es : List (Addr × T)} {next : Option Addr} (h : Segment heap prev es next)
    (heq : ∀ e ∈ es, heap' e.1 = heap e.1) : Segment heap' prev es next := by
  induction es generalizing prev with
  | nil => trivial
  | cons e rest ih =>
    refine ⟨?_, ih h.2 (fun d hd => heq d (List.mem_cons_of_mem e hd))⟩
    rw [heq e List.mem_cons_self]
    exact h.1

theorem Segment.heap_eq {heap : Addr → Option (DLLNode T)} {prev : Option Addr}
    {xs ys : List (Addr × T)} {e : Addr × T} {next : Option Addr}
    (h : Segment heap prev (xs ++ e :: ys) next) :
    heap e.1 = some ⟨e.2, lastAddr prev xs, firstAddr ys next⟩ :=
  ((segment_append heap prev xs (e :: ys) next).mp h).2.1

theorem lastAddr_concat (xs : List (Addr × T)) (e : Addr × T) (prev : Option Addr) :
    lastAddr prev (xs ++ [e]) = some e.1 := by
  rw [lastAddr_append]
  rfl

theorem lastAddr_eq_none_iff (es : List (Addr × T)) : lastAddr none es = none ↔ es = [] := by
  induction es using List.reverseRecOn with
  | nil => simp [lastAddr]
  | append_singleton xs e _ => simp [lastAddr_concat]

/-- Redirecting the `next` pointer of a segment's last node. -/
theorem Segment.set_next {heap : Addr → Option (DLLNode T)} {prev : Option Addr}
    {xs : List (Addr × T)} {e : Addr × T} {next : Option Addr}
    (h : Segment heap prev (xs ++ [e]) next) (hnodup : ((xs ++ [e]).map Prod.fst).Nodup)
    (next' : Option Addr) :
    Segment (Function.update heap e.1 ((heap e.1).map fun m => { m with next := next' }))
      prev (xs ++ [e]) next' := by
  rw [segment_append] at h ⊢
  have hnot : ∀ d ∈ xs, d.1 ≠ e.1 := by
    intro d hd heq
    simp only [List.map_append, List.map_cons, List.map_nil, List.nodup_append] at hnodup
    exact hnodup.2.2 d.1 (List.mem_map_of_mem hd) e.1 (by simp) heq
  refine ⟨h.1.congr fun d hd => Function.update_of_ne (hnot d hd) _ _, ?_, trivial⟩
  rw [Function.update_self, h.2.1]
  rfl

/-- Redirecting the `prev` pointer of a segment's first node. -/
theorem Segment.set_prev {heap : Addr → Option (DLLNode T)} {prev : Option Addr}
    {e : Addr × T} {ys : List (Addr × T)} {next : Option Addr}
    (h : Segment heap prev (e :: ys) next) (hnodup : ((e :: ys).map Prod.fst).Nodup)
    (prev' : Option Addr) :
    Segment (Function.update heap e.1 ((heap e.1).map fun m => { m with prev := prev' }))
      prev' (e :: ys) next := by
  have hnot : ∀ d ∈ ys, d.1 ≠ e.1 := by
    intro d hd heq
    simp only [List.map_cons, List.nodup_cons] at hnodup
    exact hnodup.1 (heq ▸ List.mem_map_of_mem hd)
  refine ⟨?_, h.2.congr fun d hd => Function.update_of_ne (hnot d hd) _ _⟩
  rw [Function.update_self, h.1]
  rfl

theorem spine_new : Spine (new : DoublyLinkedList T) [] :=
  ⟨rfl, rfl, trivial, List.nodup_nil, by simp⟩

theorem Spine.heap_eq {l : DoublyLinkedList T} {xs ys : List (Addr × T)} {e : Addr × T}
    (h : Spine l (xs ++ e :: ys)) :
    l.heap e.1 = some ⟨e.2, lastAddr none xs, firstAddr ys none⟩ :=
  h.linked.heap_eq

theorem Spine.tail_ne_none {l : DoublyLinkedList T} {es : List (Addr × T)} (h : Spine l es)
    (hne : es ≠ []) : l.tail ≠ none := by
  rw [h.tail_eq]
  exact fun hnone => hne ((lastAddr_eq_none_iff es).mp hnone)

theorem modifyNode_heap_of_ne (l : DoublyLinkedList T) (p : Option Addr)
    (f : DLLNode T → DLLNode T) (a : Addr) (h : p ≠ some a) :
    (l.modifyNode p f).heap a = l.heap a := by
  cases p with
  | none => rfl
  | some b =>
    have hne : a ≠ b := fun heq => h (congrArg some heq.symm)
    exact Function.update_of_ne hne _ _

theorem modifyNode_fresh (l : DoublyLinkedList T) (p : Option Addr)
    (f : DLLNode T → DLLNode T) : (l.modifyNode p f).fresh = l.fresh := by
  cases p <;> rfl

theorem modifyNode_head (l : DoublyLinkedList T) (p : Option Addr)
    (f : DLLNode T → DLLNode T) : (l.modifyNode p f).head = l.head := by
  cases p <;> rfl

theorem modifyNode_tail (l : DoublyLinkedList T) (p : Option Addr)
    (f : DLLNode T → DLLNode T) : (l.modifyNode p f).tail = l.tail := by
  cases p <;> rfl

theorem modifyNode_heap_self (l : DoublyLinkedList T) (a : Addr) (f : DLLNode T → DLLNode T) :
    (l.modifyNode (some a) f).heap a = (l.heap a).map f :=
  Function.update_self a _ _

/-- Linking a free-standing node `e` in front of the list: its own pointers are set
and the old head, if there is one, points back to it. -/
private theorem attach_segment {l l' : DoublyLinkedList T} {es : List (Addr × T)}
    {e : Addr × T} (h : Spine l es) (he : ∀ d ∈ es, d.1 ≠ e.1)
    (hnode : l'.heap e.1 = some ⟨e.2, none, l.head⟩)
    (hkeep : ∀ d ∈ es, l'.heap d.1 = l.heap d.1) :
    Segment (l'.modifyNode l.head fun n => { n with prev := some e.1 }).heap
      none (e :: es) none := by
  have hseg : Segment l'.heap none es none := h.linked.congr hkeep
  cases es with
  | nil =>
    have hhead : l.head = none := h.head_eq
    refine ⟨?_, trivial⟩
    rw [hhead] at hnode ⊢
    exact hnode
  | cons d rest =>
    have hhead : l.head = some d.1 := h.head_eq
    have hne : some d.1 ≠ some e.1 := fun heq => he d List.mem_cons_self (Option.some.inj heq)
    rw [hhead] at hnode ⊢
    refine ⟨?_, hseg.set_prev h.nodup (some e.1)⟩
    rw [modifyNode_heap_of_ne _ _ _ _ hne]
    exact hnode

theorem pushFront_spine {l : DoublyLinkedList T} {es : List (Addr × T)} (h : Spine l es)
    (val : T) : Spine (l.pushFront val).2 ((l.fresh, val) :: es) := by
  have hfresh : ∀ e ∈ es, e.1 ≠ l.fresh := fun e he => Nat.ne_of_lt (h.allocated e he)
  refine ⟨rfl, ?_, ?_, ?_, ?_⟩
  · simp only [pushFront, modifyNode_tail]
    cases es with
    | nil => simp [show l.tail = none from h.tail_eq, lastAddr]
    | cons e rest =>
      rw [if_neg (h.tail_ne_none (by simp))]
      exact h.tail_eq
  · simp only [pushFront]
    apply attach_segment (e := (l.fresh, val)) h hfresh
    · exact Function.update_self _ _ _
    · exact fun d hd => Function.update_of_ne (hfresh d hd) _ _
  · rw [List.map_cons, List.nodup_cons]
    refine ⟨?_, h.nodup⟩
    intro hmem
    obtain ⟨e, he, heq⟩ := List.mem_map.mp hmem
    exact hfresh e he heq
  · intro d hd
    simp only [pushFront, modifyNode_fresh]
    rcases List.mem_cons.mp hd with rfl | hd
    · exact Nat.lt_succ_self _
    · exact Nat.lt_succ_of_lt (h.allocated d hd)

theorem lastAddr_mem {es : List (Addr × T)} {a : Addr} (h : lastAddr none es = some a) :
    ∃ e ∈ es, e.1 = a := by
  cases es using List.reverseRecOn with
  | nil => simp [lastAddr] at h
  | append_singleton xs e =>
    rw [lastAddr_concat] at h
    exact ⟨e, by simp, Option.some.inj h⟩

theorem firstAddr_mem {es : List (Addr × T)} {a : Addr} (h : firstAddr es none = some a) :
    ∃ e ∈ es, e.1 = a := by
  cases es with
  | nil => simp [firstAddr] at h
  | cons e rest => exact ⟨e, List.mem_cons_self, Option.some.inj h⟩

/-- Joining the two parts around a node: the last `next` pointer before it and the
first `prev` pointer after it are redirected, every other node is kept. -/
private theorem relink_segment {heap heap' : Addr → Option (DLLNode T)}
    {xs ys : List (Addr × T)} {prev next : Option Addr}
    (hxs : Segment heap none xs next) (hys : Segment heap prev ys none)
    (hnodup : ((xs ++ ys).map Prod.fst).Nodup)
    (hprev : ∀ p, lastAddr none xs = some p →
      heap' p = (heap p).map fun m => { m with next := firstAddr ys none })
    (hnext : ∀ q, firstAddr ys none = some q →
      heap' q = (heap q).map fun m => { m with prev := lastAddr none xs })
    (hother : ∀ d ∈ xs ++ ys, lastAddr none xs ≠ some d.1 → firstAddr ys none ≠ some d.1 →
      heap' d.1 = heap d.1) :
    Segment heap' none (xs ++ ys) none := by
  have hsplit := hnodup
  rw [List.map_append, List.nodup_append] at hsplit
  obtain ⟨hnx, hny, hdisj⟩ := hsplit
  have hne : ∀ d ∈ xs, ∀ e ∈ ys, d.1 ≠ e.1 := fun d hd e he =>
    hdisj d.1 (List.mem_map_of_mem hd) e.1 (List.mem_map_of_mem he)
  have hfirst : ∀ d ∈ xs, firstAddr ys none ≠ some d.1 := by
    intro d hd heq
    obtain ⟨e, he, hea⟩ := firstAddr_mem heq
    exact hne d hd e he hea.symm
  have hlast : ∀ e ∈ ys, lastAddr none xs ≠ some e.1 := by
    intro e he heq
    obtain ⟨d, hd, hda⟩ := lastAddr_mem heq
    exact hne d hd e he hda
  rw [segment_append]
  constructor
  · cases xs using List.reverseRecOn with
    | nil => trivial
    | append_singleton xs b =>
      refine (hxs.set_next hnx (firstAddr ys none)).congr ?_
      intro d hd
      by_cases hdb : d.1 = b.1
      · rw [hdb, Function.update_self]
        exact hprev b.1 (lastAddr_concat xs b none)
      · rw [Function.update_of_ne hdb]
        apply hother d (List.mem_append_left ys hd) _ (hfirst d hd)
        rw [lastAddr_concat]
        exact fun heq => hdb (Option.some.inj heq).symm
  · cases ys with
    | nil => trivial
    | cons c ys =>
      refine (hys.set_prev hny (lastAddr none xs)).congr ?_
      intro d hd
      by_cases hdc : d.1 = c.1
      · rw [hdc, Function.update_self]
        exact hnext c.1 rfl
      · rw [Function.update_of_ne hdc]
        exact hother d (List.mem_append_right xs hd) (hlast d hd)
          (fun heq => hdc (Option.some.inj heq).symm)

/-- The fields of the list after `unlink`, with the two neighbour writes in a row. -/
private theorem unlink_fields {l : DoublyLinkedList T} {a : Addr} {n : DLLNode T}
    (h : l.heap a = some n) :
    (l.unlink a).head = (if n.prev = none then n.next else l.head) ∧
    (l.unlink a).tail = (if n.next = none then n.prev else l.tail) ∧
    (l.unlink a).fresh = l.fresh ∧ (l.unlink a).size = l.size - 1 ∧
    (l.unlink a).heap = (((l.modifyNode n.prev fun m => { m with next := n.next }).modifyNode
      n.next fun m => { m with prev := n.prev }).modifyNode
      (some a) fun m => { m with prev := none, next := none }).heap := by
  obtain ⟨data, prev, next⟩ := n
  cases prev <;> cases next <;> simp [unlink, h, modifyNode]

/-- What `unlink` leaves: the other nodes linked, the node itself free-standing. -/
theorem unlink_spine {l : DoublyLinkedList T} {xs ys : List (Addr × T)} {e : Addr × T}
    (h : Spine l (xs ++ e :: ys)) :
    Spine (l.unlink e.1) (xs ++ ys) ∧ (l.unlink e.1).heap e.1 = some ⟨e.2, none, none⟩ ∧
      (l.unlink e.1).fresh = l.fresh := by
  have hheap := h.heap_eq
  have hnodup := h.nodup
  rw [List.map_append, List.map_cons, List.nodup_middle, List.nodup_cons,
    ← List.map_append] at hnodup
  obtain ⟨hnotmem, hnodup⟩ := hnodup
  have hne : ∀ d ∈ xs ++ ys, d.1 ≠ e.1 := fun d hd heq =>
    hnotmem (heq ▸ List.mem_map_of_mem hd)
  have hprevne : lastAddr none xs ≠ some e.1 := by
    intro heq
    obtain ⟨d, hd, hda⟩ := lastAddr_mem heq
    exact hne d (List.mem_append_left ys hd) hda
  have hnextne : firstAddr ys none ≠ some e.1 := by
    intro heq
    obtain ⟨d, hd, hda⟩ := firstAddr_mem heq
    exact hne d (List.mem_append_right xs hd) hda
  have hcross : ∀ p, lastAddr none xs = some p → firstAddr ys none ≠ some p := by
    intro p hp hq
    obtain ⟨d, hd, hda⟩ := lastAddr_mem hp
    obtain ⟨c, hc, hca⟩ := firstAddr_mem hq
    rw [List.map_append, List.nodup_append] at hnodup
    exact hnodup.2.2 d.1 (List.mem_map_of_mem hd) c.1 (List.mem_map_of_mem hc)
      (hda.trans hca.symm)
  obtain ⟨hhead, htail, hfresh, -, hheap'⟩ := unlink_fields hheap
  have hseg := (segment_append l.heap none xs (e :: ys) none).mp h.linked
  have hold : ∀ a, a ≠ e.1 → (l.unlink e.1).heap a =
      ((l.modifyNode (lastAddr none xs) fun m => { m with next := firstAddr ys none }).modifyNode
        (firstAddr ys none) fun m => { m with prev := lastAddr none xs }).heap a := by
    intro a ha
    rw [hheap']
    exact modifyNode_heap_of_ne _ _ _ _ (fun heq => ha (Option.some.inj heq).symm)
  refine ⟨⟨?_, ?_, ?_, hnodup, ?_⟩, ?_, hfresh⟩
  · rw [hhead, h.head_eq]
    cases xs using List.reverseRecOn with
    | nil => rfl
    | append_singleton xs b =>
      rw [if_neg (by simp [lastAddr_concat]), firstAddr_append, firstAddr_append]
      cases xs <;> rfl
  · rw [htail, h.tail_eq]
    cases ys with
    | nil => simp [firstAddr]
    | cons c ys => simp [firstAddr, lastAddr_append, lastAddr]
  · apply relink_segment hseg.1 hseg.2.2 hnodup
    · intro p hp
      have hpe : p ≠ e.1 := fun heq => hprevne (heq ▸ hp)
      rw [hold p hpe, modifyNode_heap_of_ne _ _ _ _ (hcross p hp), hp, modifyNode_heap_self]
    · intro q hq
      have hqe : q ≠ e.1 := fun heq => hnextne (heq ▸ hq)
      have hpq : lastAddr none xs ≠ some q := fun hp => hcross q hp hq
      rw [hold q hqe, hq, modifyNode_heap_self, modifyNode_heap_of_ne _ _ _ _ hpq]
    · intro d hd hp hq
      rw [hold d.1 (hne d hd), modifyNode_heap_of_ne _ _ _ _ hq, modifyNode_heap_of_ne _ _ _ _ hp]
  · intro d hd
    rw [hfresh]
    apply h.allocated d
    rcases List.mem_append.mp hd with hd | hd
    · exact List.mem_append_left _ hd
    · exact List.mem_append_right _ (List.mem_cons_of_mem e hd)
  · rw [hheap', modifyNode_heap_self, modifyNode_heap_of_ne _ _ _ _ hnextne,
      modifyNode_heap_of_ne _ _ _ _ hprevne, hheap]
    rfl

theorem delete_spine {l : DoublyLinkedList T} {es : List (Addr × T)} (h : Spine l es)
    (a : Addr) (ha : ∀ e ∈ es, e.1 ≠ a) : Spine (l.delete a) es :=
  ⟨h.head_eq, h.tail_eq, h.linked.congr fun e he => Function.update_of_ne (ha e he) _ _,
    h.nodup, h.allocated⟩

private theorem notMem_middle {xs ys : List (Addr × T)} {e : Addr × T}
    (h : ((xs ++ e :: ys).map Prod.fst).Nodup) : ∀ d ∈ xs ++ ys, d.1 ≠ e.1 := by
  rw [List.map_append, List.map_cons, List.nodup_middle, List.nodup_cons,
    ← List.map_append] at h
  exact fun d hd heq => h.1 (heq ▸ List.mem_map_of_mem hd)

theorem remove_spine {l : DoublyLinkedList T} {xs ys : List (Addr × T)} {e : Addr × T}
    (h : Spine l (xs ++ e :: ys)) : Spine (l.remove e.1) (xs ++ ys) :=
  delete_spine (unlink_spine h).1 e.1 (notMem_middle h.nodup)

theorem popTail_spine [Inhabited T] {l : DoublyLinkedList T} {xs : List (Addr × T)}
    {e : Addr × T} (h : Spine l (xs ++ [e])) :
    l.popTail.1 = e.2 ∧ Spine l.popTail.2 xs := by
  have htail : l.tail = some e.1 := by rw [h.tail_eq, lastAddr_concat]
  have hpop : l.popTail = (e.2, l.remove e.1) := by
    unfold popTail
    rw [htail]
    simp only [h.heap_eq, remove]
  rw [hpop]
  exact ⟨rfl, by simpa using remove_spine h⟩

theorem moveToFront_spine {l : DoublyLinkedList T} {xs ys : List (Addr × T)} {e : Addr × T}
    (h : Spine l (xs ++ e :: ys)) : Spine (l.moveToFront e.1) (e :: (xs ++ ys)) := by
  have hne := notMem_middle h.nodup
  by_cases hhead : l.head = some e.1
  · have hxs : xs = [] := by
      cases xs with
      | nil => rfl
      | cons d xs =>
        have heq : some d.1 = some e.1 := h.head_eq.symm.trans hhead
        exact absurd (Option.some.inj heq) (hne d (by simp))
    subst hxs
    rw [moveToFront, if_pos hhead]
    exact h
  · obtain ⟨hspine, hnode, hfresh⟩ := unlink_spine h
    unfold moveToFront
    rw [if_neg hhead]
    refine ⟨rfl, ?_, ?_, ?_, ?_⟩
    · simp only [modifyNode_tail]
      cases hes : xs ++ ys with
      | nil =>
        rw [hes] at hspine
        simp [show (l.unlink e.1).tail = none from hspine.tail_eq, lastAddr]
      | cons d rest =>
        rw [if_neg (hspine.tail_ne_none (by simp [hes])), hspine.tail_eq, hes]
        rfl
    · simp only [modifyNode_head]
      apply attach_segment hspine hne
      · rw [modifyNode_heap_self, hnode]
        rfl
      · intro d hd
        exact modifyNode_heap_of_ne _ _ _ _ (fun heq => hne d hd (Option.some.inj heq).symm)
    · rw [List.map_cons, List.nodup_cons]
      refine ⟨?_, hspine.nodup⟩
      intro hmem
      obtain ⟨d, hd, heq⟩ := List.mem_map.mp hmem
      exact hne d hd heq
    · intro d hd
      simp only [modifyNode_fresh, hfresh]
      apply h.allocated d
      rcases List.mem_cons.mp hd with rfl | hd
      · simp
      · rcases List.mem_append.mp hd with hd | hd
        · exact List.mem_append_left _ hd
        · exact List.mem_append_right _ (List.mem_cons_of_mem e hd)

end DoublyLinkedList

end NanoDB
