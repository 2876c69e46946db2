import NanoDB.DoublyLinkedList

/-!
Runs of the pointer list. Whatever the calls, the two chains of pointers visit the same
nodes in opposite orders. The counter is not part of it: `moveToFront` of a node behind the
head takes the node out through `unlink`, which counts it off, and never counts it in again.
-/
namespace NanoDB.ListRuns

open DoublyLinkedList

variable {T : Type}

inductive WalkNext (heap : Addr → Option (DLLNode T)) : Option Addr → List (Addr × T) → Prop
  | stop : WalkNext heap none []
  | node {a : Addr} {n : DLLNode T} {es : List (Addr × T)} (hnode : heap a = some n)
      (hnext : WalkNext heap n.next es) : WalkNext heap (some a) ((a, n.data) :: es)

inductive WalkPrev (heap : Addr → Option (DLLNode T)) : Option Addr → List (Addr × T) → Prop
  | stop : WalkPrev heap none []
  | node {a : Addr} {n : DLLNode T} {es : List (Addr × T)} (hnode : heap a = some n)
      (hprev : WalkPrev heap n.prev es) : WalkPrev heap (some a) ((a, n.data) :: es)

structure Linked (l : DoublyLinkedList T) (es : List (Addr × T)) : Prop where
  forward : WalkNext l.heap l.head es
  backward : WalkPrev l.heap l.tail es.reverse
  head_prev : ∀ a n, l.head = some a → l.heap a = some n → n.prev = none
  tail_next : ∀ a n, l.tail = some a → l.heap a = some n → n.next = none
  head_null : l.head = none ↔ es = []
  tail_null : l.tail = none ↔ es = []

def IsNode (l : DoublyLinkedList T) (a : Addr) : Prop :=
  ∃ es, WalkNext l.heap l.head es ∧ a ∈ es.map Prod.fst

inductive Op (T : Type)
  | pushFront (val : T)
  | moveToFront (node : Addr)
  | remove (node : Addr)
  | popTail

namespace Op

def Allowed (l : DoublyLinkedList T) : Op T → Prop
  | moveToFront a => IsNode l a
  | remove a => IsNode l a
  | _ => True

def lost (l : DoublyLinkedList T) : Op T → ℕ
  | moveToFront a => if l.head = some a then 0 else 1
  | _ => 0

end Op

def empty (l : DoublyLinkedList T) : Bool := l.size = 0

variable [Inhabited T]

def step (l : DoublyLinkedList T) : Op T → DoublyLinkedList T
  | .pushFront val => (l.pushFront val).2
  | .moveToFront a => l.moveToFront a
  | .remove a => l.remove a
  | .popTail => l.popTail.2

def run (l : DoublyLinkedList T) (ops : List (Op T)) : DoublyLinkedList T := ops.foldl step l

def AllowedRun : DoublyLinkedList T → List (Op T) → Prop
  | _, [] => True
  | l, op :: ops => op.Allowed l ∧ AllowedRun (step l op) ops

/-- How many calls of the run move a node from behind the head. -/
def lost : DoublyLinkedList T → List (Op T) → ℕ
  | _, [] => 0
  | l, op :: ops => op.lost l + lost (step l op) ops

section Walk
variable {heap : Addr → Option (DLLNode T)}

omit [Inhabited T] in
theorem WalkNext.unique {p : Option Addr} {es es' : List (Addr × T)} (h : WalkNext heap p es)
    (h' : WalkNext heap p es') : es = es' := by
  induction h generalizing es' with
  | stop =>
    cases h'
    rfl
  | @node a n es hnode _ ih =>
    cases h' with
    | @node _ n' es' hnode' hnext' =>
      obtain rfl := Option.some.inj (hnode.symm.trans hnode')
      rw [ih hnext']

omit [Inhabited T] in
theorem walkNext_of_segment {prev : Option Addr} {es : List (Addr × T)}
    (h : Segment heap prev es none) : WalkNext heap (firstAddr es none) es := by
  induction es generalizing prev with
  | nil => exact .stop
  | cons e es ih => exact .node h.1 (ih h.2)

omit [Inhabited T] in
theorem walkPrev_of_segment {es : List (Addr × T)} {next : Option Addr}
    (h : Segment heap none es next) : WalkPrev heap (lastAddr none es) es.reverse := by
  induction es using List.reverseRecOn generalizing next with
  | nil => exact .stop
  | append_singleton es e ih =>
    rw [segment_append] at h
    rw [lastAddr_concat, List.reverse_append]
    exact .node h.2.1 (ih h.1)

end Walk

variable {l : DoublyLinkedList T} {es : List (Addr × T)}

omit [Inhabited T] in
theorem linked_of_spine (h : Spine l es) : Linked l es where
  forward := by
    rw [h.head_eq]
    exact walkNext_of_segment h.linked
  backward := by
    rw [h.tail_eq]
    exact walkPrev_of_segment h.linked
  head_prev a n ha hn := by
    obtain ⟨e, ys, rfl⟩ : ∃ e ys, es = e :: ys := by
      refine List.exists_cons_of_ne_nil ?_
      rintro rfl
      rw [h.head_eq] at ha
      contradiction
    obtain rfl : e.1 = a := Option.some.inj (h.head_eq.symm.trans ha)
    rw [h.linked.1] at hn
    rw [← Option.some.inj hn]
  tail_next a n ha hn := by
    induction es using List.reverseRecOn with
    | nil =>
      rw [h.tail_eq] at ha
      contradiction
    | append_singleton xs e _ =>
      rw [h.tail_eq, lastAddr_concat] at ha
      obtain rfl : e.1 = a := Option.some.inj ha
      rw [h.heap_eq] at hn
      rw [← Option.some.inj hn]
      rfl
  head_null := by
    rw [h.head_eq]
    cases es <;> simp [firstAddr]
  tail_null := by rw [h.tail_eq, lastAddr_eq_none_iff]

omit [Inhabited T] in
/-- A node of the list splits its spine. -/
theorem split_of_isNode (h : Spine l es) {a : Addr} (ha : IsNode l a) :
    ∃ xs e ys, es = xs ++ e :: ys ∧ e.1 = a := by
  obtain ⟨es', hwalk, hmem⟩ := ha
  rw [← (linked_of_spine h).forward.unique hwalk] at hmem
  obtain ⟨e, he, hea⟩ := List.mem_map.mp hmem
  obtain ⟨xs, ys, hsplit⟩ := List.append_of_mem he
  exact ⟨xs, e, ys, hsplit, hea⟩

section Size

omit [Inhabited T] in
theorem modifyNode_size (l : DoublyLinkedList T) (p : Option Addr) (f : DLLNode T → DLLNode T) :
    (l.modifyNode p f).size = l.size := by
  cases p <;> rfl

omit [Inhabited T] in
theorem pushFront_size (l : DoublyLinkedList T) (val : T) :
    (l.pushFront val).2.size = l.size + 1 := by
  simp only [pushFront, modifyNode_size]

omit [Inhabited T] in
theorem unlink_size {xs ys : List (Addr × T)} {e : Addr × T} (h : Spine l (xs ++ e :: ys)) :
    (l.unlink e.1).size = l.size - 1 := by
  unfold unlink
  rw [h.heap_eq]
  simp only [modifyNode_size]
  split <;> split <;> simp [modifyNode_size]

omit [Inhabited T] in
/-- The counter after `moveToFront`, which is one too low behind the head. -/
theorem moveToFront_size {xs ys : List (Addr × T)} {e : Addr × T}
    (h : Spine l (xs ++ e :: ys)) :
    (l.moveToFront e.1).size = l.size - if l.head = some e.1 then 0 else 1 := by
  unfold moveToFront
  by_cases hhead : l.head = some e.1
  · simp [hhead]
  · rw [if_neg hhead, if_neg hhead]
    simp only [modifyNode_size]
    exact unlink_size h

omit [Inhabited T] in
theorem remove_size {xs ys : List (Addr × T)} {e : Addr × T} (h : Spine l (xs ++ e :: ys)) :
    (l.remove e.1).size = l.size - 1 := unlink_size h

theorem popTail_eq_remove {xs : List (Addr × T)} {e : Addr × T} (h : Spine l (xs ++ [e])) :
    l.popTail.2 = l.remove e.1 := by
  have htail : l.tail = some e.1 := by rw [h.tail_eq, lastAddr_concat]
  unfold popTail
  rw [htail]
  simp only [h.heap_eq, remove]

end Size

/-- One call: the pointers stay in order and the counter misses one node more at most. -/
theorem step_spine (h : Spine l es) {k : ℕ} (hsize : l.size = es.length - k) {op : Op T}
    (hop : op.Allowed l) :
    ∃ es', Spine (step l op) es' ∧
      (step l op).size = es'.length - ((k + op.lost l : ℕ) : ℤ) := by
  cases op with
  | pushFront val =>
    refine ⟨_, pushFront_spine h val, ?_⟩
    have hpush := pushFront_size l val
    simp only [step, hpush, hsize, List.length_cons, Op.lost]
    omega
  | moveToFront a =>
    obtain ⟨xs, e, ys, rfl, rfl⟩ := split_of_isNode h hop
    refine ⟨_, moveToFront_spine h, ?_⟩
    have hmove := moveToFront_size h
    simp only [step, hmove, hsize, List.length_cons, List.length_append, Op.lost]
    split <;> omega
  | remove a =>
    obtain ⟨xs, e, ys, rfl, rfl⟩ := split_of_isNode h hop
    refine ⟨_, remove_spine h, ?_⟩
    have hremove := remove_size h
    simp only [step, hremove, hsize, List.length_cons, List.length_append, Op.lost]
    omega
  | popTail =>
    induction es using List.reverseRecOn with
    | nil =>
      have htail : l.tail = none := h.tail_eq
      have hpop : l.popTail.2 = l := by
        unfold popTail
        rw [htail]
      refine ⟨[], ?_, ?_⟩
      · rw [step, hpop]
        exact h
      · rw [step, hpop, hsize]
        simp [Op.lost]
    | append_singleton xs e _ =>
      refine ⟨xs, (popTail_spine h).2, ?_⟩
      have hremove := remove_size h
      simp only [step, popTail_eq_remove h, hremove, hsize, List.length_cons, List.length_append,
        List.length_nil, Op.lost]
      omega

/-- A whole run: the counter misses one node for each move from behind the head. -/
theorem run_spine (h : Spine l es) {k : ℕ} (hsize : l.size = es.length - k) {ops : List (Op T)}
    (hops : AllowedRun l ops) :
    ∃ es', Spine (run l ops) es' ∧ (run l ops).size = es'.length - ((k + lost l ops : ℕ) : ℤ) := by
  induction ops generalizing l es k with
  | nil => exact ⟨es, h, hsize⟩
  | cons op ops ih =>
    obtain ⟨es', hspine, hsize'⟩ := step_spine h hsize hops.1
    obtain ⟨es'', hspine', hsize''⟩ := ih hspine hsize' hops.2
    refine ⟨es'', hspine', ?_⟩
    rw [show run l (op :: ops) = run (step l op) ops from rfl, hsize'', lost, Nat.add_assoc]

/-- The invariant of the list: both chains, the counter, and a `moveToFront` that keeps the
nodes. -/
structure Invariant (l : DoublyLinkedList T) (es : List (Addr × T)) : Prop where
  linked : Linked l es
  moves : ∀ e ∈ es, ∃ es', Linked (l.moveToFront e.1) es' ∧ es'.Perm es
  size_eq : l.size = es.length
  empty_iff : empty l = true ↔ es = []

omit [Inhabited T] in
/-- Moving any node to the front permutes the nodes. -/
theorem moves_of_spine (h : Spine l es) {e : Addr × T} (he : e ∈ es) :
    ∃ es', Linked (l.moveToFront e.1) es' ∧ es'.Perm es := by
  obtain ⟨xs, ys, rfl⟩ := List.append_of_mem he
  exact ⟨_, linked_of_spine (moveToFront_spine h), List.perm_middle.symm⟩

/-- After any run on a new list the pointers are in order; the whole invariant holds exactly
when the run moved no node from behind the head. -/
theorem run_invariant_iff (ops : List (Op T)) (hops : AllowedRun DoublyLinkedList.new ops) :
    (∃ es, Invariant (run DoublyLinkedList.new ops) es) ↔ lost DoublyLinkedList.new ops = 0 := by
  obtain ⟨es, hspine, hsize⟩ := run_spine spine_new (k := 0) rfl hops
  have hlinked := linked_of_spine hspine
  constructor
  · rintro ⟨es', hinv⟩
    have hsame : es' = es := hinv.linked.forward.unique hlinked.forward
    have hcount := hinv.size_eq
    rw [hsame, hsize] at hcount
    omega
  · intro hlost
    rw [hlost] at hsize
    have hcount : (run DoublyLinkedList.new ops).size = es.length := by simpa using hsize
    refine ⟨es, hlinked, fun e he => moves_of_spine hspine he, hcount, ?_⟩
    unfold empty
    rw [hcount, decide_eq_true_eq]
    simp

/-- Three nodes: the head is moved to the front, the middle node is taken out, then the last. -/
theorem run_invariant_iff_threeNodes :
    (∃ es, Invariant (run (new : DoublyLinkedList ℤ)
        [.pushFront 5, .pushFront 6, .pushFront 7, .moveToFront 2, .remove 1, .popTail]) es) ∧
      (run (new : DoublyLinkedList ℤ)
        [.pushFront 5, .pushFront 6, .pushFront 7, .moveToFront 2, .remove 1, .popTail]).size =
          1 := by
  have hthree : Spine (((new : DoublyLinkedList ℤ).pushFront 5).2.pushFront 6 |>.2.pushFront 7).2
      ([] ++ (2, 7) :: [(1, 6), (0, 5)]) :=
    pushFront_spine (pushFront_spine (pushFront_spine spine_new 5) 6) 7
  have hmoved := moveToFront_spine hthree
  have hallowed : AllowedRun (new : DoublyLinkedList ℤ)
      [.pushFront 5, .pushFront 6, .pushFront 7, .moveToFront 2, .remove 1, .popTail] :=
    ⟨trivial, trivial, trivial, ⟨_, (linked_of_spine hthree).forward, by simp⟩,
      ⟨_, (linked_of_spine hmoved).forward, by simp⟩, trivial, trivial⟩
  exact ⟨(run_invariant_iff _ hallowed).mpr rfl, rfl⟩

/-- A list of two nodes counts one after its last node is moved to the front. -/
theorem run_loses_node :
    AllowedRun (new : DoublyLinkedList ℤ) [.pushFront 5, .pushFront 6, .moveToFront 0] ∧
      (run (new : DoublyLinkedList ℤ) [.pushFront 5, .pushFront 6, .moveToFront 0]).size = 1 ∧
      ¬ ∃ es, Invariant
        (run (new : DoublyLinkedList ℤ) [.pushFront 5, .pushFront 6, .moveToFront 0]) es := by
  have hsize : (run (new : DoublyLinkedList ℤ)
      [.pushFront 5, .pushFront 6, .moveToFront 0]).size = 1 := rfl
  have htwo : Spine ((new : DoublyLinkedList ℤ).pushFront 5 |>.2.pushFront 6).2
      ([(1, 6)] ++ (0, 5) :: []) := pushFront_spine (pushFront_spine spine_new 5) 6
  have hmoved := linked_of_spine (moveToFront_spine htwo)
  refine ⟨⟨trivial, trivial, ⟨_, (linked_of_spine htwo).forward, by simp⟩, trivial⟩, hsize, ?_⟩
  rintro ⟨es, hinv⟩
  have hcount := hinv.size_eq
  rw [hinv.linked.forward.unique hmoved.forward, hsize] at hcount
  contradiction

end NanoDB.ListRuns
