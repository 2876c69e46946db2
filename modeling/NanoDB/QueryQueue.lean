import NanoDB.PriorityQueue

/-!
Runs of the priority queue, and the scheduler on top of it (executor/Executor.cpp).
A run keeps the heap order and neither loses nor duplicates an entry. The scheduler
executes every submitted task once, by ascending priority; tasks of equal priority
come out in an order of the heap's own.
-/
namespace NanoDB

open CTypes HeapOrder

variable {T : Type}

namespace PriorityQueue

inductive Op (T : Type)
  | enqueue (val : T) (priority : Int32)
  | dequeue

def run (q : PriorityQueue T) : List (Op T) → List (Except String T) × PriorityQueue T
  | [] => ([], q)
  | .enqueue val priority :: ops => run (q.enqueue val priority) ops
  | .dequeue :: ops =>
    let answer := q.dequeue
    let rest := run answer.2 ops
    (answer.1 :: rest.1, rest.2)

def Op.entry : Op T → Option (PQEntry T)
  | .enqueue val priority => some ⟨priority, val⟩
  | .dequeue => none

def enqueued (ops : List (Op T)) : List (PQEntry T) := ops.filterMap Op.entry

/-- The entries taken out are those whose data the dequeues returned. -/
theorem run_accounted (q : PriorityQueue T) (ops : List (Op T)) :
    ∃ removed : List (PQEntry T),
      (run q ops).1.filterMap Except.toOption = removed.map PQEntry.data ∧
      (q.heap ++ enqueued ops).Perm (removed ++ (run q ops).2.heap) := by
  induction ops generalizing q with
  | nil => exact ⟨[], rfl, by simp [run, enqueued]⟩
  | cons op ops ih =>
    cases op with
    | enqueue val priority =>
      obtain ⟨removed, hdata, hperm⟩ := ih (q.enqueue val priority)
      refine ⟨removed, hdata, ?_⟩
      have hnew := q.enqueue_perm val priority
      exact List.perm_middle.trans ((hnew.symm.append_right _).trans hperm)
    | dequeue =>
      obtain ⟨removed, hdata, hperm⟩ := ih q.dequeue.2
      by_cases hempty : q.heap = []
      · rw [q.dequeue_of_empty hempty] at hdata hperm
        refine ⟨removed, ?_, ?_⟩
        · rw [run, q.dequeue_of_empty hempty]
          exact hdata
        · rw [run, q.dequeue_of_empty hempty]
          exact hperm
      · obtain ⟨e, he, -, hval, htaken, -⟩ := q.dequeue_spec hempty
        refine ⟨e :: removed, ?_, ?_⟩
        · rw [run, List.filterMap_cons, hval]
          exact congrArg (List.cons e.data) hdata
        · exact (htaken.append_right _).trans (hperm.cons e)

structure Correct (ops : List (Op T)) (answers : List (Except String T))
    (q : PriorityQueue T) : Prop where
  minHeap : ∀ i, 0 < i → i < q.heap.length →
    priorityAt q.heap ((i - 1) / 2) ≤ priorityAt q.heap i
  inArray : q.heap.length ≤ q.capacity
  accounted : ∃ removed : List (PQEntry T),
    answers.filterMap Except.toOption = removed.map PQEntry.data ∧
    (enqueued ops).Perm (removed ++ q.heap)
  minimal : q.heap ≠ [] → ∃ e ∈ q.heap, (∀ e' ∈ q.heap, e.priority ≤ e'.priority) ∧
    q.dequeue.1 = .ok e.data ∧ q.heap.Perm (e :: q.dequeue.2.heap)
  underflow : q.heap = [] → q.dequeue = (.error "PriorityQueue underflow", q)

/-- After any calls on a queue of any initial capacity the heap is in order, a dequeue
takes an entry of minimal priority or throws and changes nothing, and what was enqueued
is what was dequeued together with what is held. -/
theorem run_correct (capacity : ℕ) (hcap : 0 < capacity) (ops : List (Op T)) :
    Correct ops (run (new capacity hcap) ops).1 (run (new capacity hcap) ops).2 where
  minHeap := (run (new capacity hcap) ops).2.ordered
  inArray := (run (new capacity hcap) ops).2.fits
  accounted := run_accounted (new capacity hcap) ops
  minimal h := by
    obtain ⟨e, he, hmin, hval, hperm, -⟩ := dequeue_spec _ h
    exact ⟨e, he, hmin, hval, hperm⟩
  underflow := dequeue_of_empty _

theorem run_correct_resized :
    0 < 1 ∧ Correct [.enqueue 7 1, .enqueue 8 0, .dequeue]
      (run (new 1 (by decide)) [.enqueue 7 1, .enqueue 8 0, .dequeue]).1
      (run (new 1 (by decide) : PriorityQueue ℕ) [.enqueue 7 1, .enqueue 8 0, .dequeue]).2 :=
  ⟨by decide, run_correct 1 (by decide) _⟩

end PriorityQueue

/-- A pending statement; its text is cut to the 1023 bytes the buffer holds. -/
structure QueryTask where
  sql : CStr 1024
  priority : Int32

namespace QueryQueue

open PriorityQueue

def queryQueue : PriorityQueue QueryTask := new 512 (by decide)

def task (sql : List Byte) (priority : Int32) : QueryTask :=
  ⟨snprintf 1024 postfixSize_pos sql, priority⟩

def enqueueQuery (sql : List Byte) (priority : Int32) (q : PriorityQueue QueryTask) :
    PriorityQueue QueryTask := q.enqueue (task sql priority) priority

section Run
variable {S : Type} (executeSQL : List Byte → S → S)

def runLoop : ℕ → PriorityQueue QueryTask → S → PriorityQueue QueryTask × S
  | 0, q, s => (q, s)
  | fuel + 1, q, s =>
    if q.isEmpty then (q, s)
    else
      let next := q.dequeue
      runLoop fuel next.2 (next.1.toOption.elim s fun task => executeSQL task.sql.val s)

def runQueue (q : PriorityQueue QueryTask) (s : S) : PriorityQueue QueryTask × S :=
  runLoop executeSQL q.heap.length q s

/-- The entries leave the queue once each, by ascending priority. -/
theorem runLoop_spec (fuel : ℕ) (q : PriorityQueue QueryTask) (s : S)
    (hfuel : q.heap.length ≤ fuel) :
    (runLoop executeSQL fuel q s).1.heap = [] ∧ ∃ order : List (PQEntry QueryTask),
      order.Perm q.heap ∧ order.Pairwise (fun a b => a.priority ≤ b.priority) ∧
      (runLoop executeSQL fuel q s).2 = order.foldl (fun s e => executeSQL e.data.sql.val s) s := by
  induction fuel generalizing q s with
  | zero =>
    have hempty := List.length_eq_zero_iff.mp (Nat.le_zero.mp hfuel)
    exact ⟨hempty, [], by rw [hempty], List.Pairwise.nil, rfl⟩
  | succ fuel ih =>
    rw [runLoop]
    by_cases hempty : q.heap = []
    · rw [if_pos (by simp [isEmpty, hempty])]
      exact ⟨hempty, [], by rw [hempty], List.Pairwise.nil, rfl⟩
    · rw [if_neg (by simpa [isEmpty] using hempty)]
      obtain ⟨e, he, hmin, hval, hperm, -⟩ := q.dequeue_spec hempty
      have hlen := hperm.length_eq
      rw [List.length_cons] at hlen
      obtain ⟨hend, order, horder, hsorted, hstate⟩ := ih q.dequeue.2
        (executeSQL e.data.sql.val s) (by omega)
      dsimp only
      rw [hval]
      refine ⟨hend, e :: order, ?_, ?_, hstate⟩
      · exact (horder.cons e).trans hperm.symm
      · refine List.pairwise_cons.mpr ⟨?_, hsorted⟩
        intro e' he'
        exact hmin e' (hperm.symm.subset (List.mem_cons_of_mem e (horder.subset he')))

end Run

def submit (q : PriorityQueue QueryTask) (calls : List (List Byte × Int32)) :
    PriorityQueue QueryTask :=
  calls.foldl (fun q call => enqueueQuery call.1 call.2 q) q

def tasks (calls : List (List Byte × Int32)) : List QueryTask :=
  calls.map fun call => task call.1 call.2

theorem submit_perm (q : PriorityQueue QueryTask) (calls : List (List Byte × Int32)) :
    (submit q calls).heap.Perm (q.heap ++ (tasks calls).map fun t => ⟨t.priority, t⟩) := by
  induction calls generalizing q with
  | nil => simp [submit, tasks]
  | cons call calls ih =>
    have hnew := q.enqueue_perm (task call.1 call.2) call.2
    exact ((ih (enqueueQuery call.1 call.2 q)).trans (hnew.append_right _)).trans
      List.perm_middle.symm

/-- The statements submitted to an empty queue are executed once each, by ascending
priority, and the queue is empty again. -/
theorem runQueue_schedule {S : Type} (executeSQL : List Byte → S → S)
    (q : PriorityQueue QueryTask) (hq : q.heap = []) (calls : List (List Byte × Int32)) (s : S) :
    (runQueue executeSQL (submit q calls) s).1.heap = [] ∧
      ∃ order : List QueryTask, order.Perm (tasks calls) ∧
        order.Pairwise (fun a b => a.priority ≤ b.priority) ∧
        (runQueue executeSQL (submit q calls) s).2 =
          order.foldl (fun s t => executeSQL t.sql.val s) s := by
  obtain ⟨hend, order, horder, hsorted, hstate⟩ :=
    runLoop_spec executeSQL _ (submit q calls) s (le_refl _)
  have hperm := horder.trans (submit_perm q calls)
  rw [hq, List.nil_append] at hperm
  have hown : ∀ e ∈ order, e.priority = e.data.priority := by
    intro e he
    obtain ⟨t, -, rfl⟩ := List.mem_map.mp (hperm.subset he)
    rfl
  refine ⟨hend, order.map PQEntry.data, ?_, ?_, ?_⟩
  · have hdata := hperm.map PQEntry.data
    rwa [List.map_map, Function.comp_def, List.map_id'] at hdata
  · rw [List.pairwise_map]
    refine hsorted.imp_of_mem ?_
    intro a b ha hb hle
    rwa [hown a ha, hown b hb] at hle
  · rw [List.foldl_map]
    exact hstate

theorem runQueue_schedule_admin :
    queryQueue.heap = [] ∧
    (runQueue (fun sql trace => trace ++ [sql])
      (submit queryQueue [(ascii "SELECT", 1), (ascii "UPDATE", 0)]) []).1.heap = [] ∧
    ∃ order : List QueryTask, order.Perm (tasks [(ascii "SELECT", 1), (ascii "UPDATE", 0)]) ∧
      order.Pairwise (fun a b => a.priority ≤ b.priority) ∧
      (runQueue (fun sql trace => trace ++ [sql])
        (submit queryQueue [(ascii "SELECT", 1), (ascii "UPDATE", 0)]) []).2 =
        order.foldl (fun trace t => trace ++ [t.sql.val]) [] :=
  ⟨rfl, runQueue_schedule (fun sql trace => trace ++ [sql]) queryQueue rfl _ _⟩

/-- Three statements of one user; the two updates write the same field. -/
def sameUser : List (List Byte × Int32) :=
  [(ascii "SELECT * FROM orders", 1),
   (ascii "UPDATE orders SET o_custkey = 1 WHERE o_orderkey == 7", 1),
   (ascii "UPDATE orders SET o_custkey = 2 WHERE o_orderkey == 7", 1)]

/-- The second update runs before the first, so no order that keeps equal priorities in
the order of their submission explains what `runQueue` executes. -/
theorem runQueue_swaps_updates :
    ¬ ∃ order : List QueryTask, order.Perm (tasks sameUser) ∧
      order.Pairwise (fun a b => a.priority ≤ b.priority) ∧
      (∀ p : Int32, order.filter (fun t => t.priority = p) =
        (tasks sameUser).filter (fun t => t.priority = p)) ∧
      (runQueue (fun sql trace => trace ++ [sql]) (submit queryQueue sameUser) []).2 =
        order.map fun t => t.sql.val := by
  intro ⟨order, hperm, _, hfifo, htrace⟩
  have hsame : ∀ t ∈ tasks sameUser, t.priority = 1 := by decide
  have horder : order = tasks sameUser := by
    have hone := hfifo 1
    rwa [List.filter_eq_self.mpr fun t ht => by simpa using hsame t (hperm.subset ht),
      List.filter_eq_self.mpr fun t ht => by simpa using hsame t ht] at hone
  rw [horder] at htrace
  revert htrace
  decide +kernel

end QueryQueue

end NanoDB
