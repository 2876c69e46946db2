import Mathlib.Data.Nat.Fib.Basic
import NanoDB.CTypes
import NanoDB.Library.OrderedMap

/-!
The self-balancing search tree (common/AVLTree.h). A node owns its two subtrees, so a
routine that rewrites a node through its pointer becomes a function that returns the
new subtree; the `size_` counter is passed along in the source's order. `entries` is
the in-order list, and every routine is characterised by what it does to that list.
-/
namespace NanoDB

open CTypes OrderedMap

inductive AVLNode (T : Type)
  | nil
  | node (key : Int32) (value : T) (height : ℕ) (left right : AVLNode T)
deriving DecidableEq

variable {T : Type}

namespace AVLNode

def height : AVLNode T → ℕ
  | nil => 0
  | node _ _ h _ _ => h

def balanceFactor : AVLNode T → ℤ
  | nil => 0
  | node _ _ _ l r => l.height - r.height

@[simp] theorem height_nil : (nil : AVLNode T).height = 0 := rfl

@[simp] theorem height_node (k : Int32) (v : T) (h : ℕ) (l r : AVLNode T) :
    (node k v h l r).height = h := rfl

@[simp] theorem balanceFactor_node (k : Int32) (v : T) (h : ℕ) (l r : AVLNode T) :
    (node k v h l r).balanceFactor = l.height - r.height := rfl

def updateHeight : AVLNode T → AVLNode T
  | nil => nil
  | node k v _ l r => node k v (1 + if l.height > r.height then l.height else r.height) l r

/-- The source dereferences the left child, which its callers make sure is there. -/
def rotateRight : AVLNode T → AVLNode T
  | node ky vy hy (node kx vx hx a b) c =>
    updateHeight (node kx vx hx a (updateHeight (node ky vy hy b c)))
  | n => n

def rotateLeft : AVLNode T → AVLNode T
  | node kx vx hx a (node ky vy hy b c) =>
    updateHeight (node ky vy hy (updateHeight (node kx vx hx a b)) c)
  | n => n

def rebalance (n : AVLNode T) : AVLNode T :=
  match n with
  | nil => nil
  | node k v h l r =>
    if n.balanceFactor > 1 then
      rotateRight (node k v h (if l.balanceFactor < 0 then rotateLeft l else l) r)
    else if n.balanceFactor < -1 then
      rotateLeft (node k v h l (if r.balanceFactor > 0 then rotateRight r else r))
    else n

def balance (n : AVLNode T) : AVLNode T := rebalance (updateHeight n)

/-- The new subtree and the new value of `size_`. -/
def insert : AVLNode T → Int32 → T → ℤ → AVLNode T × ℤ
  | nil, key, val, size => (node key val 1 nil nil, size + 1)
  | node k v h l r, key, val, size =>
    if key < k then
      let left := insert l key val size
      (balance (node k v h left.1 r), left.2)
    else if key > k then
      let right := insert r key val size
      (balance (node k v h l right.1), right.2)
    else (node k val h l r, size)

/-- The leftmost node; on the empty tree the source would follow a null pointer. -/
def minNode : AVLNode T → Option (Int32 × T)
  | nil => none
  | node k v _ nil _ => some (k, v)
  | node _ _ _ l _ => minNode l

def isNull : AVLNode T → Bool
  | nil => true
  | node _ _ _ _ _ => false

/-- With two children the counter goes down, up, and down again in the recursive call. -/
def remove : AVLNode T → Int32 → ℤ → AVLNode T × ℤ
  | nil, _, size => (nil, size)
  | node k v h l r, key, size =>
    if key < k then
      let left := remove l key size
      (balance (node k v h left.1 r), left.2)
    else if key > k then
      let right := remove r key size
      (balance (node k v h l right.1), right.2)
    else if l.isNull || r.isNull then (if l.isNull then r else l, size - 1)
    else
      let successor := (minNode r).getD (k, v)
      let right := remove r successor.1 (size - 1 + 1)
      (balance (node successor.1 successor.2 h l right.1), right.2)

def find : AVLNode T → Int32 → Option T
  | nil, _ => none
  | node k v _ l r, key =>
    if key = k then some v else if key < k then find l key else find r key

def inOrder {S : Type} (fn : Int32 → T → S → S) : AVLNode T → S → S
  | nil, s => s
  | node k v _ l r, s => inOrder fn r (fn k v (inOrder fn l s))

/-- The traversal of the keys from `lo` to `hi`, without the subtrees that have none. -/
def rangeQuery {S : Type} (lo hi : Int32) (fn : Int32 → T → S → S) : AVLNode T → S → S
  | nil, s => s
  | node k v _ l r, s =>
    let s := if k > lo then rangeQuery lo hi fn l s else s
    let s := if k ≥ lo ∧ k ≤ hi then fn k v s else s
    if k < hi then rangeQuery lo hi fn r s else s

def entries : AVLNode T → List (Int32 × T)
  | nil => []
  | node k v _ l r => l.entries ++ (k, v) :: r.entries

def IsSearchTree : AVLNode T → Prop
  | nil => True
  | node k _ _ l r => (∀ e ∈ l.entries, e.1 < k) ∧ (∀ e ∈ r.entries, k < e.1) ∧
      l.IsSearchTree ∧ r.IsSearchTree

theorem isSearchTree_iff (n : AVLNode T) : n.IsSearchTree ↔ Ascending n.entries := by
  induction n with
  | nil => simp [IsSearchTree, entries, ascending_nil]
  | node k v h l r ihl ihr =>
    rw [entries, ascending_append_cons, IsSearchTree, ihl, ihr]
    tauto

section Entries

@[simp] theorem entries_updateHeight (n : AVLNode T) : (updateHeight n).entries = n.entries := by
  cases n <;> rfl

@[simp] theorem entries_rotateRight (n : AVLNode T) : (rotateRight n).entries = n.entries := by
  cases n with
  | nil => rfl
  | node k v h l r => cases l <;> simp [rotateRight, updateHeight, entries]

@[simp] theorem entries_rotateLeft (n : AVLNode T) : (rotateLeft n).entries = n.entries := by
  cases n with
  | nil => rfl
  | node k v h l r => cases r <;> simp [rotateLeft, updateHeight, entries]

@[simp] theorem entries_rebalance (n : AVLNode T) : (rebalance n).entries = n.entries := by
  cases n with
  | nil => rfl
  | node k v h l r =>
    unfold rebalance
    dsimp only
    split
    · split <;> simp [entries]
    · split
      · split <;> simp [entries]
      · rfl

/-- Rebalancing moves nodes but keeps their order. -/
@[simp] theorem entries_balance (n : AVLNode T) : (balance n).entries = n.entries := by
  simp [balance]

theorem entries_isNull (n : AVLNode T) : n.isNull = true ↔ n.entries = [] := by
  cases n <;> simp [isNull, entries]

/-- The successor of a node is the first entry of its right subtree. -/
theorem minNode_eq_head (n : AVLNode T) : minNode n = n.entries.head? := by
  induction n with
  | nil => rfl
  | node k v h l r ihl _ =>
    cases l with
    | nil => rfl
    | node k' v' h' l' r' =>
      have hne : (node k' v' h' l' r').entries ≠ [] := by simp [entries]
      change minNode (node k' v' h' l' r') = ((node k' v' h' l' r').entries ++ _).head?
      rw [ihl, List.head?_append_of_ne_nil _ hne]

theorem entries_insert {n : AVLNode T} (h : n.IsSearchTree) (key : Int32) (val : T) (size : ℤ) :
    (n.insert key val size).1.entries = put key val n.entries := by
  induction n with
  | nil => simp [insert, entries, put]
  | node k v ht l r ihl ihr =>
    obtain ⟨hbelow, habove, hl, hr⟩ := h
    rw [insert]
    split
    · rename_i hlt
      rw [entries_balance, entries, ihl hl, entries, put_append_of_lt (e := (k, v)) val hlt habove]
    · split
      · rename_i hgt
        rw [entries_balance, entries, ihr hr, entries,
          put_append_of_gt (e := (k, v)) val hgt hbelow]
      · rename_i hlt hgt
        obtain rfl := le_antisymm (not_lt.mp hgt) (not_lt.mp hlt)
        exact (put_append_self val v hbelow habove).symm

theorem entries_remove {n : AVLNode T} (h : n.IsSearchTree) (key : Int32) (size : ℤ) :
    (n.remove key size).1.entries = OrderedMap.remove key n.entries := by
  induction n generalizing key size with
  | nil => rfl
  | node k v ht l r ihl ihr =>
    obtain ⟨hbelow, habove, hl, hr⟩ := h
    rw [remove]
    split
    · rename_i hlt
      rw [entries_balance, entries, ihl hl, entries, remove_append_of_lt (e := (k, v)) hlt habove]
    · split
      · rename_i hgt
        rw [entries_balance, entries, ihr hr, entries,
          remove_append_of_gt (e := (k, v)) hgt hbelow]
      · rename_i hlt hgt
        obtain rfl := le_antisymm (not_lt.mp hgt) (not_lt.mp hlt)
        rw [entries, remove_append_self v hbelow habove]
        split
        · rename_i hnull
          split
          · rename_i hl
            rw [(entries_isNull l).mp hl, List.nil_append]
          · rename_i hl
            have hr : r.isNull = true := by simpa [hl] using hnull
            rw [(entries_isNull r).mp hr, List.append_nil]
        · rename_i hnull
          cases hentries : r.entries with
          | nil => simp [(entries_isNull r).mpr hentries] at hnull
          | cons e rest =>
            have hmin : (minNode r).getD (key, v) = e := by
              rw [minNode_eq_head, hentries, List.head?_cons, Option.getD_some]
            have habove' := (isSearchTree_iff r).mp hr
            rw [hentries] at habove'
            have hrest := remove_append_self (m := []) (k := e.1) e.2 (by simp)
              (List.pairwise_cons.mp habove').1
            rw [entries_balance, hmin, entries, ihr hr, hentries]
            exact congrArg (fun m => l.entries ++ e :: m) hrest

/-- The counter changes by as much as the number of entries. -/
theorem insert_size (n : AVLNode T) (key : Int32) (val : T) (size : ℤ) :
    (n.insert key val size).2 =
      size + ((n.insert key val size).1.entries.length - n.entries.length) := by
  induction n with
  | nil => simp [insert, entries]
  | node k v h l r ihl ihr =>
    simp only [insert]
    split
    · simp only [entries_balance, entries, List.length_append, List.length_cons, ihl]
      omega
    · split
      · simp only [entries_balance, entries, List.length_append, List.length_cons, ihr]
        omega
      · simp [entries]

theorem remove_size (n : AVLNode T) (key : Int32) (size : ℤ) :
    (n.remove key size).2 =
      size + ((n.remove key size).1.entries.length - n.entries.length) := by
  induction n generalizing key size with
  | nil => simp [remove]
  | node k v h l r ihl ihr =>
    simp only [remove]
    split
    · simp only [entries_balance, entries, List.length_append, List.length_cons, ihl]
      omega
    · split
      · simp only [entries_balance, entries, List.length_append, List.length_cons, ihr]
        omega
      · split
        · rename_i hnull
          split
          · rename_i hl
            simp only [entries, (entries_isNull l).mp hl, List.length_append, List.length_cons,
              List.length_nil]
            omega
          · rename_i hl
            have hr : r.isNull = true := by simpa [hl] using hnull
            simp only [entries, (entries_isNull r).mp hr, List.length_append, List.length_cons,
              List.length_nil]
            omega
        · simp only [entries_balance, entries, List.length_append, List.length_cons]
          rw [ihr]
          omega

theorem find_eq_lookup {n : AVLNode T} (h : n.IsSearchTree) (key : Int32) :
    n.find key = n.entries.lookup key := by
  induction n with
  | nil => rfl
  | node k v ht l r ihl ihr =>
    obtain ⟨hbelow, habove, hl, hr⟩ := h
    rw [find, entries]
    split
    · rename_i heq
      rw [heq, lookup_append_self hbelow]
    · rename_i hne
      split
      · rename_i hlt
        rw [ihl hl, lookup_append_of_lt (e := (k, v)) hlt habove]
      · rename_i hlt
        have hgt : k < key := lt_of_le_of_ne (not_lt.mp hlt) (Ne.symm hne)
        rw [ihr hr, lookup_append_of_gt (e := (k, v)) hgt hbelow]

/-- The traversal calls back once for each entry, from left to right. -/
theorem inOrder_eq_foldl {S : Type} (fn : Int32 → T → S → S) (n : AVLNode T) (s : S) :
    inOrder fn n s = n.entries.foldl (fun s e => fn e.1 e.2 s) s := by
  induction n generalizing s with
  | nil => rfl
  | node k v h l r ihl ihr => simp [inOrder, entries, ihl, ihr]

/-- The subtrees the range query leaves out hold no key of the range. -/
theorem rangeQuery_eq_foldl {S : Type} (lo hi : Int32) (fn : Int32 → T → S → S) {n : AVLNode T}
    (h : n.IsSearchTree) (s : S) : rangeQuery lo hi fn n s =
      (n.entries.filter fun e => lo ≤ e.1 ∧ e.1 ≤ hi).foldl (fun s e => fn e.1 e.2 s) s := by
  induction n generalizing s with
  | nil => rfl
  | node k v ht l r ihl ihr =>
    obtain ⟨hbelow, habove, hl, hr⟩ := h
    have hleft : ∀ s, (if k > lo then rangeQuery lo hi fn l s else s) =
        (l.entries.filter fun e => lo ≤ e.1 ∧ e.1 ≤ hi).foldl (fun s e => fn e.1 e.2 s) s := by
      intro s
      by_cases hlo : k > lo
      · rw [if_pos hlo, ihl hl]
      · have hnone : (l.entries.filter fun e => lo ≤ e.1 ∧ e.1 ≤ hi) = [] := by
          rw [List.filter_eq_nil_iff]
          intro e he hin
          have hlow := (of_decide_eq_true hin).1
          exact hlo (lt_of_le_of_lt hlow (hbelow e he))
        rw [if_neg hlo, hnone, List.foldl_nil]
    have hright : ∀ s, (if k < hi then rangeQuery lo hi fn r s else s) =
        (r.entries.filter fun e => lo ≤ e.1 ∧ e.1 ≤ hi).foldl (fun s e => fn e.1 e.2 s) s := by
      intro s
      by_cases hhi : k < hi
      · rw [if_pos hhi, ihr hr]
      · have hnone : (r.entries.filter fun e => lo ≤ e.1 ∧ e.1 ≤ hi) = [] := by
          rw [List.filter_eq_nil_iff]
          intro e he hin
          have hhigh := (of_decide_eq_true hin).2
          exact hhi (lt_of_lt_of_le (habove e he) hhigh)
        rw [if_neg hhi, hnone, List.foldl_nil]
    rw [rangeQuery, hright, hleft, entries, List.filter_append, List.foldl_append]
    by_cases hin : lo ≤ k ∧ k ≤ hi
    · rw [if_pos hin, List.filter_cons_of_pos (by simpa using hin), List.foldl_cons]
    · rw [if_neg hin, List.filter_cons_of_neg (by simpa using hin)]

theorem insert_isSearchTree {n : AVLNode T} (h : n.IsSearchTree) (key : Int32) (val : T)
    (size : ℤ) : (n.insert key val size).1.IsSearchTree := by
  rw [isSearchTree_iff, entries_insert h]
  exact ascending_put ((isSearchTree_iff n).mp h) key val

theorem remove_isSearchTree {n : AVLNode T} (h : n.IsSearchTree) (key : Int32) (size : ℤ) :
    (n.remove key size).1.IsSearchTree := by
  rw [isSearchTree_iff, entries_remove h]
  exact ascending_remove ((isSearchTree_iff n).mp h) key

end Entries

end AVLNode

structure AVLTree (T : Type) where
  root : AVLNode T
  size : ℤ

namespace AVLTree

def new : AVLTree T := ⟨.nil, 0⟩

def insert (t : AVLTree T) (key : Int32) (val : T) : AVLTree T :=
  let res := t.root.insert key val t.size
  ⟨res.1, res.2⟩

def search (t : AVLTree T) (key : Int32) : Option T := t.root.find key

def remove (t : AVLTree T) (key : Int32) : AVLTree T :=
  let res := t.root.remove key t.size
  ⟨res.1, res.2⟩

def inOrder {S : Type} (fn : Int32 → T → S → S) (t : AVLTree T) (s : S) : S :=
  t.root.inOrder fn s

def rangeQuery {S : Type} (lo hi : Int32) (fn : Int32 → T → S → S) (t : AVLTree T) (s : S) : S :=
  t.root.rangeQuery lo hi fn s

def height (t : AVLTree T) : ℕ := t.root.height

inductive Op (T : Type)
  | insert (key : Int32) (val : T)
  | remove (key : Int32)

def step (t : AVLTree T) : Op T → AVLTree T
  | .insert key val => t.insert key val
  | .remove key => t.remove key

def run (ops : List (Op T)) : AVLTree T := ops.foldl step new

end AVLTree

end NanoDB
