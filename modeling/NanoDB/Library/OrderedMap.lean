import Mathlib.Data.List.Basic
import Mathlib.Order.Lattice
import Mathlib.Data.Nat.Notation
import Mathlib.Order.Defs.LinearOrder

/-!
Finite maps as ascending lists of entries, for any linearly ordered key type. `put`
and `remove` are defined by filtering, so they need no order to be stated. On an
ascending list that is split at an entry they act on the side of their key only.
-/
namespace OrderedMap

variable {K V : Type} [LinearOrder K]

def Ascending (m : List (K × V)) : Prop := m.Pairwise fun a b => a.1 < b.1

def put (k : K) (v : V) (m : List (K × V)) : List (K × V) :=
  m.filter (fun e => e.1 < k) ++ (k, v) :: m.filter (fun e => k < e.1)

def remove (k : K) (m : List (K × V)) : List (K × V) := m.filter fun e => e.1 ≠ k

theorem ascending_nil : Ascending ([] : List (K × V)) := List.Pairwise.nil

theorem ascending_append_cons {m m' : List (K × V)} {e : K × V} :
    Ascending (m ++ e :: m') ↔ Ascending m ∧ Ascending m' ∧
      (∀ a ∈ m, a.1 < e.1) ∧ ∀ b ∈ m', e.1 < b.1 := by
  unfold Ascending
  rw [List.pairwise_append, List.pairwise_cons]
  constructor
  · intro ⟨hm, ⟨habove, hm'⟩, hacross⟩
    exact ⟨hm, hm', fun a ha => hacross a ha e (by simp), habove⟩
  · intro ⟨hm, hm', hbelow, habove⟩
    refine ⟨hm, ⟨habove, hm'⟩, ?_⟩
    intro a ha b hb
    rcases List.mem_cons.mp hb with heq | hb
    · exact heq ▸ hbelow a ha
    · exact (hbelow a ha).trans (habove b hb)

section Lookup

theorem lookup_cons_eq (e : K × V) (m : List (K × V)) (k : K) :
    (e :: m).lookup k = if k = e.1 then some e.2 else m.lookup k := by
  rw [List.lookup_cons]
  by_cases hk : k = e.1
  · rw [if_pos hk, beq_iff_eq.mpr hk]
  · rw [if_neg hk, beq_eq_false_iff_ne.mpr hk]

theorem lookup_eq_none {m : List (K × V)} {k : K} (h : ∀ e ∈ m, e.1 ≠ k) :
    m.lookup k = none := by
  rw [List.lookup_eq_none_iff]
  intro e he
  simpa using (h e he).symm

/-- An entry is in an ascending list exactly when its key is looked up to its value. -/
theorem mem_iff_lookup {m : List (K × V)} (h : Ascending m) (k : K) (v : V) :
    (k, v) ∈ m ↔ m.lookup k = some v := by
  induction m with
  | nil => simp
  | cons e m ih =>
    obtain ⟨hfirst, hm⟩ := List.pairwise_cons.mp h
    rw [lookup_cons_eq, List.mem_cons, ih hm]
    by_cases hk : k = e.1
    · have hnone : m.lookup k = none :=
        lookup_eq_none fun b hb => by rw [hk]; exact (hfirst b hb).ne'
      rw [if_pos hk, hnone, Prod.ext_iff]
      simp [hk, eq_comm]
    · rw [if_neg hk, Prod.ext_iff]
      simp [hk]

theorem lookup_append_of_lt {m m' : List (K × V)} {e : K × V} {k : K} (hk : k < e.1)
    (habove : ∀ b ∈ m', e.1 < b.1) : (m ++ e :: m').lookup k = m.lookup k := by
  rw [List.lookup_append, lookup_cons_eq, if_neg hk.ne, lookup_eq_none (m := m'), Option.or_none]
  intro b hb
  exact (hk.trans (habove b hb)).ne'

theorem lookup_append_of_gt {m m' : List (K × V)} {e : K × V} {k : K} (hk : e.1 < k)
    (hbelow : ∀ a ∈ m, a.1 < e.1) : (m ++ e :: m').lookup k = m'.lookup k := by
  rw [List.lookup_append, lookup_eq_none (m := m), Option.none_or, lookup_cons_eq, if_neg hk.ne']
  intro a ha
  exact ((hbelow a ha).trans hk).ne

theorem lookup_append_self {m m' : List (K × V)} {k : K} {v : V}
    (hbelow : ∀ a ∈ m, a.1 < k) : (m ++ (k, v) :: m').lookup k = some v := by
  rw [List.lookup_append, lookup_eq_none (m := m), Option.none_or, List.lookup_cons_self]
  intro a ha
  exact (hbelow a ha).ne

/-- A filter that keeps the entries of a key does not change its value. -/
theorem lookup_filter {m : List (K × V)} {p : K × V → Bool} {k : K}
    (hk : ∀ e : K × V, e.1 = k → p e = true) : (m.filter p).lookup k = m.lookup k := by
  induction m with
  | nil => rfl
  | cons e m ih =>
    rw [lookup_cons_eq]
    cases hp : p e with
    | true => rw [List.filter_cons_of_pos hp, lookup_cons_eq, ih]
    | false =>
      have hne : k ≠ e.1 := by
        intro heq
        rw [hk e heq.symm] at hp
        contradiction
      rw [List.filter_cons_of_neg (by simp [hp]), ih, if_neg hne]

theorem lookup_put (m : List (K × V)) (k k' : K) (v : V) :
    (put k v m).lookup k' = if k' = k then some v else m.lookup k' := by
  unfold put
  rcases lt_trichotomy k' k with hlt | heq | hgt
  · rw [if_neg hlt.ne, lookup_append_of_lt (e := (k, v)) hlt]
    · exact lookup_filter fun e he => by simpa [he] using hlt
    · intro b hb
      exact of_decide_eq_true (List.mem_filter.mp hb).2
  · rw [if_pos heq, heq, lookup_append_self]
    intro a ha
    exact of_decide_eq_true (List.mem_filter.mp ha).2
  · rw [if_neg hgt.ne', lookup_append_of_gt (e := (k, v)) hgt]
    · exact lookup_filter fun e he => by simpa [he] using hgt
    · intro a ha
      exact of_decide_eq_true (List.mem_filter.mp ha).2

theorem lookup_remove (m : List (K × V)) (k k' : K) :
    (remove k m).lookup k' = if k' = k then none else m.lookup k' := by
  unfold remove
  by_cases hk : k' = k
  · rw [if_pos hk, hk]
    apply lookup_eq_none
    intro e he
    exact of_decide_eq_true (List.mem_filter.mp he).2
  · rw [if_neg hk]
    exact lookup_filter fun e he => by simpa [he] using hk

end Lookup

section Order

theorem ascending_filter {m : List (K × V)} (h : Ascending m) (p : K × V → Bool) :
    Ascending (m.filter p) := List.Pairwise.filter p h

theorem ascending_put {m : List (K × V)} (h : Ascending m) (k : K) (v : V) :
    Ascending (put k v m) := by
  refine ascending_append_cons.mpr ⟨ascending_filter h _, ascending_filter h _, ?_, ?_⟩
  · intro a ha
    exact of_decide_eq_true (List.mem_filter.mp ha).2
  · intro b hb
    exact of_decide_eq_true (List.mem_filter.mp hb).2

theorem ascending_remove {m : List (K × V)} (h : Ascending m) (k : K) :
    Ascending (remove k m) := ascending_filter h _

end Order

section Split
variable {m m' : List (K × V)} {e : K × V} {k : K}

private theorem filter_below (h : ∀ a ∈ m, a.1 < k) :
    m.filter (fun a => a.1 < k) = m ∧ m.filter (fun a => k < a.1) = [] := by
  constructor
  · exact List.filter_eq_self.mpr fun a ha => by simpa using h a ha
  · exact List.filter_eq_nil_iff.mpr fun a ha => by simpa using (h a ha).le

private theorem filter_above (h : ∀ b ∈ m, k < b.1) :
    m.filter (fun b => b.1 < k) = [] ∧ m.filter (fun b => k < b.1) = m := by
  constructor
  · exact List.filter_eq_nil_iff.mpr fun b hb => by simpa using (h b hb).le
  · exact List.filter_eq_self.mpr fun b hb => by simpa using h b hb

theorem put_append_of_lt (v : V) (hk : k < e.1) (habove : ∀ b ∈ m', e.1 < b.1) :
    put k v (m ++ e :: m') = put k v m ++ e :: m' := by
  obtain ⟨hlow, hup⟩ := filter_above fun b hb => hk.trans (habove b hb)
  unfold put
  simp [List.filter_append, hk, hk.le.not_gt, hlow, hup]

theorem put_append_of_gt (v : V) (hk : e.1 < k) (hbelow : ∀ a ∈ m, a.1 < e.1) :
    put k v (m ++ e :: m') = m ++ e :: put k v m' := by
  obtain ⟨hlow, hup⟩ := filter_below fun a ha => (hbelow a ha).trans hk
  unfold put
  simp [List.filter_append, hk, hk.le.not_gt, hlow, hup]

theorem put_append_self (v w : V) (hbelow : ∀ a ∈ m, a.1 < k) (habove : ∀ b ∈ m', k < b.1) :
    put k v (m ++ (k, w) :: m') = m ++ (k, v) :: m' := by
  obtain ⟨hlow, hup⟩ := filter_below hbelow
  obtain ⟨hlow', hup'⟩ := filter_above habove
  unfold put
  simp [List.filter_append, hlow, hup, hlow', hup']

theorem remove_eq_self (h : ∀ a ∈ m, a.1 ≠ k) : remove k m = m :=
  List.filter_eq_self.mpr fun a ha => by simpa using h a ha

theorem remove_append_cons (hk : k ≠ e.1) :
    remove k (m ++ e :: m') = remove k m ++ e :: remove k m' := by
  unfold remove
  rw [List.filter_append, List.filter_cons_of_pos (by simpa using hk.symm)]

theorem remove_append_of_lt (hk : k < e.1) (habove : ∀ b ∈ m', e.1 < b.1) :
    remove k (m ++ e :: m') = remove k m ++ e :: m' := by
  rw [remove_append_cons hk.ne, remove_eq_self fun b hb => (hk.trans (habove b hb)).ne']

theorem remove_append_of_gt (hk : e.1 < k) (hbelow : ∀ a ∈ m, a.1 < e.1) :
    remove k (m ++ e :: m') = m ++ e :: remove k m' := by
  rw [remove_append_cons hk.ne', remove_eq_self fun a ha => ((hbelow a ha).trans hk).ne]

theorem remove_append_self (v : V) (hbelow : ∀ a ∈ m, a.1 < k) (habove : ∀ b ∈ m', k < b.1) :
    remove k (m ++ (k, v) :: m') = m ++ m' := by
  have hself : remove k m = m := remove_eq_self fun a ha => (hbelow a ha).ne
  have hself' : remove k m' = m' := remove_eq_self fun b hb => (habove b hb).ne'
  unfold remove at hself hself' ⊢
  rw [List.filter_append, List.filter_cons_of_neg (by simp), hself, hself']

end Split

end OrderedMap
