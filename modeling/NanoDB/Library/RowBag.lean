import Mathlib.Data.Multiset.Filter
import Mathlib.Data.Multiset.Count

/-!
Tables as bags of rows. A statement adds a row, rewrites or removes the rows that
satisfy a condition, or counts them; the order of the rows is nobody's business. A run
keeps one bag for every table name.
-/
namespace RowBag

variable {K R : Type}

inductive Statement (R : Type)
  | insert (row : R)
  | update (cond : R → Bool) (image : R → R)
  | delete (cond : R → Bool)
  | count (cond : R → Bool)

namespace Statement

def apply (bag : Multiset R) : Statement R → Multiset R
  | .insert row => row ::ₘ bag
  | .update cond image => bag.map fun row => if cond row then image row else row
  | .delete cond => bag.filter fun row => cond row = false
  | .count _ => bag

def answer (bag : Multiset R) : Statement R → Option ℕ
  | .count cond => some (bag.countP fun row => cond row = true)
  | _ => none

end Statement

def step [DecidableEq K] (bags : K → Multiset R) (e : K × Statement R) : K → Multiset R :=
  Function.update bags e.1 (e.2.apply (bags e.1))

section Laws
variable {bag : Multiset R} {p : R → Bool} {f : R → R}

/-- What every row satisfies and every statement keeps is kept. -/
theorem forall_apply {P : R → Prop} (h : ∀ row ∈ bag, P row) (e : Statement R)
    (hinsert : ∀ row, e = .insert row → P row)
    (hupdate : ∀ cond image, e = .update cond image → ∀ row, P row → P (image row)) :
    ∀ row ∈ e.apply bag, P row := by
  intro row hrow
  cases e with
  | insert new =>
    rcases Multiset.mem_cons.mp hrow with rfl | hold
    · exact hinsert _ rfl
    · exact h row hold
  | update cond image =>
    obtain ⟨old, hold, rfl⟩ := Multiset.mem_map.mp hrow
    split
    · exact hupdate cond image rfl old (h old hold)
    · exact h old hold
  | delete cond => exact h row (Multiset.mem_of_mem_filter hrow)
  | count cond => exact h row hrow

variable [DecidableEq K] (bags : K → Multiset R) {e e' : K × Statement R}

theorem step_self : step bags e e.1 = e.2.apply (bags e.1) := Function.update_self _ _ _

theorem step_of_ne {k : K} (h : k ≠ e.1) : step bags e k = bags k := Function.update_of_ne h _ _

end Laws

end RowBag
