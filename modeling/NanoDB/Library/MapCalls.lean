import Mathlib.Data.Set.Card
import Mathlib.Data.List.Induction
import Mathlib.Logic.Function.Basic

/-!
A finite map by the calls that made it. `live` is the abstract map: every call
changes it at its own key, by a value or to nothing.
-/
namespace MapCalls

variable {K V : Type}

inductive Call (K V : Type)
  | put (key : K) (val : V)
  | remove (key : K)

namespace Call

def key : Call K V → K
  | put key _ => key
  | remove key => key

def value : Call K V → Option V
  | put _ val => some val
  | remove _ => none

end Call

variable [DecidableEq K]

def live (calls : List (Call K V)) : K → Option V :=
  calls.foldl (fun m c => Function.update m c.key c.value) fun _ => none

theorem live_concat (calls : List (Call K V)) (c : Call K V) (key : K) :
    live (calls ++ [c]) key = if key = c.key then c.value else live calls key := by
  unfold live
  rw [List.foldl_append]
  exact Function.update_apply _ _ _ _

/-- A key is live with a value exactly when a call that put both is its last one. -/
theorem live_eq_some_iff (calls : List (Call K V)) (key : K) (val : V) :
    live calls key = some val ↔ ∃ before after, calls = before ++ .put key val :: after ∧
      ∀ c ∈ after, c.key ≠ key := by
  induction calls using List.reverseRecOn with
  | nil => simp [live]
  | append_singleton calls c ih =>
    rw [live_concat]
    constructor
    · intro h
      split at h
      · rename_i hkey
        cases c with
        | put k v =>
          obtain rfl : v = val := by simpa [Call.value] using h
          obtain rfl : key = k := hkey
          exact ⟨calls, [], rfl, by simp⟩
        | remove k => simp [Call.value] at h
      · rename_i hkey
        obtain ⟨before, after, rfl, hafter⟩ := ih.mp h
        refine ⟨before, after ++ [c], by simp, ?_⟩
        intro c' hc'
        rcases List.mem_append.mp hc' with hc' | hc'
        · exact hafter c' hc'
        · obtain rfl := List.mem_singleton.mp hc'
          exact Ne.symm hkey
    · intro ⟨before, after, heq, hafter⟩
      rcases List.eq_nil_or_concat after with rfl | ⟨after', last, rfl⟩
      · obtain ⟨rfl, hlast⟩ := List.append_inj' heq rfl
        obtain rfl : c = .put key val := by simpa using hlast
        simp [Call.key, Call.value]
      · have hcons : before ++ .put key val :: after'.concat last =
            (before ++ .put key val :: after') ++ [last] := by simp
        obtain ⟨rfl, hlast⟩ := List.append_inj' (heq.trans hcons) rfl
        obtain rfl : c = last := by simpa using hlast
        rw [if_neg (hafter c (by simp)).symm]
        exact ih.mpr ⟨before, after', rfl, fun c' hc' => hafter c' (by simp [hc'])⟩

def liveKeys (calls : List (Call K V)) : Set K := {key | ∃ val, live calls key = some val}

theorem mem_liveKeys (calls : List (Call K V)) (key : K) :
    key ∈ liveKeys calls ↔ live calls key ≠ none := Option.ne_none_iff_exists'.symm

theorem liveKeys_put (calls : List (Call K V)) (key : K) (val : V) :
    liveKeys (calls ++ [.put key val]) = insert key (liveKeys calls) := by
  ext k
  rw [mem_liveKeys, live_concat, Set.mem_insert_iff, mem_liveKeys]
  by_cases hk : k = key
  · simp [Call.key, Call.value, hk]
  · simp [Call.key, hk]

theorem liveKeys_remove (calls : List (Call K V)) (key : K) :
    liveKeys (calls ++ [.remove key]) = liveKeys calls \ {key} := by
  ext k
  rw [mem_liveKeys, live_concat, Set.mem_sdiff, mem_liveKeys, Set.mem_singleton_iff]
  by_cases hk : k = key
  · simp [Call.key, Call.value, hk]
  · simp [Call.key, hk]

theorem liveKeys_finite (calls : List (Call K V)) : (liveKeys calls).Finite := by
  induction calls using List.reverseRecOn with
  | nil =>
    have hempty : liveKeys ([] : List (Call K V)) = ∅ := by
      ext k
      simp [liveKeys, live]
    rw [hempty]
    exact Set.finite_empty
  | append_singleton calls c ih =>
    cases c with
    | put key val =>
      rw [liveKeys_put]
      exact ih.insert key
    | remove key =>
      rw [liveKeys_remove]
      exact ih.sdiff

end MapCalls
