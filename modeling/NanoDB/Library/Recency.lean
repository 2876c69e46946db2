import Mathlib.Data.List.Dedup
import Mathlib.Data.List.Induction
import Mathlib.Data.List.Perm.Subperm
import Mathlib.Data.Nat.Notation
import Mathlib.Tactic.Tauto

/-!
Recency of keys in an access trace, and the bounded cache that keeps the most
recently used ones. `mostRecent` is the closed form: the distinct keys of a trace,
the key accessed last in front. `touch` is one access to a cache of bounded size;
a run of it holds a prefix of the closed form. `misses` counts the accesses that find
their key outside this prefix.
-/
namespace Recency

variable {K : Type} [DecidableEq K]

/-- The distinct keys of a trace, in the order of their last accesses, latest first. -/
def mostRecent (ks : List K) : List K := ks.dedup.reverse

/-- One access to a cache of `cap` keys: the key comes to the front and the keys
behind the capacity are dropped. -/
def touch (cap : ℕ) (cached : List K) (key : K) : List K := (key :: cached.erase key).take cap

theorem nodup_mostRecent (ks : List K) : (mostRecent ks).Nodup :=
  List.nodup_reverse.mpr (List.nodup_dedup ks)

theorem length_mostRecent (ks : List K) : (mostRecent ks).length = ks.dedup.length :=
  List.length_reverse

theorem dedup_concat (ks : List K) (k : K) : (ks ++ [k]).dedup = ks.dedup.erase k ++ [k] := by
  induction ks with
  | nil => simp
  | cons a ks ih =>
    by_cases hak : a = k
    · subst a
      rw [List.cons_append, List.dedup_cons_of_mem (by simp), ih]
      by_cases hk : k ∈ ks
      · rw [List.dedup_cons_of_mem hk]
      · rw [List.dedup_cons_of_notMem hk, List.erase_cons_head, List.erase_of_not_mem (by simpa)]
    · by_cases ha : a ∈ ks
      · rw [List.cons_append, List.dedup_cons_of_mem (by simp [ha]), ih,
          List.dedup_cons_of_mem ha]
      · rw [List.cons_append, List.dedup_cons_of_notMem (by simp [ha, hak]), ih,
          List.dedup_cons_of_notMem ha, List.erase_cons_tail (by simpa using hak)]
        rfl

/-- An access brings its key to the front and keeps the order of the others. -/
theorem mostRecent_concat (ks : List K) (k : K) :
    mostRecent (ks ++ [k]) = k :: (mostRecent ks).erase k := by
  have herase : (ks.dedup.erase k).reverse = ks.dedup.reverse.erase k := by
    rw [(List.nodup_dedup ks).erase_eq_filter,
      (List.nodup_reverse.mpr (List.nodup_dedup ks)).erase_eq_filter, List.filter_reverse]
  unfold mostRecent
  rw [dedup_concat, List.reverse_append, herase]
  rfl

/-- Putting an erased key back leaves what stands ahead of the other keys. -/
theorem split_of_erase {l xs ys : List K} {a k : K} (hnodup : l.Nodup)
    (h : l.erase a = xs ++ k :: ys) :
    ∃ xs' ys', l = xs' ++ k :: ys' ∧ ∀ k', k' ≠ a → (k' ∈ xs' ↔ k' ∈ xs) := by
  by_cases ha : a ∈ l
  · obtain ⟨us, vs, rfl⟩ := List.append_of_mem ha
    have hus : a ∉ us := fun hmem => (List.nodup_append.mp hnodup).2.2 a hmem a (by simp) rfl
    rw [List.erase_append_right _ hus, List.erase_cons_head] at h
    rcases List.append_eq_append_iff.mp h with ⟨ws, hxs, hvs⟩ | ⟨ws, hus', hvs⟩
    · refine ⟨us ++ a :: ws, ys, by simp [hvs], ?_⟩
      intro k' hne
      simp [hxs, hne]
    · cases ws with
      | nil =>
        rw [List.nil_append] at hvs
        refine ⟨us ++ [a], ys, by simp [← hvs], ?_⟩
        intro k' hne
        simp [hus', hne]
      | cons w ws =>
        obtain ⟨rfl, hys⟩ := List.cons.inj hvs
        exact ⟨xs, ws ++ a :: vs, by simp [hus'], fun _ _ => Iff.rfl⟩
  · rw [List.erase_of_not_mem ha] at h
    exact ⟨xs, ys, h, fun _ _ => Iff.rfl⟩

/-- The keys ahead of `k` are exactly those accessed after the last access to `k`. -/
theorem mostRecent_split {ks xs ys : List K} {k : K} (h : mostRecent ks = xs ++ k :: ys) :
    ∃ before after, ks = before ++ k :: after ∧ k ∉ after ∧ ∀ k', k' ∈ after ↔ k' ∈ xs := by
  induction ks using List.reverseRecOn generalizing xs ys with
  | nil =>
    have hnil : mostRecent ([] : List K) = [] := rfl
    simp [hnil] at h
  | append_singleton ks a ih =>
    rw [mostRecent_concat] at h
    cases xs with
    | nil =>
      obtain ⟨rfl, -⟩ := List.cons.inj h
      exact ⟨ks, [], rfl, by simp, by simp⟩
    | cons x xs =>
      obtain ⟨rfl, htail⟩ := List.cons.inj h
      have hnodup := nodup_mostRecent (ks ++ [a])
      rw [mostRecent_concat, htail] at hnodup
      have hka : k ≠ a := by
        intro heq
        subst heq
        simp at hnodup
      obtain ⟨xs', ys', hxs', hmem⟩ := split_of_erase (nodup_mostRecent ks) htail
      obtain ⟨before, after, hks, hk, hafter⟩ := ih hxs'
      refine ⟨before, after ++ [a], by simp [hks], by simp [hk, hka], ?_⟩
      intro k'
      by_cases hne : k' = a
      · simp [hne]
      · simp [hne, hafter k', hmem k' hne]

theorem take_erase_take (l : List K) (k : K) (n : ℕ) :
    ((l.take (n + 1)).erase k).take n = (l.erase k).take n := by
  induction l generalizing n with
  | nil => simp
  | cons a l ih =>
    rw [List.take_succ_cons]
    by_cases ha : a = k
    · subst a
      rw [List.erase_cons_head, List.erase_cons_head, List.take_take, Nat.min_self]
    · rw [List.erase_cons_tail (by simpa using ha), List.erase_cons_tail (by simpa using ha)]
      cases n with
      | zero => simp
      | succ n => rw [List.take_succ_cons, List.take_succ_cons, ih n]

/-- Dropping old keys early loses nothing: the cache is always a prefix of the closed form. -/
theorem touch_take (cap : ℕ) (ks : List K) (k : K) :
    touch cap ((mostRecent ks).take cap) k = (mostRecent (ks ++ [k])).take cap := by
  unfold touch
  rw [mostRecent_concat]
  cases cap with
  | zero => simp
  | succ n => rw [List.take_succ_cons, List.take_succ_cons, take_erase_take]

section Cases
variable {cap : ℕ} {xs ys : List K} {k e : K}

/-- An access to a cached key drops nothing. -/
theorem touch_hit (hk : k ∉ xs) (hlen : (xs ++ k :: ys).length ≤ cap) :
    touch cap (xs ++ k :: ys) k = k :: (xs ++ ys) := by
  unfold touch
  rw [List.erase_append_right _ hk, List.erase_cons_head]
  apply List.take_of_length_le
  simp only [List.length_cons, List.length_append] at hlen ⊢
  omega

/-- With room left a new key drops nothing. -/
theorem touch_room (hk : k ∉ xs) (hlen : xs.length < cap) : touch cap xs k = k :: xs := by
  unfold touch
  rw [List.erase_of_not_mem hk]
  exact List.take_of_length_le hlen

/-- A new key in a full cache drops the last one. -/
theorem touch_full (hk : k ∉ xs ++ [e]) (hlen : (xs ++ [e]).length = cap) :
    touch cap (xs ++ [e]) k = k :: xs := by
  unfold touch
  rw [List.erase_of_not_mem hk, ← hlen, List.length_append, List.length_singleton,
    List.take_succ_cons, List.take_left]

/-- The key accessed last stands in front. -/
theorem touch_self (hcap : 1 ≤ cap) (cached : List K) (k : K) :
    ∃ rest, touch cap cached k = k :: rest := by
  obtain ⟨n, rfl⟩ : ∃ n, cap = n + 1 := ⟨cap - 1, by omega⟩
  exact ⟨_, List.take_succ_cons⟩

/-- A key stays cached as long as the keys ahead of it come from a set smaller than the
cache. -/
theorem touch_ahead {k₀ : K} {A : List K} (hnodup : (xs ++ k₀ :: ys).Nodup) (hne : k ≠ k₀)
    (hk : k ∈ A) (hxs : xs ⊆ A) (hlen : A.length < cap) :
    ∃ xs' ys', touch cap (xs ++ k₀ :: ys) k = xs' ++ k₀ :: ys' ∧ xs' ⊆ A := by
  have hnodupxs : xs.Nodup := (List.nodup_append.mp hnodup).1
  obtain ⟨xs', rest, herase, hsub, hnodup'⟩ : ∃ xs' rest,
      k :: (xs ++ k₀ :: ys).erase k = xs' ++ k₀ :: rest ∧ xs' ⊆ A ∧ xs'.Nodup := by
    by_cases hin : k ∈ xs
    · refine ⟨k :: xs.erase k, ys, ?_, ?_, ?_⟩
      · rw [List.erase_append_left _ hin]
        rfl
      · exact List.cons_subset.mpr ⟨hk, fun a ha => hxs (List.mem_of_mem_erase ha)⟩
      · exact List.nodup_cons.mpr ⟨hnodupxs.not_mem_erase, hnodupxs.erase k⟩
    · refine ⟨k :: xs, ys.erase k, ?_, List.cons_subset.mpr ⟨hk, hxs⟩,
        List.nodup_cons.mpr ⟨hin, hnodupxs⟩⟩
      rw [List.erase_append_right _ hin, List.erase_cons_tail (by simpa using hne.symm)]
      rfl
  have hfew := (hnodup'.subperm hsub).length_le
  obtain ⟨n, hn⟩ : ∃ n, cap - xs'.length = n + 1 := ⟨cap - xs'.length - 1, by omega⟩
  refine ⟨xs', rest.take n, ?_, hsub⟩
  rw [touch, herase, List.take_append, List.take_of_length_le (by omega), hn, List.take_succ_cons]

end Cases

/-- An access to a cached key changes the order only. -/
theorem mem_touch_hit {cap : ℕ} {cached : List K} {k : K} (hk : k ∈ cached)
    (hnodup : cached.Nodup) (hlen : cached.length ≤ cap) (k' : K) :
    k' ∈ touch cap cached k ↔ k' ∈ cached := by
  obtain ⟨xs, ys, rfl⟩ := List.append_of_mem hk
  have hxs : k ∉ xs := fun hmem => (List.nodup_append.mp hnodup).2.2 k hmem k (by simp) rfl
  rw [touch_hit hxs hlen]
  exact List.perm_middle.symm.mem_iff

/-- A new key in a full cache drops the one key whose last access is oldest. -/
theorem touch_victim {cap : ℕ} {ks : List K} {k : K} (hcap : 1 ≤ cap)
    (hfull : ((mostRecent ks).take cap).length = cap) (hk : k ∉ (mostRecent ks).take cap) :
    ∃ victim before after, ks = before ++ victim :: after ∧ victim ∉ after ∧
      victim ∈ (mostRecent ks).take cap ∧
      (∀ k' ∈ (mostRecent ks).take cap, k' ≠ victim → k' ∈ after) ∧
      ∀ k', k' ∈ touch cap ((mostRecent ks).take cap) k ↔
        k' = k ∨ (k' ∈ (mostRecent ks).take cap ∧ k' ≠ victim) := by
  have hnodup := (nodup_mostRecent ks).sublist (List.take_sublist cap _)
  rcases ((mostRecent ks).take cap).eq_nil_or_concat' with hnil | ⟨xs, victim, heq⟩
  · rw [hnil, List.length_nil] at hfull
    omega
  · have hsplit : mostRecent ks = xs ++ victim :: (mostRecent ks).drop cap := by
      have happ := List.take_append_drop cap (mostRecent ks)
      rw [heq, List.append_assoc] at happ
      exact happ.symm
    obtain ⟨before, after, hks, hnot, hafter⟩ := mostRecent_split hsplit
    rw [heq] at hfull hk hnodup ⊢
    have hvictim : victim ∉ xs :=
      fun hmem => (List.nodup_append.mp hnodup).2.2 victim hmem victim (by simp) rfl
    refine ⟨victim, before, after, hks, hnot, by simp, ?_, ?_⟩
    · intro k' hmem hne
      rw [hafter]
      simpa [hne] using hmem
    · intro k'
      rw [touch_full hk hfull, List.mem_cons, List.mem_append, List.mem_singleton]
      have hne : k' ∈ xs → k' ≠ victim := fun hmem heq => hvictim (heq ▸ hmem)
      tauto

/-- The accesses of a trace that find their key outside the cache, after the trace `seen`. -/
def misses (cap : ℕ) (seen : List K) : List K → ℕ
  | [] => 0
  | k :: ks => (if k ∈ (mostRecent seen).take cap then 0 else 1) + misses cap (seen ++ [k]) ks

section Misses
variable {cap cap' : ℕ}

/-- What a small cache holds a larger one holds too. -/
theorem take_subset_take (h : cap ≤ cap') (ks : List K) :
    (mostRecent ks).take cap ⊆ (mostRecent ks).take cap' :=
  ((List.take_prefix_take_left h).sublist).subset

/-- A larger cache never misses more often. -/
theorem misses_antitone (h : cap ≤ cap') (seen ks : List K) :
    misses cap' seen ks ≤ misses cap seen ks := by
  induction ks generalizing seen with
  | nil => exact Nat.le_refl _
  | cons k ks ih =>
    have hrest := ih (seen ++ [k])
    have hhit : k ∈ (mostRecent seen).take cap → k ∈ (mostRecent seen).take cap' :=
      fun hk => take_subset_take h seen hk
    unfold misses
    by_cases hk : k ∈ (mostRecent seen).take cap
    · rw [if_pos hk, if_pos (hhit hk)]
      omega
    · rw [if_neg hk]
      split <;> omega

theorem mem_mostRecent (ks : List K) (k : K) : k ∈ mostRecent ks ↔ k ∈ ks := by
  rw [mostRecent, List.mem_reverse, List.mem_dedup]

omit [DecidableEq K] in
/-- The accesses behind the last access to a key are determined. -/
theorem after_last_unique {before before' after after' : List K} {k : K}
    (h : before ++ k :: after = before' ++ k :: after') (hk : k ∉ after) (hk' : k ∉ after') :
    after = after' := by
  rcases List.append_eq_append_iff.mp h with ⟨ws, -, htail⟩ | ⟨ws, -, htail⟩
  · cases ws with
    | nil => exact (List.cons.inj htail).2
    | cons w ws =>
      obtain ⟨-, hafter⟩ := List.cons.inj htail
      exact absurd (by simp [hafter]) hk
  · cases ws with
    | nil => exact (List.cons.inj htail).2.symm
    | cons w ws =>
      obtain ⟨-, hafter⟩ := List.cons.inj htail
      exact absurd (by simp [hafter]) hk'

/-- A key whose last access lies behind accesses to as many other keys as fit is gone. -/
theorem not_mem_take_of_after {before after : List K} {k : K} (hk : k ∉ after)
    (hcap : cap ≤ after.dedup.length) : k ∉ (mostRecent (before ++ k :: after)).take cap := by
  intro hmem
  obtain ⟨xs, ys, htake⟩ := List.append_of_mem hmem
  have hsplit : mostRecent (before ++ k :: after) =
      xs ++ k :: (ys ++ (mostRecent (before ++ k :: after)).drop cap) := by
    have happ := List.take_append_drop cap (mostRecent (before ++ k :: after))
    rw [htake, List.append_assoc, List.cons_append] at happ
    exact happ.symm
  obtain ⟨before', after', heq, hk', hafter⟩ := mostRecent_split hsplit
  obtain rfl := after_last_unique heq hk hk'
  have hsub : after.dedup ⊆ xs := fun a ha => (hafter a).mp (List.mem_dedup.mp ha)
  have hfew := ((List.nodup_dedup after).subperm hsub).length_le
  have hlen := congrArg List.length htake
  rw [List.length_take, List.length_append, List.length_cons] at hlen
  omega

/-- While every key fits, each key misses once. -/
theorem misses_fits (seen ks : List K) (hfits : (seen ++ ks).dedup.length ≤ cap) :
    misses cap seen ks + seen.dedup.length = (seen ++ ks).dedup.length := by
  induction ks generalizing seen with
  | nil => simp [misses]
  | cons k ks ih =>
    have hassoc : seen ++ k :: ks = seen ++ [k] ++ ks := by simp
    rw [hassoc] at hfits ⊢
    have hrest := ih (seen ++ [k]) hfits
    have hsub : seen.dedup ⊆ (seen ++ [k] ++ ks).dedup := by
      intro a ha
      simp [List.mem_dedup.mp ha]
    have hlen := ((List.nodup_dedup seen).subperm hsub).length_le
    have htake : (mostRecent seen).take cap = mostRecent seen :=
      List.take_of_length_le (by rw [length_mostRecent]; omega)
    rw [misses, htake]
    by_cases hk : k ∈ seen
    · have hsame : (seen ++ [k]).dedup.length = seen.dedup.length := by
        rw [dedup_concat, List.length_append, List.length_erase_of_mem (List.mem_dedup.mpr hk)]
        have hpos := List.length_pos_of_mem (List.mem_dedup.mpr hk)
        simp only [List.length_singleton]
        omega
      rw [if_pos ((mem_mostRecent seen k).mpr hk)]
      omega
    · have hmore : (seen ++ [k]).dedup.length = seen.dedup.length + 1 := by
        rw [dedup_concat, List.erase_of_not_mem (mt List.mem_dedup.mp hk), List.length_append]
        rfl
      rw [if_neg (mt (mem_mostRecent seen k).mp hk)]
      omega

theorem misses_append (seen ks ks' : List K) :
    misses cap seen (ks ++ ks') = misses cap seen ks + misses cap (seen ++ ks) ks' := by
  induction ks generalizing seen with
  | nil => simp [misses]
  | cons k ks ih =>
    rw [List.cons_append, misses, misses, ih, List.append_assoc, Nat.add_assoc]
    rfl

/-- Keys that were never accessed before all miss. -/
theorem misses_new {seen ks : List K} (hnew : ∀ k ∈ ks, k ∉ seen) (hnodup : ks.Nodup) :
    misses cap seen ks = ks.length := by
  induction ks generalizing seen with
  | nil => rfl
  | cons k ks ih =>
    obtain ⟨hk, hrest⟩ := List.nodup_cons.mp hnodup
    have hmiss : k ∉ (mostRecent seen).take cap := fun hmem =>
      hnew k (by simp) ((mem_mostRecent seen k).mp (List.mem_of_mem_take hmem))
    rw [misses, if_neg hmiss, ih _ hrest, List.length_cons, Nat.add_comm]
    intro k' hk' hmem
    rcases List.mem_append.mp hmem with hseen | hself
    · exact hnew k' (by simp [hk']) hseen
    · rw [List.mem_singleton] at hself
      exact hk (hself ▸ hk')

/-- A scan of more keys than fit finds none of them left from the scan before it. -/
theorem misses_rescan {before ks : List K} (hnodup : ks.Nodup) (hlen : cap < ks.length) :
    misses cap (before ++ ks) ks = ks.length := by
  have hpart : ∀ done rest, done ++ rest = ks →
      misses cap (before ++ ks ++ done) rest = rest.length := by
    intro done rest hks
    induction rest generalizing done with
    | nil => rfl
    | cons k rest ih =>
      have hnodup' := hnodup
      rw [← hks] at hnodup'
      have hk : k ∉ rest ++ done := by
        have hperm : (k :: (rest ++ done)).Nodup := by
          refine (List.Perm.nodup_iff ?_).mp hnodup'
          exact List.perm_append_comm
        exact (List.nodup_cons.mp hperm).1
      have hfull : cap ≤ (rest ++ done).dedup.length := by
        have hboth : (rest ++ done).Nodup := by
          have hperm : (k :: (rest ++ done)).Nodup :=
            (List.Perm.nodup_iff List.perm_append_comm).mp hnodup'
          exact (List.nodup_cons.mp hperm).2
        rw [hboth.dedup, List.length_append]
        rw [← hks, List.length_append, List.length_cons] at hlen
        omega
      have hmiss : k ∉ (mostRecent (before ++ ks ++ done)).take cap := by
        have hseen : before ++ ks ++ done = before ++ done ++ k :: (rest ++ done) := by
          simp [← hks]
        rw [hseen]
        exact not_mem_take_of_after hk hfull
      have hnext := ih (done ++ [k]) (by simp [← hks])
      rw [misses, if_neg hmiss, List.append_assoc, hnext, List.length_cons, Nat.add_comm]
  have hall := hpart [] ks rfl
  rwa [List.append_nil] at hall

/-- Scanning more keys than fit again and again misses at every access. -/
theorem misses_scans {ks : List K} (hnodup : ks.Nodup) (hlen : cap < ks.length) (n : ℕ) :
    misses cap [] (List.replicate n ks).flatten = n * ks.length := by
  induction n with
  | zero => simp [misses]
  | succ n ih =>
    rw [List.replicate_succ', List.flatten_append, misses_append, ih, List.nil_append,
      List.flatten_singleton, Nat.succ_mul]
    congr 1
    cases n with
    | zero => exact misses_new (by simp) hnodup
    | succ n =>
      rw [List.replicate_succ', List.flatten_append, List.flatten_singleton]
      exact misses_rescan hnodup hlen

end Misses

end Recency
