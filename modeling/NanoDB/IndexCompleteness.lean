import NanoDB.IndexAgreement

/-!
What a built index answers, against the records of the file. A look-up finds a key exactly
when some record has it; the entry lists all positions of the key, in the order of the scan,
exactly when they are not more than an entry has room for.
-/
namespace NanoDB.IndexCompleteness

open CTypes DiskManager RecordScan AVLTree AVLIndex IndexAgreement ScanAgreement

def ScanBefore (p r : ℕ × ℕ) : Prop := p.1 < r.1 ∨ (p.1 = r.1 ∧ p.2 < r.2)

/-- The index has entries of at least one position only. -/
structure Populated (idx : AVLIndex) : Prop where
  tree_ok : idx.tree.Invariant
  nonempty : ∀ key entry, idx.search key = some entry → entry.locs ≠ []

theorem populated_new : Populated AVLIndex.new :=
  ⟨invariant_new, fun _ _ hsome => by contradiction⟩

/-- An entry that takes a position is not empty, also when it had no room. -/
theorem add_ne_nil (e : IndexEntry) (pid ri : ℕ) : (e.add pid ri).locs ≠ [] := by
  unfold IndexEntry.add
  split
  · simp
  · rename_i hfull
    intro hnil
    rw [hnil] at hfull
    exact hfull (by decide)

theorem Populated.insert {idx : AVLIndex} (h : Populated idx) (key : Int32) (pid ri : ℕ) :
    Populated (idx.insert key pid ri) := by
  obtain ⟨entry, hins⟩ : ∃ entry : IndexEntry,
      idx.insert key pid ri = { idx with tree := idx.tree.insert key (entry.add pid ri) } := by
    unfold AVLIndex.insert
    split
    · rename_i existing _
      exact ⟨existing, rfl⟩
    · exact ⟨IndexEntry.new, rfl⟩
  rw [hins]
  refine ⟨h.tree_ok.step (.insert key (entry.add pid ri)), ?_⟩
  intro k found hfound
  have hsearch := search_step h.tree_ok (.insert key (entry.add pid ri)) k
  change (idx.tree.insert key (entry.add pid ri)).search k = some found at hfound
  change (idx.tree.insert key (entry.add pid ri)).search k =
    if k = key then some (entry.add pid ri) else idx.tree.search k at hsearch
  rw [hsearch] at hfound
  by_cases hk : k = key
  · rw [if_pos hk] at hfound
    rw [← Option.some.inj hfound]
    exact add_ne_nil entry pid ri
  · rw [if_neg hk] at hfound
    exact h.nonempty k found hfound

section Build
variable (D : Type) [CDouble D] (path : FilePath) (schema : TableSchema) (colIndex : ℕ)

theorem populated_buildRecord {idx : AVLIndex} (h : Populated idx) (page : Page) (pid ri : ℕ) :
    Populated (buildRecord D schema colIndex page pid idx ri) := by
  unfold buildRecord
  cases (page.getRow schema ri : Option (Row D)) with
  | none => exact h
  | some row =>
    dsimp only
    cases keyOf colIndex row with
    | none => exact h
    | some key => exact h.insert key pid ri

theorem populated_buildPage {idx : AVLIndex} (h : Populated idx) (disk : Disk) (pid : ℕ) :
    Populated (buildPage D path schema colIndex disk idx pid) := by
  unfold buildPage
  dsimp only
  split
  · exact List.foldlRecOn _ _ h fun idx hidx ri _ =>
      populated_buildRecord D schema colIndex hidx _ pid ri
  · exact h

theorem populated_build (disk : Disk) :
    Populated (build D path schema colIndex disk AVLIndex.new) := by
  have hpages : Populated ((List.range (pageCount path disk)).foldl
      (buildPage D path schema colIndex disk) AVLIndex.new) :=
    List.foldlRecOn _ _ populated_new fun idx hidx pid _ =>
      populated_buildPage D path schema colIndex hidx disk pid
  exact ⟨hpages.tree_ok, hpages.nonempty⟩

def RecordHas (disk : Disk) (key : Int32) (p : ℕ × ℕ) : Prop :=
  p.1 < pageCount path disk ∧ p.2 < slotCount (filePage disk path p.1) ∧
    keyOf colIndex (Page.rowAt schema (filePage disk path p.1) p.2 : Row D) = some key

def recordsWith (disk : Disk) (key : Int32) : List (ℕ × ℕ) :=
  keyPositions D { schema with filePath := path } colIndex disk key

structure Complete (disk : Disk) (idx : AVLIndex) (key : Int32) : Prop where
  found_iff : (∃ entry, idx.search key = some entry) ↔
    ∃ p, RecordHas D path schema colIndex disk key p
  listed_iff : ∀ entry, idx.search key = some entry →
    ∀ p, p ∈ entry.locs ↔ RecordHas D path schema colIndex disk key p
  in_order : ∀ entry, idx.search key = some entry → entry.locs.Pairwise ScanBefore

variable {D path schema colIndex}
variable {disk : Disk} {key : Int32}

theorem mem_recordsWith {p : ℕ × ℕ} : p ∈ recordsWith D path schema colIndex disk key ↔
    RecordHas D path schema colIndex disk key p := by
  obtain ⟨pid, ri⟩ := p
  unfold recordsWith keyPositions
  rw [mem_positions]
  have hslot : ri ∈ keySlots D { schema with filePath := path } colIndex key
      (filePage disk path pid) (slotCount (filePage disk path pid)) ↔
      ri < slotCount (filePage disk path pid) ∧
        keyOf colIndex (Page.rowAt schema (filePage disk path pid) ri : Row D) = some key := by
    unfold keySlots slots
    rw [List.mem_filter, List.mem_range, decide_eq_true_eq]
    rfl
  exact and_congr_right fun _ => hslot

theorem recordsWith_nodup : (recordsWith D path schema colIndex disk key).Nodup :=
  nodup_positions (fun _ => List.nodup_range.filter _) _

/-- The positions come page by page and within a page by slot. -/
theorem positions_in_order {slotsOf : ℕ → List ℕ} (h : ∀ pid, (slotsOf pid).Pairwise (· < ·))
    (n : ℕ) : ((List.range n).flatMap fun pid => (slotsOf pid).map (pid, ·)).Pairwise
      ScanBefore := by
  rw [List.pairwise_flatMap]
  refine ⟨?_, ?_⟩
  · intro pid _
    rw [List.pairwise_map]
    exact (h pid).imp fun hlt => Or.inr ⟨rfl, hlt⟩
  · refine List.pairwise_lt_range.imp ?_
    intro pid pid' hlt p hp r hr
    obtain ⟨_, -, rfl⟩ := List.mem_map.mp hp
    obtain ⟨_, -, rfl⟩ := List.mem_map.mp hr
    exact Or.inl hlt

theorem recordsWith_in_order :
    (recordsWith D path schema colIndex disk key).Pairwise ScanBefore :=
  positions_in_order (fun _ => List.pairwise_lt_range.filter _) _

/-- The entry of a key has the first `MAX_LOCS` positions of its records. -/
theorem search_build {entry : IndexEntry}
    (h : (build D path schema colIndex disk AVLIndex.new).search key = some entry) :
    entry.locs = (recordsWith D path schema colIndex disk key).take MAX_LOCS := by
  have hanswer := (build_holds D { schema with filePath := path } colIndex disk).answers key
  change (build D path schema colIndex disk AVLIndex.new).locations key = _ at hanswer
  unfold locations at hanswer
  rw [h] at hanswer
  exact hanswer

theorem search_build_none (h : (build D path schema colIndex disk AVLIndex.new).search key = none) :
    recordsWith D path schema colIndex disk key = [] := by
  have hanswer := (build_holds D { schema with filePath := path } colIndex disk).answers key
  change (build D path schema colIndex disk AVLIndex.new).locations key = _ at hanswer
  unfold locations at hanswer
  rw [h] at hanswer
  have hempty : (recordsWith D path schema colIndex disk key).take MAX_LOCS = [] := hanswer.symm
  simpa using hempty

/-- A key is found exactly when some record has it, whatever the number of records. -/
theorem found_build : (∃ entry, (build D path schema colIndex disk AVLIndex.new).search key =
      some entry) ↔ ∃ p, RecordHas D path schema colIndex disk key p := by
  constructor
  · rintro ⟨entry, hentry⟩
    have hne := (populated_build D path schema colIndex disk).nonempty key entry hentry
    obtain ⟨p, hp⟩ := List.exists_mem_of_ne_nil entry.locs hne
    rw [search_build hentry] at hp
    exact ⟨p, mem_recordsWith.mp (List.mem_of_mem_take hp)⟩
  · rintro ⟨p, hp⟩
    cases hsearch : (build D path schema colIndex disk AVLIndex.new).search key with
    | some entry => exact ⟨entry, rfl⟩
    | none =>
      have hmem := mem_recordsWith.mpr hp
      rw [search_build_none hsearch] at hmem
      contradiction

/-- An entry that lists all positions of a key has room for them. -/
theorem Complete.length_le {idx : AVLIndex} (h : Complete D path schema colIndex disk idx key)
    {ps : List (ℕ × ℕ)} (hnodup : ps.Nodup)
    (hps : ∀ p ∈ ps, RecordHas D path schema colIndex disk key p) : ps.length ≤ MAX_LOCS := by
  cases ps with
  | nil => exact Nat.zero_le _
  | cons p ps =>
    obtain ⟨entry, hentry⟩ := h.found_iff.mpr ⟨p, hps p List.mem_cons_self⟩
    have hsub : p :: ps ⊆ entry.locs := fun r hr => (h.listed_iff entry hentry r).mpr (hps r hr)
    exact (hnodup.subperm hsub).length_le.trans entry.count_le

variable (D path schema colIndex disk key) in
/-- The look-ups of a built index are complete exactly for the keys that at most `MAX_LOCS`
records share. -/
theorem build_complete_iff :
    Complete D path schema colIndex disk (build D path schema colIndex disk AVLIndex.new) key ↔
      (recordsWith D path schema colIndex disk key).length ≤ MAX_LOCS := by
  constructor
  · intro hcomplete
    exact hcomplete.length_le recordsWith_nodup fun p hp => mem_recordsWith.mp hp
  · intro hfew
    have hlocs : ∀ entry : IndexEntry,
        (build D path schema colIndex disk AVLIndex.new).search key = some entry →
          entry.locs = recordsWith D path schema colIndex disk key := by
      intro entry hentry
      rw [search_build hentry, List.take_of_length_le hfew]
    refine ⟨found_build, ?_, ?_⟩
    · intro entry hentry p
      rw [hlocs entry hentry]
      exact mem_recordsWith
    · intro entry hentry
      rw [hlocs entry hentry]
      exact recordsWith_in_order

end Build

/-- Page 0 with 33 records that are all zero and no next page. -/
def crowdedPage : PageData := fun j =>
  if j.val = 4 then 33 else if 8 ≤ j.val ∧ j.val < 12 then 255 else 0

def keySchema : TableSchema := makeSchema "t" "db_files/t.db" [intColumn "k"]

def crowdedDisk : Disk := ⟨fun _ => some (pageBytes crowdedPage), []⟩

/-- With 33 records of one key the last position is not listed. -/
theorem build_drops_position :
    ¬ Complete ℤ keySchema.filePath keySchema 0 crowdedDisk
      (build ℤ keySchema.filePath keySchema 0 crowdedDisk AVLIndex.new) 0 := by
  intro hcomplete
  have hrecords : ∀ p ∈ (List.range 33).map fun ri => (0, ri),
      RecordHas ℤ keySchema.filePath keySchema 0 crowdedDisk 0 p := by
    unfold RecordHas
    decide +kernel
  have hnodup : ((List.range 33).map fun ri => (0, ri)).Nodup := by decide
  have hle := hcomplete.length_le hnodup hrecords
  exact absurd hle (by decide)

end NanoDB.IndexCompleteness
