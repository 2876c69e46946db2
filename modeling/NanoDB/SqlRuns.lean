import NanoDB.EngineRuns
import NanoDB.FlushVisibility
import NanoDB.JoinExecutor

/-!
SQL texts as events of the engine. A text that is parsed and is not a join is one event.
A join fetches pages below the page counts only, so it is a list of page reads, and a
text that is not parsed does nothing. What holds for every run of the engine therefore
holds for every sequence of texts.
-/
namespace NanoDB.SqlRuns

open CTypes BufferPool DiskManager Executor Engine FlushVisibility

variable {D : Type} [CDouble D]

def isRead : Event D → Bool
  | .read _ _ => true
  | _ => false

def ReadsTo (D : Type) [CDouble D] (catalog : SystemCatalog) (s s' : Storage) : Prop :=
  ∃ events : List (Event D), (∀ e ∈ events, isRead e = true) ∧ run catalog s events = s'

namespace ReadsTo

variable {catalog : SystemCatalog} {s s' s'' : Storage} {schema : TableSchema}

theorem refl (catalog : SystemCatalog) (s : Storage) : ReadsTo D catalog s s :=
  ⟨[], by simp, rfl⟩

theorem trans (h : ReadsTo D catalog s s') (h' : ReadsTo D catalog s' s'') :
    ReadsTo D catalog s s'' := by
  obtain ⟨events, hread, rfl⟩ := h
  obtain ⟨events', hread', rfl⟩ := h'
  refine ⟨events ++ events', ?_, List.foldl_append⟩
  intro e he
  rcases List.mem_append.mp he with hmem | hmem
  · exact hread e hmem
  · exact hread' e hmem

theorem grows (h : ReadsTo D catalog s s') : FilesGrow s s' := by
  obtain ⟨events, -, rfl⟩ := h
  exact run_grows catalog s events

/-- A fetch below the page count of a registered table is a page read. -/
theorem fetch {name : List Byte} (hschema : catalog.getSchema name = some schema) {pid : ℕ}
    (hpid : pid < pageCount schema.filePath s.disk) :
    ReadsTo D catalog s (fetchTable schema pid s).2 := by
  refine ⟨[.read name [pid]], by simp [isRead], ?_⟩
  simp [run, step, readPages, hschema, Engine.readPage, hpid]

/-- A loop whose rounds read pages reads pages; its rounds see the files grown only. -/
theorem foldl {A B : Type} (storage : A → Storage) (round : A → B → A) (bs : List B) (acc : A)
    (h : ∀ acc' b, b ∈ bs → FilesGrow (storage acc) (storage acc') →
      ReadsTo D catalog (storage acc') (storage (round acc' b))) :
    ReadsTo D catalog (storage acc) (storage (bs.foldl round acc)) := by
  induction bs generalizing acc with
  | nil => exact refl catalog _
  | cons b bs ih =>
    have hfirst := h acc b (by simp) (FilesGrow.refl _)
    refine hfirst.trans (ih _ ?_)
    intro acc' b' hb' hgrow
    exact h acc' b' (by simp [hb']) (hfirst.grows.trans hgrow)

end ReadsTo

section Join
variable {catalog : SystemCatalog} {s0 s1 : TableSchema} {name0 : List Byte}
  {inner : Option TableSchema} {L : ℤ}

theorem joinPage_reads {name1 : List Byte} (h1 : catalog.getSchema name1 = some s1) (r0 : Row D)
    (acc : JoinState D) {pid : ℕ} (hpid : pid < pageCount s1.filePath acc.2.disk) :
    ReadsTo D catalog acc.2 (joinPage s1 L r0 acc pid).2 := by
  rw [joinPage]
  split
  · exact ReadsTo.fetch h1 hpid
  · exact ReadsTo.refl catalog _

theorem joinRow_reads (hinner : ∀ s1 ∈ inner, ∃ name1, catalog.getSchema name1 = some s1)
    (r0 : Row D) (acc : JoinState D) : ReadsTo D catalog acc.2 (joinRow inner L r0 acc).2 := by
  cases inner with
  | none => exact ReadsTo.refl catalog _
  | some s1 =>
    obtain ⟨name1, h1⟩ := hinner s1 rfl
    apply ReadsTo.foldl (D := D) Prod.snd
    intro acc' pid hpid hgrow
    exact joinPage_reads h1 r0 acc' ((List.mem_range.mp hpid).trans_le (hgrow s1.filePath))

theorem joinRecords_reads (hinner : ∀ s1 ∈ inner, ∃ name1, catalog.getSchema name1 = some s1)
    (f fuel ri0 : ℕ) (acc : JoinState D) :
    ReadsTo D catalog acc.2 (joinRecords s0 inner L f fuel ri0 acc).2 := by
  induction fuel generalizing ri0 acc with
  | zero => exact ReadsTo.refl catalog _
  | succ fuel ih =>
    rw [joinRecords]
    split
    · refine ReadsTo.trans (D := D) ?_ (ih _ _)
      cases ((acc.2.pool.pages f).getRow s0 ri0 : Option (Row D)) with
      | none => exact ReadsTo.refl catalog _
      | some r0 => exact joinRow_reads hinner r0 acc
    · exact ReadsTo.refl catalog _

theorem joinOuterPage_reads (h0 : catalog.getSchema name0 = some s0)
    (hinner : ∀ s1 ∈ inner, ∃ name1, catalog.getSchema name1 = some s1) (acc : JoinState D)
    {pid : ℕ} (hpid : pid < pageCount s0.filePath acc.2.disk) :
    ReadsTo D catalog acc.2 (joinOuterPage s0 inner L acc pid).2 := by
  rw [joinOuterPage]
  split
  · have hfetch := ReadsTo.fetch (D := D) h0 hpid
    exact hfetch.trans (joinRecords_reads hinner _ _ 0 (acc.1, (fetchTable s0 pid acc.2).2))
  · exact ReadsTo.refl catalog _

/-- A join of any tables, registered or not, reads pages only. -/
theorem executeJoin_reads (catalog : SystemCatalog) (t1 : List Byte) (t2 t3 : Option (List Byte))
    (L : ℤ) (s : Storage) :
    ReadsTo D catalog s (executeJoin catalog t1 t2 t3 L s : JoinState D).2 := by
  rw [executeJoin]
  split
  · exact ReadsTo.refl catalog s
  · rename_i first rest _
    split
    · exact ReadsTo.refl catalog s
    · rename_i s0 h0
      have hinner : ∀ s1 ∈ (rest.head?.bind fun t => catalog.getSchema t.val), ∃ name1,
          catalog.getSchema name1 = some s1 := by
        intro s1 hs1
        obtain ⟨t, -, ht⟩ := Option.bind_eq_some_iff.mp hs1
        exact ⟨t.val, ht⟩
      apply ReadsTo.foldl (D := D) Prod.snd _ _ (([], s) : JoinState D)
      intro acc pid hpid hgrow
      exact joinOuterPage_reads h0 hinner acc
        ((List.mem_range.mp hpid).trans_le (hgrow s0.filePath))

end Join

def statement (q : ParsedQuery D) : Option (Event D) :=
  match q.type with
  | .SELECT => if q.joinTables.isEmpty then some (.select q) else none
  | .INSERT => some (.insert q)
  | .UPDATE => some (.update q)
  | .DELETE => some (.delete q)
  | .UNKNOWN => none

/-- A text together with what the memory of its query held before. -/
abbrev Text (D : Type) := List Byte × ParsedQuery D

def textStatement (t : Text D) : Option (Event D) :=
  if (Parser.parse t.1 t.2).1 then statement (Parser.parse t.1 t.2).2 else none

def textReported (t : Text D) (outcome : Outcome D) : Option ℕ :=
  match textStatement t with
  | some (.select _) => some outcome.selected.length
  | _ => none

def sqlStep (catalog : SystemCatalog) (s : Storage) (t : Text D) : Storage :=
  (executeSQL catalog t.1 t.2 s).storage

def sqlRun (catalog : SystemCatalog) (s : Storage) (texts : List (Text D)) : Storage :=
  texts.foldl (sqlStep catalog) s

def sqlReports (catalog : SystemCatalog) (s : Storage) : List (Text D) → List ℕ
  | [] => []
  | t :: texts => (textReported t (executeSQL catalog t.1 t.2 s)).toList ++
    sqlReports catalog (sqlStep catalog s t) texts

def SettledTexts (catalog : SystemCatalog) (s : Storage) : List (Text D) → Prop
  | [] => True
  | t :: texts => (∀ e ∈ textStatement t, ∀ schema ∈ table catalog e, Settled schema s) ∧
    SettledTexts catalog (sqlStep catalog s t) texts

instance decidableSettledTexts (catalog : SystemCatalog) :
    (s : Storage) → (texts : List (Text D)) → Decidable (SettledTexts catalog s texts)
  | _, [] => inferInstanceAs (Decidable True)
  | s, t :: texts =>
    have : Decidable (SettledTexts catalog (sqlStep catalog s t) texts) :=
      decidableSettledTexts catalog _ texts
    inferInstanceAs (Decidable (_ ∧ _))

section Texts
variable (catalog : SystemCatalog)

/-- What executing a parsed statement can be: one event, or page reads. -/
theorem executeParsed_cases (q : ParsedQuery D) (s : Storage) :
    (∃ e, statement q = some e ∧ isRead e = false ∧
      (executeParsed catalog q s).storage = step catalog s e ∧
      ∀ q', e = .select q' →
        reported catalog s e = some (executeParsed catalog q s).selected.length) ∨
    (statement q = none ∧ ReadsTo D catalog s (executeParsed catalog q s).storage) := by
  unfold statement
  rw [executeParsed]
  cases htype : q.type with
  | INSERT => exact Or.inl ⟨.insert q, rfl, rfl, rfl, fun q' h => by simp at h⟩
  | UPDATE => exact Or.inl ⟨.update q, rfl, rfl, rfl, fun q' h => by simp at h⟩
  | DELETE => exact Or.inl ⟨.delete q, rfl, rfl, rfl, fun q' h => by simp at h⟩
  | UNKNOWN => exact Or.inr ⟨rfl, ReadsTo.refl catalog s⟩
  | SELECT =>
    dsimp only
    rw [executeQuery]
    cases hjoin : q.joinTables with
    | nil =>
      refine Or.inl ⟨.select q, rfl, rfl, ?_, fun _ _ => ?_⟩
      · cases hschema : catalog.getSchema q.tableName.val with
        | none => simp [step, executeSelect, hschema]
        | some schema => simp [step, executeSelect, hschema]
      · cases hschema : catalog.getSchema q.tableName.val with
        | none => simp [reported, executeSelect, hschema]
        | some schema => simp [reported, executeSelect, hschema]
    | cons t2 rest => exact Or.inr ⟨rfl, executeJoin_reads catalog _ _ _ 20 s⟩

/-- What executing a text can be: its event with the count of that event, or page reads
without a count. -/
theorem sqlStep_cases (t : Text D) (s : Storage) :
    (∃ e, textStatement t = some e ∧ isRead e = false ∧ sqlStep catalog s t = step catalog s e ∧
      textReported t (executeSQL catalog t.1 t.2 s) = reported catalog s e) ∨
    (textStatement t = none ∧ ReadsTo D catalog s (sqlStep catalog s t) ∧
      textReported t (executeSQL catalog t.1 t.2 s) = none) := by
  unfold sqlStep executeSQL textReported textStatement
  generalize Parser.parse t.1 t.2 = parsed
  obtain ⟨accepted, q⟩ := parsed
  cases accepted with
  | false => exact Or.inr ⟨rfl, ReadsTo.refl catalog s, rfl⟩
  | true =>
    simp only [if_true]
    rcases executeParsed_cases catalog q s with ⟨e, he, hread, hstep, hcount⟩ | ⟨hnone, hreads⟩
    · refine Or.inl ⟨e, he, hread, hstep, ?_⟩
      rw [he]
      cases e with
      | select q' => exact (hcount q' rfl).symm
      | _ => rfl
    · refine Or.inr ⟨hnone, hreads, ?_⟩
      rw [hnone]

/-- Page reads are no statements and report nothing. -/
theorem reads_silent (s : Storage) (events : List (Event D))
    (h : ∀ e ∈ events, isRead e = true) :
    (events.filter fun e => !isRead e) = [] ∧ reports catalog s events = [] := by
  constructor
  · rw [List.filter_eq_nil_iff]
    intro e he
    simp [h e he]
  · induction events generalizing s with
    | nil => rfl
    | cons e events ih =>
      obtain ⟨name, pids, rfl⟩ : ∃ name pids, e = .read name pids := by
        have he := h e (by simp)
        cases e with
        | read name pids => exact ⟨name, pids, rfl⟩
        | _ => simp [isRead] at he
      exact ih _ fun e he => h e (by simp [he])

theorem reports_append (s : Storage) (events events' : List (Event D)) :
    reports catalog s (events ++ events') =
      reports catalog s events ++ reports catalog (run catalog s events) events' := by
  induction events generalizing s with
  | nil => rfl
  | cons e events ih =>
    rw [List.cons_append, reports, reports, ih, List.append_assoc]
    rfl

theorem reads_settled (s : Storage) (events : List (Event D))
    (h : ∀ e ∈ events, isRead e = true) (rest : List (Event D))
    (hrest : SettledRun catalog (run catalog s events) rest) :
    SettledRun catalog s (events ++ rest) := by
  induction events generalizing s with
  | nil => exact hrest
  | cons e events ih =>
    refine ⟨fun schema hschema => ?_, ih _ (fun e he => h e (by simp [he])) hrest⟩
    have he := h e (by simp)
    cases e with
    | read name pids => simp [table] at hschema
    | _ => simp [isRead] at he

/-- The events of a sequence of texts: they lead to the same state, are the statements of
the texts apart from page reads, report the same counts and are settled with the texts. -/
theorem sqlRun_trace (texts : List (Text D)) (s : Storage) : ∃ events : List (Event D),
    sqlRun catalog s texts = run catalog s events ∧
      (events.filter fun e => !isRead e) = texts.filterMap textStatement ∧
      sqlReports catalog s texts = reports catalog s events ∧
      (SettledTexts catalog s texts → SettledRun catalog s events) := by
  induction texts generalizing s with
  | nil => exact ⟨[], rfl, rfl, rfl, fun _ => trivial⟩
  | cons t texts ih =>
    obtain ⟨rest, hrun, hstatements, hreports, hsettled⟩ := ih (sqlStep catalog s t)
    rw [sqlReports, hreports]
    rcases sqlStep_cases catalog t s with ⟨e, he, hread, hstep, hcount⟩ | ⟨hnone, hreads, hcount⟩
    · refine ⟨e :: rest, ?_, ?_, ?_, ?_⟩
      · change sqlRun catalog (sqlStep catalog s t) texts = _
        rw [hrun, hstep]
        rfl
      · rw [List.filterMap_cons_some he, List.filter_cons, hread, hstatements]
        rfl
      · rw [hcount, hstep]
        rfl
      · intro hset
        refine ⟨hset.1 e he, ?_⟩
        rw [← hstep]
        exact hsettled hset.2
    · obtain ⟨events, hall, hend⟩ := hreads
      obtain ⟨hskip, hsilent⟩ := reads_silent catalog s events hall
      refine ⟨events ++ rest, ?_, ?_, ?_, ?_⟩
      · change sqlRun catalog (sqlStep catalog s t) texts = _
        rw [hrun, ← hend]
        exact List.foldl_append.symm
      · rw [List.filter_append, hskip, hstatements, List.filterMap_cons_none hnone, List.nil_append]
      · rw [reports_append, hsilent, hcount, hend]
        rfl
      · intro hset
        apply reads_settled catalog s events hall
        rw [hend]
        exact hsettled hset.2

/-- A sequence of SQL texts is a run of the engine. Its statements are those of the
accepted texts that are not joins, in their order, and the counts it reports are theirs. -/
theorem sqlRun_events (texts : List (Text D)) (s : Storage) : ∃ events : List (Event D),
    sqlRun catalog s texts = run catalog s events ∧
      (events.filter fun e => !isRead e) = texts.filterMap textStatement ∧
      sqlReports catalog s texts = reports catalog s events := by
  obtain ⟨events, hrun, hstatements, hreports, -⟩ := sqlRun_trace catalog texts s
  exact ⟨events, hrun, hstatements, hreports⟩

end Texts

end NanoDB.SqlRuns
