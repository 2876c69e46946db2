import NanoDB.FileBounds
import NanoDB.GeneratedFiles

/-!
The start of the two programs (main.cpp, test_runner.cpp). Each registers the three tables,
generates the dataset if files are missing, opens a pool and executes texts. What `main`
finds missing it generates for all three tables; the test runner looks at one file only.
-/
namespace NanoDB.Startup

open CTypes Page BufferPool DiskManager PoolInvariant PoolCoherence SlottedPage DataGenerator
open GeneratedFiles
open Engine Database WrittenPages RecordScan RelationalRefinement Sessions SqlRuns SqlSessions
open FileBounds

variable {D : Type} [CDouble D]

def CUSTOMER_COUNT : ℕ := 20000
def ORDER_COUNT : ℕ := 30000
def LINEITEM_COUNT : ℕ := 50000

theorem noFiles_faults : noFiles.faults = [] := rfl

section Programs
variable (scale : ℕ → String → String → D)

/-- The three routines as both programs call them; the orders may name as many customers as
there are orders. -/
def generateFiles (customers orders lineitems : ℕ) (disk : Disk) : Disk :=
  generateLineitems scale makeLineitemSchema lineitems (Int32.ofNat orders)
    makeLineitemSchema.filePath
    (generateOrders scale makeOrdersSchema orders (Int32.ofNat orders) makeOrdersSchema.filePath
      (generateCustomers scale makeCustomerSchema customers makeCustomerSchema.filePath disk))

def generateDataset (disk : Disk) : Disk :=
  generateFiles scale CUSTOMER_COUNT ORDER_COUNT LINEITEM_COUNT disk

def needGen (disk : Disk) : Bool :=
  pageCount makeCustomerSchema.filePath disk = 0 || pageCount makeOrdersSchema.filePath disk = 0 ||
    pageCount makeLineitemSchema.filePath disk = 0

def prepare (disk : Disk) : Disk := if needGen disk then generateDataset scale disk else disk

def runnerPrepare (disk : Disk) : Disk :=
  if pageCount makeCustomerSchema.filePath disk = 0 then generateDataset scale disk else disk

def mainLives (disk : Disk) (xs : List (Session (Text D))) : Disk :=
  xs.foldl (fun disk x => x.shutdown (sqlRun tpch.catalog) (prepare scale disk)) disk

def mainReports (disk : Disk) : List (Session (Text D)) → List ℕ
  | [] => []
  | x :: xs => sqlReports tpch.catalog (start x.capacity (prepare scale disk)) x.script ++
    mainReports (x.shutdown (sqlRun tpch.catalog) (prepare scale disk)) xs

def customersMade (customers : ℕ) : List (Row D) :=
  (madeRows makeCustomerSchema (fun i => customerFields scale (Int32.ofNat (i + 1)))
    customers 42).1

def ordersMade (orders : ℕ) : List (Row D) :=
  (madeRows makeOrdersSchema (fun i =>
    ordersFields scale (Int32.ofNat orders) (Int32.ofNat (i + 1))) orders 123).1

def lineitemsMade (orders lineitems : ℕ) : List (Row D) :=
  (madeRows makeLineitemSchema (fun i =>
    lineitemFields scale (Int32.ofNat orders) (Int32.ofNat i)) lineitems 789).1

/-- The dataset as bags of rows, as they are stored. -/
def dataset (customers orders lineitems : ℕ) : Tables D := fun path =>
  if path = makeCustomerSchema.filePath then
    ((customersMade scale customers).map (storedRow makeCustomerSchema) : List (Row D))
  else if path = makeOrdersSchema.filePath then
    ((ordersMade scale orders).map (storedRow makeOrdersSchema) : List (Row D))
  else if path = makeLineitemSchema.filePath then
    ((lineitemsMade scale orders lineitems).map (storedRow makeLineitemSchema) : List (Row D))
  else 0

end Programs

section Generate
variable {schema : TableSchema} {path : FilePath} {make : ℕ → StateM UInt32 (List (Field D))}
  {disk : Disk}

/-- Only the file it is called for is changed by a routine. -/
theorem generate_frame (hok : disk.faults = []) (n : ℕ) (seed : UInt32) :
    (generate schema path make n seed disk).faults = [] ∧ ∀ other, other ≠ path →
      contents (generate schema path make n seed disk) other = contents disk other := by
  have hwrite : ∀ (page : Page) (now : Disk), (now.faults = [] ∧ ∀ other, other ≠ path →
        contents now other = contents disk other) →
      (writePage path page now).2.faults = [] ∧ ∀ other, other ≠ path →
        contents (writePage path page now).2 other = contents disk other := by
    intro page now h
    refine ⟨writePage_faults h.1, fun other hother => ?_⟩
    rw [contents_writePage h.1, if_neg hother]
    exact h.2 other hother
  have hloop : ∀ k, ((List.range k).foldl (generateRow schema path make)
        ⟨Page.init 0, 0, seed, truncateFile path disk⟩).disk.faults = [] ∧ ∀ other, other ≠ path →
      contents ((List.range k).foldl (generateRow schema path make)
        ⟨Page.init 0, 0, seed, truncateFile path disk⟩).disk other = contents disk other := by
    intro k
    induction k with
    | zero =>
      refine ⟨hok, fun other hother => ?_⟩
      simp [contents, truncateFile, hother]
    | succ k ih =>
      rw [List.range_succ, List.foldl_append, List.foldl_cons, List.foldl_nil, generateRow]
      split
      · exact ih
      · exact hwrite _ _ ih
  unfold generate
  dsimp only
  split
  · exact hwrite _ _ (hloop n)
  · exact hloop n

theorem laid_congr {disk' : Disk} {made : List (Row D)} (h : Laid schema path disk made)
    (hsame : contents disk' path = contents disk path) : Laid schema path disk' made := by
  have hpage : ∀ i, pageAt disk' path i = pageAt disk path i := by
    intro i
    have hfile : filePage disk' path i = filePage disk path i := by
      unfold filePage
      rw [hsame]
    rw [pageAt, pageAt, hfile]
  constructor
  · rw [hsame]
    exact h.size
  · intro i hi
    rw [hpage]
    exact h.page i hi

/-- What a routine leaves are records of the row writer. -/
theorem laid_written {made : List (Row D)} (h : Laid schema path disk made) {i : ℕ}
    (hi : i < pageCount path disk) : Written D schema (filePage disk path i) := by
  rw [h.pageCount_eq] at hi
  have hpage := h.page i hi
  have hcount : recordCount (filePage disk path i) = (chunk schema made i).length := hpage.count
  have hfits := hpage.fits
  constructor
  · rw [CountOk, hcount]
    exact ⟨Int.natCast_nonneg _, by omega⟩
  · intro j hj
    rw [slotCount, hcount, Int.toNat_natCast] at hj
    exact ⟨(chunk schema made i).get ⟨j, hj⟩, hpage.typed _ (List.get_mem _ _),
      hpage.stored j _ (List.getElem?_eq_getElem hj)⟩

end Generate

section Dataset
variable (scale : ℕ → String → String → D) {disk : Disk}

theorem tpch_paths : makeCustomerSchema.filePath ≠ makeOrdersSchema.filePath ∧
    makeCustomerSchema.filePath ≠ makeLineitemSchema.filePath ∧
    makeOrdersSchema.filePath ≠ makeLineitemSchema.filePath := by decide

/-- A routine lays its own file and keeps the files laid before. -/
theorem generate_adds {schema : TableSchema} (path : FilePath)
    {make : ℕ → StateM UInt32 (List (Field D))} (hok : disk.faults = [])
    (hrpp : 1 ≤ schema.recordsPerPage)
    (hmake : ∀ i, Yields (make i) fun fs => fs.map Field.type = schema.columns.map ColumnDef.type)
    (n : ℕ) (seed : UInt32) :
    (generate schema path make n seed disk).faults = [] ∧
      Laid schema path (generate schema path make n seed disk) (madeRows schema make n seed).1 ∧
      ∀ (schema' : TableSchema) (path' : FilePath) (made : List (Row D)), path' ≠ path →
        Laid schema' path' disk made →
          Laid schema' path' (generate schema path make n seed disk) made := by
  obtain ⟨hfaults, hothers⟩ := @generate_frame D _ schema path make disk hok n seed
  refine ⟨hfaults, generate_laid hok hrpp (fun i seed => (newRow_of_types (hmake i seed)).2) n seed,
    fun schema' path' made hne hlaid => ?_⟩
  exact laid_congr hlaid (hothers path' hne)

/-- Every file of the dataset has its rows, page after page. -/
theorem generateFiles_laid (hok : disk.faults = []) (customers orders lineitems : ℕ)
    (horders : 1 ≤ (Int32.ofNat orders).toInt) :
    (generateFiles scale customers orders lineitems disk).faults = [] ∧
      Laid makeCustomerSchema makeCustomerSchema.filePath
        (generateFiles scale customers orders lineitems disk) (customersMade scale customers) ∧
      Laid makeOrdersSchema makeOrdersSchema.filePath
        (generateFiles scale customers orders lineitems disk) (ordersMade scale orders) ∧
      Laid makeLineitemSchema makeLineitemSchema.filePath
        (generateFiles scale customers orders lineitems disk)
        (lineitemsMade scale orders lineitems) := by
  obtain ⟨hco, hcl, hol⟩ := tpch_paths
  have hc := tpch_fits makeCustomerSchema (by simp [tpch])
  have ho := tpch_fits makeOrdersSchema (by simp [tpch])
  have hl := tpch_fits makeLineitemSchema (by simp [tpch])
  unfold generateFiles generateCustomers generateOrders generateLineitems
  obtain ⟨hok1, hlaid1, -⟩ := generate_adds makeCustomerSchema.filePath hok hc
    (fun i seed => (customerFields_spec scale (Int32.ofNat (i + 1)) seed).1) customers 42
  obtain ⟨hok2, hlaid2, hkeep2⟩ := generate_adds makeOrdersSchema.filePath hok1 ho
    (fun i seed => (ordersFields_spec scale horders (Int32.ofNat (i + 1)) seed).1) orders 123
  obtain ⟨hok3, hlaid3, hkeep3⟩ := generate_adds makeLineitemSchema.filePath hok2 hl
    (fun i seed => (lineitemFields_spec scale horders (Int32.ofNat i) seed).1) lineitems 789
  exact ⟨hok3, hkeep3 _ _ _ hcl (hkeep2 _ _ _ hco hlaid1), hkeep3 _ _ _ hol hlaid2, hlaid3⟩

/-- The generated files hold the dataset. -/
theorem generateFiles_hold (hok : disk.faults = []) (customers orders lineitems : ℕ)
    (horders : 1 ≤ (Int32.ofNat orders).toInt) :
    FilesHold tpch (generateFiles scale customers orders lineitems disk)
      (dataset scale customers orders lineitems) := by
  obtain ⟨hco, hcl, hol⟩ := tpch_paths
  obtain ⟨-, hc, ho, hl⟩ := generateFiles_laid scale hok customers orders lineitems horders
  constructor
  · intro t ht i hi
    rcases (mem_tpch_iff t).mp ht with rfl | rfl | rfl
    · exact laid_written hc hi
    · exact laid_written ho hi
    · exact laid_written hl hi
  · intro t ht
    have hfits := tpch_fits t ht
    rcases (mem_tpch_iff t).mp ht with rfl | rfl | rfl
    · rw [hc.fileRows_eq hfits, dataset, if_pos rfl]
    · rw [ho.fileRows_eq hfits, dataset, if_neg hco.symm, if_pos rfl]
    · rw [hl.fileRows_eq hfits, dataset, if_neg hcl.symm, if_neg hol.symm, if_pos rfl]

theorem generateFiles_pageCount (hok : disk.faults = []) (customers orders lineitems : ℕ)
    (horders : 1 ≤ (Int32.ofNat orders).toInt) :
    pageCount makeCustomerSchema.filePath (generateFiles scale customers orders lineitems disk) =
        pagesFor makeCustomerSchema customers ∧
      pageCount makeOrdersSchema.filePath (generateFiles scale customers orders lineitems disk) =
        pagesFor makeOrdersSchema orders ∧
      pageCount makeLineitemSchema.filePath (generateFiles scale customers orders lineitems disk) =
        pagesFor makeLineitemSchema lineitems := by
  obtain ⟨-, hc, ho, hl⟩ := generateFiles_laid scale hok customers orders lineitems horders
  have hcustomers := hc.pageCount_eq
  have horders := ho.pageCount_eq
  have hlineitems := hl.pageCount_eq
  rw [customersMade, madeRows_length] at hcustomers
  rw [ordersMade, madeRows_length] at horders
  rw [lineitemsMade, madeRows_length] at hlineitems
  exact ⟨hcustomers, horders, hlineitems⟩

theorem order_count_pos : 1 ≤ (Int32.ofNat ORDER_COUNT).toInt := by decide

/-- The sizes of the generated files. -/
theorem generateDataset_pageCount (hok : disk.faults = []) :
    pageCount makeCustomerSchema.filePath (generateDataset scale disk) = 910 ∧
      pageCount makeOrdersSchema.filePath (generateDataset scale disk) = 1035 ∧
      pageCount makeLineitemSchema.filePath (generateDataset scale disk) = 2000 := by
  obtain ⟨hc, ho, hl⟩ := generateFiles_pageCount scale hok CUSTOMER_COUNT ORDER_COUNT LINEITEM_COUNT
    order_count_pos
  have hpages : pagesFor makeCustomerSchema CUSTOMER_COUNT = 910 ∧
      pagesFor makeOrdersSchema ORDER_COUNT = 1035 ∧
      pagesFor makeLineitemSchema LINEITEM_COUNT = 2000 := by decide +kernel
  rw [hpages.1] at hc
  rw [hpages.2.1] at ho
  rw [hpages.2.2] at hl
  exact ⟨hc, ho, hl⟩

theorem needGen_eq_false_iff (disk : Disk) : needGen disk = false ↔
    0 < pageCount makeCustomerSchema.filePath disk ∧
      0 < pageCount makeOrdersSchema.filePath disk ∧
      0 < pageCount makeLineitemSchema.filePath disk := by
  simp [needGen, Nat.pos_iff_ne_zero, and_assoc]

theorem prepare_faults (hok : disk.faults = []) : (prepare scale disk).faults = [] := by
  unfold prepare
  split
  · rw [generateDataset]
    exact (generateFiles_laid scale hok _ _ _ order_count_pos).1
  · exact hok

/-- After the start of `main` no table is missing. -/
theorem needGen_prepare (hok : disk.faults = []) : needGen (prepare scale disk) = false := by
  unfold prepare
  split
  · obtain ⟨hc, ho, hl⟩ := generateDataset_pageCount scale hok
    rw [needGen_eq_false_iff, hc, ho, hl]
    omega
  · rename_i h
    simpa using h

/-- The test runner starts from the files of `main` unless it finds the customers and misses
another table; then it runs without that table. -/
theorem runnerPrepare_eq_iff (hok : disk.faults = []) :
    runnerPrepare scale disk = prepare scale disk ↔
    pageCount makeCustomerSchema.filePath disk = 0 ∨ needGen disk = false := by
  by_cases hcustomers : pageCount makeCustomerSchema.filePath disk = 0
  · have hgen : needGen disk = true := by simp [needGen, hcustomers]
    simp [runnerPrepare, prepare, hcustomers, hgen]
  · cases hgen : needGen disk with
    | false => simp [runnerPrepare, prepare, hcustomers, hgen]
    | true =>
      have hdone := needGen_prepare scale hok
      have hne : disk ≠ prepare scale disk := by
        intro heq
        rw [← heq, hgen] at hdone
        contradiction
      simpa [runnerPrepare, hcustomers] using hne

theorem prepare_holds (hok : disk.faults = []) {tables : Tables D}
    (hfiles : needGen disk = false → FilesHold tpch disk tables) :
    FilesHold tpch (prepare scale disk) (if needGen disk then
      dataset scale CUSTOMER_COUNT ORDER_COUNT LINEITEM_COUNT else tables) := by
  unfold prepare
  cases h : needGen disk with
  | true =>
    rw [if_pos rfl, if_pos rfl, generateDataset]
    exact generateFiles_hold scale hok CUSTOMER_COUNT ORDER_COUNT LINEITEM_COUNT order_count_pos
  | false =>
    rw [if_neg Bool.false_ne_true, if_neg Bool.false_ne_true]
    exact hfiles h

end Dataset

section Keys
variable {schema : TableSchema} {path : FilePath} {disk : Disk}

/-- Records of a laid file are the stored rows of the routine. -/
theorem laid_get {make : ℕ → StateM UInt32 (List (Field D))} {P : ℕ → List (Field D) → Prop}
    {n : ℕ} {seed : UInt32} (h : Laid schema path disk (madeRows schema make n seed).1)
    (hrpp : 1 ≤ schema.recordsPerPage)
    (hmake : ∀ i, Yields (make i) fun fs =>
      fs.map Field.type = schema.columns.map ColumnDef.type ∧ P i fs) :
    ∀ k, k < n → ∃ fs : List (Field D), fs.map Field.type = schema.columns.map ColumnDef.type ∧
      P k fs ∧ (fileRows schema path disk)[k]? = some (storedRow schema (newRow schema fs)) := by
  intro k hk
  obtain ⟨seed', hget⟩ : ∃ seed', (madeRows schema make n seed).1[k]? = _ := madeRows_get n seed hk
  obtain ⟨htypes, hP⟩ := hmake k seed'
  refine ⟨_, htypes, hP, ?_⟩
  rw [h.fileRows_eq hrpp, List.getElem?_map, hget]
  rfl

/-- Keys that run from 1 to `n` hold every key up to `n` once and no other. -/
theorem keysRun_countP {n : ℕ} (h : KeysRun D schema path disk n) {k : ℤ} (hk : 1 ≤ k) :
    (fileRows schema path disk : List (Row D)).countP (fun row => intAt row 0 = some k) =
      if k ≤ n then 1 else 0 := by
  have hcount :
      (fileRows schema path disk : List (Row D)).countP (fun row => intAt row 0 = some k) =
        ((fileRows schema path disk : List (Row D)).map fun row => intAt row 0).count (some k) := by
    rw [List.count, List.countP_map]
    apply List.countP_congr
    intro row _
    simp
  have hkeys : (fileRows schema path disk : List (Row D)).map (fun row => intAt row 0) =
      (List.range n).map fun j : ℕ => some ((j : ℤ) + 1) := h
  have hnodup : ((List.range n).map fun j : ℕ => some ((j : ℤ) + 1)).Nodup :=
    List.nodup_range.map fun i j hij => by simpa using hij
  rw [hcount, hkeys]
  split
  · rename_i hle
    refine List.count_eq_one_of_mem hnodup (List.mem_map.mpr ⟨(k - 1).toNat, ?_, ?_⟩)
    · rw [List.mem_range]
      omega
    · rw [Option.some.injEq]
      omega
  · rename_i hle
    refine List.count_eq_zero_of_not_mem fun hmem => ?_
    obtain ⟨j, hj, heq⟩ := List.mem_map.mp hmem
    rw [List.mem_range] at hj
    rw [Option.some.injEq] at heq
    omega

variable (scale : ℕ → String → String → D)

/-- In the generated files every line item belongs to one order. An order belongs to one
customer exactly if its customer key is within the number of customers, and the routine is
given the number of orders as its bound. -/
theorem generateFiles_foreignKeys (hok : disk.faults = []) (customers orders lineitems : ℕ)
    (hcustomers : customers < 2147483647) (horders : 1 ≤ orders ∧ orders < 2147483647)
    (hlineitems : lineitems < 2147483647) :
    let files := generateFiles scale customers orders lineitems disk
    let found := fun schema row i => (fileRows schema schema.filePath files : List (Row D)).countP
      fun parent : Row D => intAt parent 0 = intAt row i
    (∀ row ∈ (fileRows makeLineitemSchema makeLineitemSchema.filePath files : List (Row D)),
        found makeOrdersSchema row 0 = 1) ∧
      ∀ row ∈ (fileRows makeOrdersSchema makeOrdersSchema.filePath files : List (Row D)),
        ∃ k : ℤ, intAt row 1 = some k ∧ 1 ≤ k ∧ k ≤ orders ∧
          found makeCustomerSchema row 1 = if k ≤ customers then 1 else 0 := by
  intro files found
  have hm : (Int32.ofNat orders).toInt = orders := Int32.toInt_ofNat_of_lt (by omega)
  have hm1 : 1 ≤ (Int32.ofNat orders).toInt := by omega
  obtain ⟨-, hc, ho, hl⟩ := generateFiles_laid scale hok customers orders lineitems hm1
  have hcfits := tpch_fits makeCustomerSchema (by simp [tpch])
  have hofits := tpch_fits makeOrdersSchema (by simp [tpch])
  have hlfits := tpch_fits makeLineitemSchema (by simp [tpch])
  have hcget := laid_get hc hcfits fun i => customerFields_spec scale (Int32.ofNat (i + 1))
  have hoget := laid_get ho hofits fun i => ordersFields_spec scale hm1 (Int32.ofNat (i + 1))
  have hlget := laid_get hl hlfits fun i => lineitemFields_spec scale hm1 (Int32.ofNat i)
  have hccomplete := hc.complete hcfits (by rw [customersMade, madeRows_length]; omega)
  have hocomplete := ho.complete hofits (by rw [ordersMade, madeRows_length]; omega)
  have hlcomplete := hl.complete hlfits (by rw [lineitemsMade, madeRows_length]; omega)
  rw [customersMade, madeRows_length] at hccomplete
  rw [ordersMade, madeRows_length] at hocomplete
  rw [lineitemsMade, madeRows_length] at hlcomplete
  have hckeys := keysRun_of_get hcustomers hcfits hccomplete hcget
  have hokeys := keysRun_of_get horders.2 hofits hocomplete fun k hk => by
    obtain ⟨fs, hfs, hP, hrow⟩ := hoget k hk
    exact ⟨fs, hfs, hP.1, hrow⟩
  have howithin := keysWithin_of_get (i := 1) hofits hocomplete fun k hk => by
    obtain ⟨fs, hfs, hP, hrow⟩ := hoget k hk
    exact ⟨fs, hfs, hP.2, hrow⟩
  have hlwithin := keysWithin_of_get (i := 0) hlfits hlcomplete hlget
  constructor
  · intro row hrow
    obtain ⟨k, hk, hlow, hup⟩ := hlwithin row hrow
    simp only [found, hk]
    rw [keysRun_countP hokeys hlow, if_pos (by omega)]
  · intro row hrow
    obtain ⟨k, hk, hlow, hup⟩ := howithin row hrow
    refine ⟨k, hk, hlow, by omega, ?_⟩
    simp only [found, hk]
    exact keysRun_countP hckeys hlow

end Keys

section Lives
variable (scale : ℕ → String → String → D) {disk : Disk}

theorem sqlShutdown_grows (catalog : SystemCatalog) (x : Session (Text D)) (disk : Disk)
    (path : FilePath) :
    pageCount path disk ≤ pageCount path (x.shutdown (sqlRun catalog) disk) := by
  obtain ⟨events, hrun, -⟩ := sqlRun_trace catalog x.script (start x.capacity disk)
  have hgrow := (run_grows catalog (start x.capacity disk) events).trans (flushAll_grows _)
  rw [← hrun] at hgrow
  exact hgrow path

/-- Only the first life of `main` can find a table missing. -/
theorem mainLives_eq (x : Session (Text D)) (xs : List (Session (Text D))) (disk : Disk)
    (h : needGen (prepare scale disk) = false) :
    mainLives scale disk (x :: xs) = lives (sqlRun tpch.catalog) (prepare scale disk) (x :: xs) ∧
      mainReports scale disk (x :: xs) = livesReports (sqlRun tpch.catalog)
        (sqlReports tpch.catalog) (prepare scale disk) (x :: xs) := by
  induction xs generalizing x disk with
  | nil => exact ⟨rfl, rfl⟩
  | cons y xs ih =>
    have hkept : needGen (x.shutdown (sqlRun tpch.catalog) (prepare scale disk)) = false := by
      rw [needGen_eq_false_iff] at h ⊢
      have hgrow := sqlShutdown_grows tpch.catalog x (prepare scale disk)
      exact ⟨h.1.trans_le (hgrow _), h.2.1.trans_le (hgrow _), h.2.2.trans_le (hgrow _)⟩
    have hsame : prepare scale (x.shutdown (sqlRun tpch.catalog) (prepare scale disk)) =
        x.shutdown (sqlRun tpch.catalog) (prepare scale disk) := by
      rw [prepare, if_neg (by simp [hkept])]
    obtain ⟨hlives, hreports⟩ := ih y (x.shutdown (sqlRun tpch.catalog) (prepare scale disk))
      (by rw [hsame]; exact hkept)
    rw [hsame] at hlives hreports
    constructor
    · exact hlives
    · rw [mainReports, hreports]
      rfl

omit [CDouble D] in
/-- With room for a page for every statement the page keys stay apart. -/
theorem keysDistinct_of_room (disk : Disk) (events : List (Event D))
    (hroom : ∀ t ∈ tpch.tables, pageCount t.filePath disk + events.length < 98967296) :
    tpch.KeysDistinct (sized fun path =>
      pageCount path disk + insertCount tpch.catalog path events) := by
  have hbound : ∀ t ∈ tpch.tables, pageCount t.filePath (sized fun path =>
      pageCount path disk + insertCount tpch.catalog path events) < 98967296 := by
    intro t ht
    have hcount : insertCount tpch.catalog t.filePath events ≤ events.length :=
      List.countP_le_length
    have hfits := hroom t ht
    rw [pageCount_sized]
    omega
  rw [tpch_keysDistinct_iff]
  have hc := hbound makeCustomerSchema (by simp [tpch])
  have ho := hbound makeOrdersSchema (by simp [tpch])
  have hl := hbound makeLineitemSchema (by simp [tpch])
  omega

/-- Any number of lives of `main`, settled and with fewer statements than the page keys allow
for, report what the bags say of all their statements: the bags of the files it found, or
those of the dataset if some table was missing. The files hold these bags in the end. -/
theorem main_refines_tables (hbits : ∀ d : D, CDouble.ofBytes (CDouble.toBytes d) = d)
    (hok : disk.faults = []) {tables : Tables D}
    (hfiles : needGen disk = false → FilesHold tpch disk tables)
    (x : Session (Text D)) (xs : List (Session (Text D)))
    (hroom : ∀ t ∈ tpch.tables, pageCount t.filePath (prepare scale disk) +
      (statements (x :: xs)).length < 98967296)
    (hset : SettledLives (sqlRun tpch.catalog) (SettledTexts tpch.catalog) (prepare scale disk)
      (x :: xs)) :
    let found := if needGen disk then dataset scale CUSTOMER_COUNT ORDER_COUNT LINEITEM_COUNT
      else tables
    mainReports scale disk (x :: xs) =
        tablesReports tpch.catalog found (statements (x :: xs)) ∧
      FilesHold tpch (mainLives scale disk (x :: xs))
        (tablesRun tpch.catalog found (statements (x :: xs))) := by
  have hkeys := keysDistinct_of_room (prepare scale disk) (statements (x :: xs)) hroom
  have hok' := prepare_faults scale hok
  obtain ⟨hlives, hreports⟩ := mainLives_eq scale x xs disk (needGen_prepare scale hok)
  obtain ⟨-, hfinal⟩ := sqlLives_pages (x :: xs) hok' hkeys
  obtain ⟨hcounts, hholds⟩ := sqlLives_refine_tables hbits tpch_fits (x :: xs) hok'
    (prepare_holds scale hok hfiles) hfinal hset
  dsimp only
  rw [hlives, hreports]
  exact ⟨hcounts, hholds⟩

end Lives

def insertsLast : List (Text D) → Bool
  | [] => true
  | t :: texts => (texts.isEmpty || !(textStatement t).any isInsert) && insertsLast texts

section Settled
variable {db : Database} {U : PageUniverse} {s : Storage} {st : Store}

theorem sqlRun_grows (catalog : SystemCatalog) (s : Storage) (texts : List (Text D)) :
    FilesGrow s (sqlRun catalog s texts) := by
  obtain ⟨events, hrun, -⟩ := sqlRun_trace catalog texts s
  rw [hrun]
  exact run_grows catalog s events

/-- Statements other than INSERT leave every table with all its pages on disk. -/
theorem run_steady (events : List (Event D)) (hnone : ∀ e ∈ events, isInsert e = false)
    (hcoh : Coherent U s st) (h : Steady db s st)
    (hU : CoversAll U db (run db.catalog s events).disk) :
    ∃ st', Coherent U (run db.catalog s events) st' ∧ Steady db (run db.catalog s events) st' := by
  induction events generalizing s st with
  | nil => exact ⟨st, hcoh, h⟩
  | cons e events ih =>
    obtain ⟨st', hcoh', h'⟩ := step_steady h hcoh e (hnone e (by simp))
      (hU.mono (run_grows db.catalog _ events))
    exact ih (fun e he => hnone e (by simp [he])) hcoh' h' hU

theorem sqlStep_steady (t : Text D) (hnone : (textStatement t).any isInsert = false)
    (hcoh : Coherent U s st) (h : Steady db s st)
    (hU : CoversAll U db (sqlStep db.catalog s t).disk) :
    ∃ st', Coherent U (sqlStep db.catalog s t) st' ∧ Steady db (sqlStep db.catalog s t) st' := by
  rcases sqlStep_cases db.catalog t s with ⟨e, he, -, hstep, -⟩ | ⟨-, ⟨events, hreads, hrun⟩, -⟩
  · rw [he] at hnone
    rw [hstep] at hU ⊢
    exact step_steady h hcoh e hnone hU
  · rw [← hrun] at hU ⊢
    refine run_steady events (fun e he => ?_) hcoh h hU
    have hread := hreads e he
    cases e with
    | insert q => simp [isRead] at hread
    | _ => rfl

/-- Texts whose INSERTs come last meet no page that waits to be written. -/
theorem settledTexts_of_insertsLast (texts : List (Text D)) (hlast : insertsLast texts = true)
    (hcoh : Coherent U s st) (h : Steady db s st)
    (hU : CoversAll U db (sqlRun db.catalog s texts).disk) : SettledTexts db.catalog s texts := by
  induction texts generalizing s st with
  | nil => trivial
  | cons t texts ih =>
    have hgrown := hU.mono (sqlRun_grows db.catalog (sqlStep db.catalog s t) texts)
    have hstep : FilesGrow s (sqlStep db.catalog s t) := sqlRun_grows db.catalog s [t]
    rw [insertsLast, Bool.and_eq_true, Bool.or_eq_true] at hlast
    refine ⟨fun e _ => h.settled hcoh (hgrown.mono hstep) e, ?_⟩
    rcases hlast.1 with hempty | hnone
    · rw [List.isEmpty_iff.mp hempty]
      trivial
    · obtain ⟨st', hcoh', h'⟩ := sqlStep_steady t (by simpa using hnone) hcoh h hgrown
      exact ih hlast.2 hcoh' h' hU

/-- Lives of texts whose INSERTs come last are settled. -/
theorem settledLives_of_insertsLast (xs : List (Session (Text D))) {disk : Disk}
    (hok : disk.faults = []) (hlast : ∀ x ∈ xs, insertsLast x.script = true)
    (hkeys : db.KeysDistinct (lives (sqlRun db.catalog) disk xs)) :
    SettledLives (sqlRun db.catalog) (SettledTexts db.catalog) disk xs := by
  induction xs generalizing disk with
  | nil => trivial
  | cons x xs ih =>
    have hlater : ∀ (ys : List (Session (Text D))) (disk : Disk) (path : FilePath),
        pageCount path disk ≤ pageCount path (lives (sqlRun db.catalog) disk ys) := by
      intro ys
      induction ys with
      | nil => exact fun _ _ => le_refl _
      | cons y ys ihy => exact fun disk path => (sqlShutdown_grows _ y disk path).trans (ihy _ path)
    have hcovers : CoversAll (db.pages hkeys) db (x.shutdown (sqlRun db.catalog) disk) :=
      fun t ht i hi => db.pages_coversAll hkeys t ht i (hi.trans (hlater xs _ t.filePath))
    have hrun := hcovers.mono (flushAll_grows (x.last (sqlRun db.catalog) disk))
    have hstart := coherent_start (db.pages hkeys) x.capacity x.capacity_pos disk hok
    obtain ⟨events, htrace, -⟩ := sqlRun_trace db.catalog x.script (start x.capacity disk)
    have hevents := hrun
    rw [Session.last, htrace] at hevents
    obtain ⟨st, hcoh⟩ := run_store hstart events hevents
    have hfaults : (x.shutdown (sqlRun db.catalog) disk).faults = [] := by
      rw [Session.shutdown, Session.last, htrace]
      exact flushAll_faults hcoh
    refine ⟨settledTexts_of_insertsLast x.script (hlast x (by simp)) hstart (fun _ _ => rfl) hrun,
      ?_⟩
    exact ih hfaults (fun y hy => hlast y (by simp [hy])) hkeys

end Settled

section Example

omit [CDouble D] in
/-- Row `k` is drawn with the seed that the rounds before it leave. -/
theorem madeRows_getElem {schema : TableSchema} {make : ℕ → StateM UInt32 (List (Field D))}
    (n : ℕ) (seed : UInt32) {k : ℕ} (hk : k < n) : (madeRows schema make n seed).1[k]? =
      some (newRow schema ((make k).run (madeRows schema make k seed).2).1) := by
  induction n with
  | zero => omega
  | succ n ih =>
    rw [madeRows_succ]
    rcases Nat.lt_succ_iff_lt_or_eq.mp hk with hlt | rfl
    · rw [List.getElem?_append_left (by rw [madeRows_length]; exact hlt)]
      exact ih hlt
    · rw [List.getElem?_append_right (by rw [madeRows_length]), madeRows_length, Nat.sub_self]
      rfl

def lowest (_ : ℕ) (lo _ : String) : DoubleBits := CDouble.atof (ascii lo)

def thirdOrder : Row DoubleBits :=
  newRow makeOrdersSchema ((ordersFields lowest (Int32.ofNat 30000) (Int32.ofNat 3)).run
    (madeRows makeOrdersSchema (fun i =>
      ordersFields lowest (Int32.ofNat 30000) (Int32.ofNat (i + 1))) 2 123).2).1

theorem thirdOrder_key : intAt (storedRow makeOrdersSchema thirdOrder) 1 = some 27259 := by
  decide +kernel

/-- The third order of the dataset names customer 27259, and there are 20000. -/
theorem generateFiles_foreignKeys_main :
    ∃ row ∈ (fileRows makeOrdersSchema makeOrdersSchema.filePath
        (generateFiles lowest 20000 30000 50000 noFiles) : List (Row DoubleBits)),
      (fileRows makeCustomerSchema makeCustomerSchema.filePath
        (generateFiles lowest 20000 30000 50000 noFiles) : List (Row DoubleBits)).countP
          (fun parent => intAt parent 0 = intAt row 1) = 0 := by
  have hbound : (Int32.ofNat 30000).toInt = 30000 := Int32.toInt_ofNat_of_lt (by omega)
  have hkeys := (generateFiles_foreignKeys lowest noFiles_faults 20000 30000 50000 (by omega)
    ⟨by omega, by omega⟩ (by omega)).2
  obtain ⟨-, -, ho, -⟩ := generateFiles_laid lowest noFiles_faults 20000 30000 50000 (by omega)
  have hthird : (ordersMade lowest 30000)[2]? = some thirdOrder :=
    madeRows_getElem 30000 123 (by omega)
  have hrow : storedRow makeOrdersSchema thirdOrder ∈ (fileRows makeOrdersSchema
      makeOrdersSchema.filePath (generateFiles lowest 20000 30000 50000 noFiles) :
        List (Row DoubleBits)) := by
    rw [ho.fileRows_eq (tpch_fits makeOrdersSchema (by simp [tpch]))]
    exact List.mem_map_of_mem (List.mem_of_getElem? hthird)
  obtain ⟨k, hk, -, -, hcount⟩ := hkeys _ hrow
  obtain rfl : 27259 = k := by
    rw [thirdOrder_key, Option.some.injEq] at hk
    exact hk
  exact ⟨_, hrow, hcount⟩

theorem MAX_POOL_SIZE_pos : 0 < MAX_POOL_SIZE := by decide

def twoLives : List (Session (Text DoubleBits)) :=
  [⟨200, MAX_POOL_SIZE_pos, [text "SELECT * FROM orders WHERE o_custkey == 7",
      text "INSERT INTO orders VALUES (30001, 7)"]⟩,
    ⟨200, MAX_POOL_SIZE_pos, [text "SELECT * FROM orders WHERE o_custkey == 7"]⟩]

theorem main_refines_tables_noFiles :
    mainReports lowest noFiles twoLives = tablesReports tpch.catalog
      (dataset lowest CUSTOMER_COUNT ORDER_COUNT LINEITEM_COUNT) (statements twoLives) := by
  have hgen : needGen noFiles = true := by decide
  have hprepare : prepare lowest noFiles = generateDataset lowest noFiles := by
    rw [prepare, if_pos hgen]
  obtain ⟨hc, ho, hl⟩ := generateDataset_pageCount lowest noFiles_faults
  have hscripts : (statements twoLives).length ≤ 3 ∧
      ∀ x ∈ twoLives, insertsLast x.script = true := by decide +kernel
  have hroom : ∀ t ∈ tpch.tables, pageCount t.filePath (prepare lowest noFiles) +
      (statements twoLives).length < 98967296 := by
    intro t ht
    rw [hprepare]
    have hlen := hscripts.1
    rcases (mem_tpch_iff t).mp ht with rfl | rfl | rfl <;> omega
  have hkeys := keysDistinct_of_room (prepare lowest noFiles) (statements twoLives) hroom
  have hset := settledLives_of_insertsLast twoLives (prepare_faults lowest noFiles_faults)
    hscripts.2 (sqlLives_pages twoLives (prepare_faults lowest noFiles_faults) hkeys).2
  have hmain := (main_refines_tables lowest (fun _ => rfl) noFiles_faults
    (show needGen noFiles = false → FilesHold tpch noFiles (fun _ => 0) from
      fun h => absurd (hgen.symm.trans h) (by decide)) _ _ hroom hset).1
  rw [if_pos hgen] at hmain
  exact hmain

end Example

end NanoDB.Startup
