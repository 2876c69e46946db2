import NanoDB.DecimalText
import NanoDB.DiskManager

/-!
The data generator (tpch/DataGenerator.cpp): rows of random contents, appended to a page
that goes to the file when it is full. A routine that draws random numbers passes the seed
on. Where the source draws several numbers in one call, in an order the language leaves
open, they are drawn from left to right.
-/
namespace NanoDB.DataGenerator

open CTypes Page DiskManager LexerRoundTrip

variable {D : Type}

def MKTSEGMENTS : List String := ["BUILDING", "AUTOMOBILE", "MACHINERY", "HOUSEHOLD", "FURNITURE"]
def ORDERSTATUS : List String := ["O", "F", "P"]
def ORDERPRIORITY : List String := ["1-URGENT", "2-HIGH", "3-MEDIUM", "4-NOT SPECIFIED", "5-LOW"]
def SHIPMODES : List String := ["AIR", "SHIP", "TRUCK", "RAIL", "FOB", "MAIL", "REG AIR"]
def SHIPINSTRUCT : List String := ["DELIVER IN PERSON", "COLLECT COD", "NONE", "TAKE BACK RETURN"]
def RETURNFLAGS : List String := ["N", "A", "R"]
def LINESTATUSES : List String := ["O", "F"]

def nextRand : StateM UInt32 UInt32 := fun seed =>
  let seed := seed * 1664525 + 1013904223
  (seed, seed)

def randInt (lo hi : Int32) : StateM UInt32 Int32 := do
  let r ← nextRand
  return lo + (r % (hi - lo + 1).toUInt32).toInt32

def randChars : ℕ → StateM UInt32 (List Byte)
  | 0 => return []
  | n + 1 => do
    let r ← nextRand
    let rest ← randChars n
    return ((ascii "abcdefghijklmnopqrstuvwxyz     ").getD (r % 31).toNat 0) :: rest

/-- `len` counts the terminator. -/
def randStr (len : ℕ) : StateM UInt32 (List Byte) := randChars (len - 1)

/-- One of the texts, `names[randInt(0, hi)]`. -/
def randName (names : List String) (hi : Int32) : StateM UInt32 (Field D) := do
  let i ← randInt 0 hi
  return .ofString (ascii (names.getD i.toInt.toNat ""))

/-- `%0<width>d` of a number that is not negative. -/
def padded (width : ℕ) (v : Int32) : List Byte :=
  let digits := decimalDigits v.toInt.toNat
  List.replicate (width - digits.length) 48 ++ digits

def printed (size : ℕ) (text : List Byte) : Field D := .ofString (text.take (size - 1))

def randPhone : StateM UInt32 (Field D) := do
  let a ← randInt 10 99
  let b ← randInt 100 999
  let c ← randInt 1000 9999
  return printed 16 (padded 2 a ++ ascii "-" ++ padded 3 b ++ ascii "-" ++ padded 4 c)

def randDate : StateM UInt32 (Field D) := do
  let y ← randInt 0 8
  let m ← randInt 1 12
  let d ← randInt 1 28
  return printed 11
    (ascii "199" ++ padded 1 y ++ ascii "-" ++ padded 2 m ++ ascii "-" ++ padded 2 d)

section Rows
variable (scale : ℕ → String → String → D) (schema : TableSchema)

/-- `scale r lo hi` is `lo + r / 10000 * (hi - lo)` in single precision. -/
def randFloat (lo hi : String) : StateM UInt32 (Field D) := do
  let r ← nextRand
  return .float (scale (r % 10000).toNat lo hi)

/-- `new Row(schema.colCount)`, then `setField` for each field in turn. -/
def newRow (fields : List (Field D)) : Row D :=
  fields.zipIdx.foldl (fun row f => row.setField f.2 f.1) (List.replicate schema.colCount none)

def customerFields (i : Int32) : StateM UInt32 (List (Field D)) := do
  let address ← randStr 40
  let nationkey ← randInt 0 24
  let phone ← randPhone
  let acctbal ← randFloat scale "-999.99" "9999.99"
  let mktsegment ← randName MKTSEGMENTS 4
  let comment ← randStr 79
  return [.int i, printed 26 (ascii "Customer#" ++ padded 9 i), .ofString address, .int nationkey,
    phone, acctbal, mktsegment, .ofString comment]

def ordersFields (maxCustKey i : Int32) : StateM UInt32 (List (Field D)) := do
  let custkey ← randInt 1 maxCustKey
  let orderstatus ← randName ORDERSTATUS 2
  let totalprice ← randFloat scale "1000.0" "500000.0"
  let orderdate ← randDate
  let orderpriority ← randName ORDERPRIORITY 4
  let clerk ← randInt 1 1000
  let comment ← randStr 79
  return [.int i, .int custkey, orderstatus, totalprice, orderdate, orderpriority,
    printed 16 (ascii "Clerk#" ++ padded 9 clerk), .int 0, .ofString comment]

def lineitemFields (maxOrderKey i : Int32) : StateM UInt32 (List (Field D)) := do
  let orderkey ← randInt 1 maxOrderKey
  let partkey ← randInt 1 200000
  let suppkey ← randInt 1 10000
  let quantity ← randFloat scale "1.0" "50.0"
  let extendedprice ← randFloat scale "100.0" "100000.0"
  let discount ← randFloat scale "0.0" "0.10"
  let tax ← randFloat scale "0.0" "0.08"
  let returnflag ← randName RETURNFLAGS 2
  let linestatus ← randName LINESTATUSES 1
  let shipdate ← randDate
  let commitdate ← randDate
  let receiptdate ← randDate
  let shipinstruct ← randName SHIPINSTRUCT 3
  let shipmode ← randName SHIPMODES 6
  let comment ← randStr 44
  return [.int orderkey, .int partkey, .int suppkey, .int (i % 7 + 1), quantity, extendedprice,
    discount, tax, returnflag, linestatus, shipdate, commitdate, receiptdate, shipinstruct,
    shipmode, .ofString comment]

end Rows

structure GenState where
  page : Page
  pageId : ℕ
  seed : UInt32
  disk : Disk

section Loop
variable [CDouble D] (schema : TableSchema) (path : FilePath)
  (make : ℕ → StateM UInt32 (List (Field D)))

/-- One round of the record loop: a row that does not fit goes to the next page. -/
def generateRow (s : GenState) (i : ℕ) : GenState :=
  let made := (make i).run s.seed
  let row := newRow schema made.1
  let appended := appendRow schema row s.page
  if appended.1 then { s with page := appended.2, seed := made.2 }
  else
    { page := (appendRow schema row (Page.init (s.pageId + 1 : ℕ))).2
      pageId := s.pageId + 1
      seed := made.2
      disk := (writePage path appended.2 s.disk).2 }

/-- `ensureFile`, then `fopen` with mode `"wb"`. -/
def truncateFile (disk : Disk) : Disk :=
  { disk with files := Function.update disk.files path (some []) }

/-- The body the three routines share; `make` draws the fields of each row. -/
def generate (n : ℕ) (seed : UInt32) (disk : Disk) : Disk :=
  let s := (List.range n).foldl (generateRow schema path make)
    ⟨Page.init 0, 0, seed, truncateFile path disk⟩
  if s.page.getRecordCount > 0 then (writePage path s.page s.disk).2 else s.disk

end Loop

section Tables
variable [CDouble D] (scale : ℕ → String → String → D) (schema : TableSchema)

def generateCustomers (numCustomers : ℕ) (filePath : FilePath) (disk : Disk) : Disk :=
  generate schema filePath (fun i => customerFields scale (Int32.ofNat (i + 1)))
    numCustomers 42 disk

def generateOrders (numOrders : ℕ) (maxCustKey : Int32) (filePath : FilePath)
    (disk : Disk) : Disk :=
  generate schema filePath (fun i => ordersFields scale maxCustKey (Int32.ofNat (i + 1)))
    numOrders 123 disk

def generateLineitems (numLineitems : ℕ) (maxOrderKey : Int32) (filePath : FilePath)
    (disk : Disk) : Disk :=
  generate schema filePath (fun i => lineitemFields scale maxOrderKey (Int32.ofNat i))
    numLineitems 789 disk

end Tables

section Draws

theorem randInt_run (lo hi : Int32) (seed : UInt32) : ((randInt lo hi).run seed).1 =
    lo + ((seed * 1664525 + 1013904223) % (hi - lo + 1).toUInt32).toInt32 := rfl

theorem toInt_toInt32 (r : UInt32) (h : r.toNat < 2147483648) : r.toInt32.toInt = r.toNat := by
  have hlt : 2 * r.toBitVec.toNat < 2 ^ 32 := by
    have h' : r.toBitVec.toNat < 2147483648 := h
    omega
  exact BitVec.toInt_eq_toNat_of_lt hlt

theorem toNat_toUInt32 (v : Int32) (h : 0 ≤ v.toInt) : v.toUInt32.toNat = v.toInt.toNat := by
  have hnonneg : 0 ≤ v := by
    rw [Int32.le_iff_toInt_le, Int32.toInt_zero]
    exact h
  rw [Int32.toNat_toUInt32_of_le hnonneg]
  rfl

/-- A draw between one and a positive bound, whatever the seed. -/
theorem randInt_one (hi : Int32) (hpos : 1 ≤ hi.toInt) (seed : UInt32) :
    1 ≤ ((randInt 1 hi).run seed).1.toInt ∧ ((randInt 1 hi).run seed).1.toInt ≤ hi.toInt := by
  have hcount : hi - 1 + 1 = hi := Int32.sub_add_cancel hi 1
  rw [randInt_run, hcount]
  generalize seed * 1664525 + 1013904223 = s
  have hup := hi.toInt_lt
  have hlt : (s % hi.toUInt32).toNat < hi.toInt.toNat := by
    rw [UInt32.toNat_mod, toNat_toUInt32 hi (by omega)]
    exact Nat.mod_lt _ (by omega)
  have hsum : (1 + (s % hi.toUInt32).toInt32).toInt = 1 + ((s % hi.toUInt32).toNat : ℤ) := by
    rw [Int32.toInt_add, toInt_toInt32 _ (by omega), Int32.toInt_one]
    exact Int.bmod_eq_of_le (by omega) (by omega)
  rw [hsum]
  omega

/-- The fields fill the row of a table with as many columns. -/
theorem newRow_eq {schema : TableSchema} {fields : List (Field D)}
    (hlen : fields.length = schema.colCount) : newRow schema fields = fields.map some := by
  have hfill : ∀ (k : ℕ) (fs : List (Field D)) (pre : Row D), pre.length = k →
      (fs.zipIdx k).foldl (fun row f => row.setField f.2 f.1)
        (pre ++ List.replicate fs.length none) = pre ++ fs.map some := by
    intro k fs
    induction fs generalizing k with
    | nil => simp
    | cons f fs ih =>
      intro pre hpre
      have hset : (pre ++ List.replicate (f :: fs).length none).setField k f =
          (pre ++ [some f]) ++ List.replicate fs.length none := by
        simp [Row.setField, List.replicate_succ, hpre]
      rw [List.zipIdx_cons, List.foldl_cons, hset, ih (k + 1) (pre ++ [some f]) (by simp [hpre])]
      simp
  have h := hfill 0 fields [] rfl
  rw [hlen] at h
  exact h

def Yields {α : Type} (m : StateM UInt32 α) (P : α → Prop) : Prop := ∀ seed, P (m.run seed).1

theorem Yields.bind {α β : Type} {m : StateM UInt32 α} {k : α → StateM UInt32 β} {P : α → Prop}
    {Q : β → Prop} (hm : Yields m P) (hk : ∀ a, P a → Yields (k a) Q) : Yields (m >>= k) Q :=
  fun seed => hk _ (hm seed) _

theorem Yields.pure {α : Type} {a : α} {P : α → Prop} (h : P a) :
    Yields (Pure.pure a : StateM UInt32 α) P := fun _ => h

theorem Yields.any {α : Type} (m : StateM UInt32 α) : Yields m fun _ => True := fun _ => trivial

theorem randName_type (names : List String) (hi : Int32) :
    Yields (randName names hi : StateM UInt32 (Field D)) fun f => f.type = .STRING := fun _ => rfl

theorem randPhone_type : Yields (randPhone : StateM UInt32 (Field D)) fun f => f.type = .STRING :=
  fun _ => rfl

theorem randDate_type : Yields (randDate : StateM UInt32 (Field D)) fun f => f.type = .STRING :=
  fun _ => rfl

variable (scale : ℕ → String → String → D)

theorem randFloat_type (lo hi : String) :
    Yields (randFloat scale lo hi) fun f => f.type = .FLOAT := fun _ => rfl

def customerTypes : List FieldType := makeCustomerSchema.columns.map ColumnDef.type

def ordersTypes : List FieldType := makeOrdersSchema.columns.map ColumnDef.type

def lineitemTypes : List FieldType := makeLineitemSchema.columns.map ColumnDef.type

theorem customerFields_spec (i : Int32) : Yields (customerFields scale i) fun fs =>
    fs.map Field.type = customerTypes ∧ fs[0]? = some (.int i) := by
  unfold customerFields
  refine .bind (.any _) fun address _ => .bind (.any _) fun nationkey _ => ?_
  refine .bind randPhone_type fun phone hphone => ?_
  refine .bind (randFloat_type scale _ _) fun acctbal hacctbal => ?_
  refine .bind (randName_type _ _) fun mktsegment hsegment => .bind (.any _) fun comment _ => ?_
  refine .pure ⟨?_, rfl⟩
  simp only [List.map_cons, List.map_nil, hphone, hacctbal, hsegment]
  rfl

def KeyUpTo (m : Int32) (f : Option (Field D)) : Prop :=
  ∃ v, f = some (.int v) ∧ 1 ≤ v.toInt ∧ v.toInt ≤ m.toInt

theorem randInt_key {m : Int32} (hm : 1 ≤ m.toInt) :
    Yields (randInt 1 m) fun v => KeyUpTo m (some (.int v : Field D)) :=
  fun seed => ⟨_, rfl, randInt_one m hm seed⟩

theorem ordersFields_spec {m : Int32} (hm : 1 ≤ m.toInt) (i : Int32) :
    Yields (ordersFields scale m i) fun fs => fs.map Field.type = ordersTypes ∧
      fs[0]? = some (.int i) ∧ KeyUpTo m fs[1]? := by
  unfold ordersFields
  refine .bind (randInt_key (D := D) hm) fun custkey hcustkey => ?_
  refine .bind (randName_type _ _) fun orderstatus hstatus => ?_
  refine .bind (randFloat_type scale _ _) fun totalprice hprice => ?_
  refine .bind randDate_type fun orderdate hdate => ?_
  refine .bind (randName_type _ _) fun orderpriority hpriority => ?_
  refine .bind (.any _) fun clerk _ => .bind (.any _) fun comment _ => ?_
  refine .pure ⟨?_, rfl, hcustkey⟩
  simp only [List.map_cons, List.map_nil, hstatus, hprice, hdate, hpriority]
  rfl

theorem lineitemFields_spec {m : Int32} (hm : 1 ≤ m.toInt) (i : Int32) :
    Yields (lineitemFields scale m i) fun fs => fs.map Field.type = lineitemTypes ∧
      KeyUpTo m fs[0]? := by
  unfold lineitemFields
  refine .bind (randInt_key (D := D) hm) fun orderkey horderkey => ?_
  refine .bind (.any _) fun partkey _ => .bind (.any _) fun suppkey _ => ?_
  refine .bind (randFloat_type scale _ _) fun quantity hquantity => ?_
  refine .bind (randFloat_type scale _ _) fun extendedprice hprice => ?_
  refine .bind (randFloat_type scale _ _) fun discount hdiscount => ?_
  refine .bind (randFloat_type scale _ _) fun tax htax => ?_
  refine .bind (randName_type _ _) fun returnflag hflag => ?_
  refine .bind (randName_type _ _) fun linestatus hstatus => ?_
  refine .bind randDate_type fun shipdate hship => ?_
  refine .bind randDate_type fun commitdate hcommit => ?_
  refine .bind randDate_type fun receiptdate hreceipt => ?_
  refine .bind (randName_type _ _) fun shipinstruct hinstruct => ?_
  refine .bind (randName_type _ _) fun shipmode hmode => .bind (.any _) fun comment _ => ?_
  refine .pure ⟨?_, horderkey⟩
  simp only [List.map_cons, List.map_nil, hquantity, hprice, hdiscount, htax, hflag, hstatus,
    hship, hcommit, hreceipt, hinstruct, hmode]
  rfl

end Draws

end NanoDB.DataGenerator
