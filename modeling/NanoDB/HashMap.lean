import NanoDB.CTypes
import NanoDB.Library.ChainedTable

/-!
The two hash maps of common/HashMap.h: chained tables that differ in the key
type and in the hash. String keys are hashed with djb2 in 64-bit arithmetic,
int keys multiplicatively in 32-bit unsigned arithmetic.
-/
namespace NanoDB

open CTypes ChainedTable MapCalls

def djb2 (key : List Byte) : ℕ :=
  key.foldl (fun h b => (h * 32 + h + b.toNat) % 18446744073709551616) 5381

abbrev HashMap (V : Type) := Table (List Byte) V

namespace HashMap
variable {V : Type}

def new (buckets : ℕ) : HashMap V := Table.new buckets

def put (m : HashMap V) (key : List Byte) (val : V) : HashMap V := Table.put djb2 m key val

def get (m : HashMap V) (key : List Byte) : Option V := Table.get djb2 m key

def remove (m : HashMap V) (key : List Byte) : Bool × HashMap V := Table.remove djb2 m key

/-- The callback changes a state, bucket after bucket and along each chain. -/
def forEach {S : Type} (fn : List Byte → V → S → S) (m : HashMap V) (s : S) : S :=
  (List.range m.bucketCount).foldl
    (fun s i => (m.buckets i).foldl (fun s node => fn node.1 node.2 s) s) s

theorem forEach_eq_foldl {S : Type} (fn : List Byte → V → S → S) (m : HashMap V) (s : S) :
    m.forEach fn s = m.entries.foldl (fun s e => fn e.1 e.2 s) s := by
  unfold forEach Table.entries
  rw [List.foldl_flatMap]

def run (buckets : ℕ) (calls : List (Call (List Byte) V)) : HashMap V :=
  Table.run djb2 buckets calls

end HashMap

/-- `(unsigned int)key * 2654435761u`. -/
def intHash (key : ℤ) : ℕ := (key % 4294967296).toNat * 2654435761 % 4294967296

abbrev IntHashMap (V : Type) := Table ℤ V

namespace IntHashMap
variable {V : Type}

def new (buckets : ℕ) : IntHashMap V := Table.new buckets

def put (m : IntHashMap V) (key : ℤ) (val : V) : IntHashMap V := Table.put intHash m key val

def get (m : IntHashMap V) (key : ℤ) : Option V := Table.get intHash m key

def remove (m : IntHashMap V) (key : ℤ) : Bool × IntHashMap V := Table.remove intHash m key

def run (buckets : ℕ) (calls : List (Call ℤ V)) : IntHashMap V := Table.run intHash buckets calls

end IntHashMap

/-- After any calls both maps are the finite map the calls make, with every node in the
bucket of its key, and `forEach` calls back once for each live key. -/
theorem hashMaps_refine_map {V : Type} (buckets : ℕ) (hbuckets : 1 ≤ buckets) :
    (∀ calls : List (Call (List Byte) V), RefinesMap djb2 calls (HashMap.run buckets calls) ∧
      ∃ visited : List (List Byte × V),
        (∀ (S : Type) (fn : List Byte → V → S → S) (s : S),
          (HashMap.run buckets calls).forEach fn s =
            visited.foldl (fun s e => fn e.1 e.2 s) s) ∧
        (visited.map Prod.fst).Nodup ∧
        ∀ key val, (key, val) ∈ visited ↔ live calls key = some val) ∧
    ∀ calls : List (Call ℤ V), RefinesMap intHash calls (IntHashMap.run buckets calls) := by
  refine ⟨fun calls => ⟨run_refinesMap djb2 hbuckets calls, ?_⟩,
    fun calls => run_refinesMap intHash hbuckets calls⟩
  have h := run_runsTo djb2 buckets calls
  have hpos : 0 < (Table.run djb2 buckets calls).bucketCount := by
    rw [h.count]
    exact hbuckets
  refine ⟨(HashMap.run buckets calls).entries, ?_, entries_nodup h.wellPlaced, ?_⟩
  · intro S fn s
    exact HashMap.forEach_eq_foldl fn _ s
  · intro key val
    rw [← h.found]
    exact mem_entries h.wellPlaced hpos key val

/-- Two keys in one bucket, the first of them negative and removed again. -/
theorem hashMaps_refine_map_negative : 1 ≤ 1 ∧
    RefinesMap intHash [.put (-1) 5, .put 1 6, .remove (-1)]
      (IntHashMap.run 1 [.put (-1) 5, .put 1 6, .remove (-1)] : IntHashMap ℕ) :=
  ⟨le_refl 1, (hashMaps_refine_map 1 (le_refl 1)).2 _⟩

end NanoDB
