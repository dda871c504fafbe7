import RegionPlanner.Trace.Record
import RegionPlanner.Trace.Word

/-!
# Writing a trace

The words of a record in their order, and the bytes of a list of records. The weight of a stat is no part
of a trace, and an inner node is written as an ordinary one.
-/

namespace RegionPlanner

def Stat.words (stat : Stat) : List UInt64 :=
  [stat.instances, stat.work, stat.parallelWork, stat.selfParallelWork, stat.minParallelism,
    stat.maxParallelism, stat.iterations, stat.minIterations, stat.maxIterations]

/-- The words of a record: seven fields, the counted children, the counted stats. -/
def Record.words (record : Record) : List UInt64 :=
  [record.uid, record.region, record.callSite, record.kind.code, record.target, record.instances,
    if record.parallel then 1 else 0] ++
  record.children.length.toUInt64 :: record.children ++
  record.stats.length.toUInt64 :: record.stats.flatMap Stat.words

def Record.bytes (record : Record) : List UInt8 := record.words.flatMap bytesOfWord

def encode (records : List Record) : List UInt8 := records.flatMap Record.bytes

@[simp] theorem encode_nil : encode [] = [] := rfl

@[simp] theorem encode_cons (record : Record) (records : List Record) :
    encode (record :: records) = record.bytes ++ encode records := rfl

theorem encode_append (first second : List Record) : encode (first ++ second) = encode first ++ encode second := by
  simp [encode]

theorem length_flatMap_bytesOfWord (words : List UInt64) : (words.flatMap bytesOfWord).length = 8 * words.length := by
  induction words with
  | nil => rfl
  | cons word words ih => simp [ih]; omega

theorem length_flatMap_words (stats : List Stat) : (stats.flatMap Stat.words).length = 9 * stats.length := by
  induction stats with
  | nil => rfl
  | cons stat stats ih => simp [ih, Stat.words]; omega

/-- A record takes nine words, one more for each child and nine more for each stat. -/
theorem Record.length_bytes (record : Record) :
    record.bytes.length = 8 * (9 + record.children.length + 9 * record.stats.length) := by
  rw [Record.bytes, length_flatMap_bytesOfWord]
  simp only [Record.words, List.length_append, List.length_cons, List.length_nil, length_flatMap_words]
  omega

end RegionPlanner
