import RegionPlanner.Fault
import RegionPlanner.Trace.Record
import RegionPlanner.Trace.Word

/-!
# Reading a trace

A decoder takes one word after the other from a source of words and keeps the number of bytes that whole
words have taken. Records follow each other without header or trailer: a trace ends where a record could
begin, and anywhere else the end is a fault. After a fault the decoder yields nothing more.
-/

namespace RegionPlanner

/-! ### Sources of words -/

/-- What asking a source for its next word gives. -/
inductive Pull (σ : Type) where
  | word (value : UInt64) (rest : σ)
  /-- The source ended after less than a word. -/
  | short (count : Nat)
  /-- The source failed; `early` says that it failed because it had ended too early. -/
  | failed (text : String) (early : Bool)
deriving DecidableEq, Repr

/-- Something that yields words one by one and at last ends. -/
class WordSource (σ : Type) where
  pull : σ → Pull σ
  /-- The bytes that it can still yield. -/
  size : σ → Nat

def pullBytes (bytes : List UInt8) : Pull (List UInt8) :=
  match bytes with
  | a :: b :: c :: d :: e :: f :: g :: h :: rest => .word (wordOfBytes [a, b, c, d, e, f, g, h]) rest
  | few => .short few.length

instance : WordSource (List UInt8) where
  pull := pullBytes
  size := List.length

theorem pullBytes_bytesOfWord (word : UInt64) (rest : List UInt8) :
    pullBytes (bytesOfWord word ++ rest) = .word word rest := by
  have h := wordOfBytes_bytesOfWord word
  simp only [bytesOfWord, littleEndian] at h
  simp only [bytesOfWord, littleEndian, pullBytes, List.cons_append, List.nil_append, h]

/-! ### Fields -/

/-- A source and the bytes that whole words have taken from it. -/
structure Cursor (σ : Type) where
  source : σ
  offset : Nat
deriving DecidableEq, Repr

/-- Reading moves a cursor; a fault leaves it after the last whole word. -/
abbrev Read (σ : Type) := EStateM Fault (Cursor σ)

variable {σ : Type} [WordSource σ]

/-- The next word, which the format calls `name`. -/
def readField (name : String) : Read σ UInt64 := fun cursor =>
  match WordSource.pull cursor.source with
  | .word value rest => .ok value ⟨rest, cursor.offset + 8⟩
  | .short _ => .error (.trace cursor.offset (.truncated name)) cursor
  | .failed text early =>
    .error (.trace cursor.offset (if early then .truncated name else .readFailedAt name text)) cursor

def refuse {α : Type} (reason : TraceFault) : Read σ α := fun cursor =>
  .error (.trace cursor.offset reason) cursor

/-- `count` items after those already read, which stand in reverse. -/
def readMany {α : Type} (item : Read σ α) (done : List α) : Nat → Read σ (List α)
  | 0 => pure done.reverse
  | count + 1 => do
    let next ← item
    readMany item (next :: done) count

/-- The nine words of a stat; its weight is not known yet. -/
def readStat : Read σ Stat := do
  let instances ← readField "stat.instance_count"
  let work ← readField "stat.total_work"
  let parallelWork ← readField "stat.total_parallel_work"
  let selfParallelWork ← readField "stat.self_parallel_work"
  let minParallelism ← readField "stat.min_self_parallelism"
  let maxParallelism ← readField "stat.max_self_parallelism"
  let iterations ← readField "stat.total_iterations"
  let minIterations ← readField "stat.min_iterations"
  let maxIterations ← readField "stat.max_iterations"
  return { instances, work, parallelWork, selfParallelWork, minParallelism, maxParallelism, iterations,
           minIterations, maxIterations, weight := Quantity.count 0 }

def readKind (uid : UInt64) : Read σ NodeKind := do
  let code ← readField "node_kind"
  match NodeKind.ofCode? code with
  | some kind => return kind
  | none => throw (.unknownNodeKind uid code)

/-- The init node that a record leads back to; only sinks may name one. -/
def readTarget (uid : UInt64) (kind : NodeKind) : Read σ UInt64 := do
  let target ← readField "recursion_target_uid"
  if target ≠ 0 ∧ kind ≠ .sink then refuse (.strayTarget uid kind target)
  else return target

/-- The parallel bit, a word that is zero or one. -/
def readParallelBit (uid : UInt64) : Read σ Bool := do
  let bit ← readField "parallel_bit"
  if bit = 0 then return false
  else if bit = 1 then return true
  else refuse (.badParallelBit uid bit)

def readRecord (uid : UInt64) : Read σ Record := do
  let region ← readField "static_region_id"
  let callSite ← readField "call_site_id"
  let kind ← readKind uid
  let target ← readTarget uid kind
  let instances ← readField "instance_count"
  let parallel ← readParallelBit uid
  let childCount ← readField "child_count"
  let children ← readMany (readField "child_uid") [] childCount.toNat
  let statCount ← readField "stat_count"
  let stats ← readMany readStat [] statCount.toNat
  return { uid, region, callSite, kind, target, instances, parallel, children, stats }

/-! ### The decoder -/

/-- A cursor that is done with after a fault. -/
structure Decoder (σ : Type) extends Cursor σ where
  failed : Bool := false
deriving DecidableEq, Repr

namespace Decoder

def start (source : σ) : Decoder σ := { source, offset := 0 }

/-- The next record or fault; nothing at the end of the source and after a fault. -/
def next (decoder : Decoder σ) : Option (Except Fault Record) × Decoder σ :=
  if decoder.failed then (none, decoder)
  else match WordSource.pull decoder.source with
    | .word uid rest =>
      match readRecord uid ⟨rest, decoder.offset + 8⟩ with
      | .ok record cursor => (some (.ok record), { cursor with failed := false })
      | .error fault cursor => (some (.error fault), { cursor with failed := true })
    | .short 0 => (none, decoder)
    | .short count =>
      (some (.error (.trace decoder.offset (.trailingBytes count))), { decoder with failed := true })
    | .failed text _ =>
      (some (.error (.trace decoder.offset (.readFailed text))), { decoder with failed := true })

/-- Every item, each with the offset after it, and the offset where nothing more came. A source of `n`
bytes cannot yield more than `n + 1` items. -/
def itemsWithin : Nat → Decoder σ → List (Except Fault Record × Nat) × Nat
  | 0, decoder => ([], decoder.offset)
  | fuel + 1, decoder =>
    match decoder.next with
    | (none, after) => ([], after.offset)
    | (some item, after) =>
      let (items, last) := itemsWithin fuel after
      ((item, after.offset) :: items, last)

def items (decoder : Decoder σ) : List (Except Fault Record × Nat) × Nat :=
  decoder.itemsWithin (WordSource.size decoder.source + 1)

end Decoder

def decodeSource (source : σ) : Except Fault (List Record) :=
  (Decoder.start source).items.1.mapM (·.1)

def decode (bytes : List UInt8) : Except Fault (List Record) := decodeSource bytes

end RegionPlanner
