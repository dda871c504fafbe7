import Mathlib
import RegionPlanner.Proofs.Trace.Taking

/-!
# Reading what was written

What is read from the bytes of a list of records are the records as a trace stores them, each from its own
first byte to its last. Only a target outside a sink is refused, right after its word.
-/

namespace RegionPlanner

/-! ### What a trace stores -/

/-- A stat without its weight, which is no part of a trace. -/
def Stat.stored (stat : Stat) : Stat := { stat with weight := 0 }

/-- A record as a trace stores it: inner nodes as ordinary ones, and no weights. -/
def Record.stored (record : Record) : Record :=
  { record with kind := record.kind.traced, stats := record.stats.map Stat.stored }

/-- Only sinks lead back to an init node. -/
def Record.Stray (record : Record) : Prop := record.kind ≠ .sink ∧ record.target ≠ 0

/-- A trace counts children and stats with 64 bits. -/
def Record.Countable (record : Record) : Prop := record.children.length < 2 ^ 64 ∧ record.stats.length < 2 ^ 64

instance (record : Record) : Decidable record.Stray := inferInstanceAs (Decidable (_ ∧ _))

instance (record : Record) : Decidable record.Countable := inferInstanceAs (Decidable (_ ∧ _))

theorem traced_ne_sink {kind : NodeKind} : kind.traced ≠ .sink ↔ kind ≠ .sink := by
  cases kind <;> simp [NodeKind.traced]

theorem toNat_length {α : Type} {items : List α} (h : items.length < 2 ^ 64) :
    items.length.toUInt64.toNat = items.length := by
  rw [UInt64.toNat_ofNat']
  exact Nat.mod_eq_of_lt h

/-! ### Steps that read given words -/

/-- With these words ahead a step takes them, nothing else, and gives this value. -/
def Reads {α : Type} (step : Read (List UInt8) α) (words : List UInt64) (value : α) : Prop :=
  ∀ ⦃before after : Cursor (List UInt8)⦄, Takes words before after → step before = .ok value after

theorem Takes.split {first second : List UInt64} {before after : Cursor (List UInt8)}
    (h : Takes (first ++ second) before after) :
    ∃ between, Takes first before between ∧ Takes second between after := by
  obtain ⟨hs, ho⟩ := h
  rw [List.flatMap_append, List.append_assoc] at hs
  rw [List.length_append] at ho
  refine ⟨⟨second.flatMap bytesOfWord ++ after.source, before.offset + 8 * first.length⟩, ⟨hs, rfl⟩, rfl, ?_⟩
  rw [ho]
  ring

namespace Reads

variable {α β : Type} {step : Read (List UInt8) α} {next : α → Read (List UInt8) β} {first second : List UInt64}
  {a : α} {b : β}

theorem bind (h : Reads step first a) (h' : Reads (next a) second b) : Reads (step >>= next) (first ++ second) b := by
  intro before after htaken
  obtain ⟨between, hfirst, hsecond⟩ := htaken.split
  exact state_bind_eq_ok.mpr ⟨a, between, h hfirst, h' hsecond⟩

theorem pure : Reads (pure a) [] a := by
  rintro ⟨source, offset⟩ ⟨source', offset'⟩ ⟨hsource, hoffset⟩
  cases hsource
  cases hoffset
  rfl

theorem field (name : String) (word : UInt64) : Reads (readField name) [word] word := by
  rintro before ⟨source, offset⟩ ⟨hsource, hoffset⟩
  have hpull : WordSource.pull before.source = .word word source := by
    rw [hsource, List.flatMap_singleton]
    exact pullBytes_bytesOfWord word source
  unfold readField
  rw [hpull]
  cases hoffset
  rfl

/-- A word, and then the rest of a step. -/
theorem word {name : String} {word : UInt64} {next : UInt64 → Read (List UInt8) β} (h : Reads (next word) second b) :
    Reads (readField name >>= next) (word :: second) b := bind (field name word) h

theorem many {item : Read (List UInt8) β} (words : α → List UInt64) (value : α → β)
    (hitem : ∀ a, Reads item (words a) (value a)) (items : List α) (done : List β) :
    Reads (readMany item done items.length) (items.flatMap words) (done.reverse ++ items.map value) := by
  induction items generalizing done with
  | nil =>
    rw [List.map_nil, List.append_nil]
    exact Reads.pure
  | cons a items ih =>
    have hrest := ih (value a :: done)
    rw [List.reverse_cons, List.append_assoc] at hrest
    exact (hitem a).bind hrest

end Reads

theorem reads_stat (stat : Stat) : Reads readStat stat.words stat.stored := by
  unfold readStat
  refine Reads.word (Reads.word (Reads.word (Reads.word (Reads.word (Reads.word (Reads.word (Reads.word (Reads.word
    ?_))))))))
  have hstored := @Reads.pure Stat stat.stored
  unfold Stat.stored at hstored
  rw [← count_zero_eq] at hstored
  exact hstored

theorem reads_kind (uid : UInt64) (kind : NodeKind) : Reads (readKind uid) [kind.code] kind.traced := by
  refine Reads.word ?_
  rw [NodeKind.ofCode?_code]
  exact Reads.pure

theorem reads_parallelBit (uid : UInt64) (bit : Bool) :
    Reads (readParallelBit uid) [if bit then 1 else 0] bit := by
  refine Reads.word ?_
  cases bit with
  | false => exact Reads.pure
  | true => exact Reads.pure

theorem reads_target {uid target : UInt64} {kind : NodeKind} (h : kind = .sink ∨ target = 0) :
    Reads (readTarget uid kind) [target] target := by
  refine Reads.word ?_
  have hallowed : ¬(target ≠ 0 ∧ kind ≠ .sink) := by
    rintro ⟨htarget, hkind⟩
    exact h.elim hkind htarget
  rw [if_neg hallowed]
  exact Reads.pure

theorem reads_record {record : Record} (hcount : record.Countable) (hstray : ¬ record.Stray) :
    Reads (readRecord record.uid) record.words.tail record.stored := by
  have htarget : record.kind.traced = .sink ∨ record.target = 0 := by
    by_contra hnone
    rw [not_or, ← ne_eq, traced_ne_sink] at hnone
    exact hstray hnone
  have hchildren := Reads.many (fun child => [child]) id (fun child => Reads.field "child_uid" child)
    record.children []
  have hstats := Reads.many Stat.words Stat.stored reads_stat record.stats []
  rw [← toNat_length hcount.1, List.flatMap_singleton', List.map_id, List.reverse_nil, List.nil_append] at hchildren
  rw [← toNat_length hcount.2, List.reverse_nil, List.nil_append] at hstats
  unfold readRecord
  refine Reads.word (Reads.word ((reads_kind record.uid record.kind).bind ((reads_target htarget).bind (Reads.word
    ((reads_parallelBit record.uid record.parallel).bind (Reads.word (hchildren.bind (Reads.word ?_))))))))
  have hlast : Reads (readMany readStat [] record.stats.length.toUInt64.toNat >>= fun stats =>
      Pure.pure { record.stored with stats }) (record.stats.flatMap Stat.words ++ []) record.stored :=
    hstats.bind Reads.pure
  rw [List.append_nil] at hlast
  exact hlast

/-! ### Records that are refused -/

theorem state_bind_eq_error {ε σ α β : Type} {x : EStateM ε σ α} {f : α → EStateM ε σ β} {s t u : σ} {a : α} {fault : ε}
    (hx : x s = .ok a t) (hf : f a t = .error fault u) : (x >>= f) s = .error fault u := by
  change EStateM.bind x f s = _
  unfold EStateM.bind
  rw [hx]
  exact hf

/-- A stray target is refused right after its word, the fourth one that follows the uid. -/
theorem refuses_record {record : Record} {before after : Cursor (List UInt8)} (hstray : record.Stray)
    (htaken : Takes record.words.tail before after) : ∃ last, readRecord record.uid before =
      .error (.trace (before.offset + 32) (.strayTarget record.uid record.kind.traced record.target)) last := by
  have hsplit : record.words.tail =
      [record.region] ++ ([record.callSite] ++ ([record.kind.code] ++ ([record.target] ++ record.words.drop 5))) := rfl
  rw [hsplit] at htaken
  obtain ⟨_, hregion, htaken⟩ := htaken.split
  obtain ⟨_, hsite, htaken⟩ := htaken.split
  obtain ⟨ahead, hkind, htaken⟩ := htaken.split
  obtain ⟨behind, htarget, -⟩ := htaken.split
  have hoffset : behind.offset = before.offset + 32 := by
    rw [htarget.2, hkind.2, hsite.2, hregion.2]
    rfl
  refine ⟨behind, ?_⟩
  unfold readRecord
  refine state_bind_eq_error (Reads.field _ _ hregion) (state_bind_eq_error (Reads.field _ _ hsite)
    (state_bind_eq_error (reads_kind _ _ hkind) ?_))
  change EStateM.bind _ _ _ = _
  have hrefused : readTarget record.uid record.kind.traced ahead =
      .error (.trace behind.offset (.strayTarget record.uid record.kind.traced record.target)) behind := by
    unfold readTarget
    refine state_bind_eq_error (Reads.field _ _ htarget) ?_
    rw [if_pos ⟨hstray.2, traced_ne_sink.mpr hstray.1⟩]
    rfl
  unfold EStateM.bind
  rw [hrefused, hoffset]

/-! ### The decoder on written records -/

namespace Decoder

variable {record : Record} {records : List Record} {rest : List UInt8} {offset : Nat}

theorem takes_words (record : Record) (rest : List UInt8) (offset : Nat) :
    Takes record.words.tail ⟨record.words.tail.flatMap bytesOfWord ++ rest, offset + 8⟩
      ⟨rest, offset + record.bytes.length⟩ := by
  refine ⟨rfl, ?_⟩
  have hlength : record.bytes.length = 8 * record.words.length := length_flatMap_bytesOfWord record.words
  have htail : record.words.length = record.words.tail.length + 1 := rfl
  change offset + record.bytes.length = offset + 8 + 8 * record.words.tail.length
  omega

theorem pull_bytes (record : Record) (rest : List UInt8) : WordSource.pull (record.bytes ++ rest) =
    .word record.uid (record.words.tail.flatMap bytesOfWord ++ rest) := by
  have hbytes : record.bytes ++ rest = bytesOfWord record.uid ++ (record.words.tail.flatMap bytesOfWord ++ rest) := by
    rw [← List.append_assoc]
    rfl
  rw [hbytes]
  exact pullBytes_bytesOfWord record.uid _

/-- The next item of a written record is the record as it is stored, and the decoder stands behind it. -/
theorem next_written (hcount : record.Countable) (hstray : ¬ record.Stray) :
    next (⟨⟨record.bytes ++ rest, offset⟩, false⟩ : Decoder (List UInt8)) =
      (some (.ok record.stored), ⟨⟨rest, offset + record.bytes.length⟩, false⟩) := by
  have hread := reads_record hcount hstray (takes_words record rest offset)
  unfold next
  simp only [Bool.false_eq_true, if_false, pull_bytes, hread]

theorem next_stray (hstray : record.Stray) : ∃ after,
    next (⟨⟨record.bytes ++ rest, offset⟩, false⟩ : Decoder (List UInt8)) =
      (some (.error (.trace (offset + 40) (.strayTarget record.uid record.kind.traced record.target))), after) := by
  obtain ⟨last, hread⟩ := refuses_record hstray (takes_words record rest offset)
  unfold next
  simp only [Bool.false_eq_true, if_false, pull_bytes, hread]
  exact ⟨_, rfl⟩

/-- What the decoder yields for written records: each as it is stored, with the offset behind it. -/
def written (offset : Nat) (records : List Record) : List (Except Fault Record × Nat) :=
  records.mapIdx fun place record => (.ok record.stored, offset + (encode (records.take (place + 1))).length)

theorem written_cons (offset : Nat) (record : Record) (records : List Record) : written offset (record :: records) =
    (.ok record.stored, offset + record.bytes.length) :: written (offset + record.bytes.length) records := by
  unfold written
  rw [List.mapIdx_cons]
  refine congrArg₂ List.cons ?_ ?_
  · simp
  · refine congrArg (List.mapIdx · records) ?_
    funext place other
    rw [List.take_succ_cons, encode_cons, List.length_append, Nat.add_assoc]

theorem written_mapM (offset : Nat) (records : List Record) {items : List (Except Fault Record × Nat)} :
    (written offset records ++ items).mapM (·.1) = (records.map Record.stored ++ ·) <$> items.mapM (·.1) := by
  induction records generalizing offset with
  | nil =>
    change items.mapM (·.1) = _
    cases items.mapM (·.1) <;> rfl
  | cons record records ih =>
    rw [written_cons, List.cons_append, List.mapM_cons, ih]
    cases items.mapM (·.1) <;> rfl

/-- Written records in front of other bytes are read one after the other, up to where the others begin. -/
theorem itemsWithin_written (hgood : ∀ record ∈ records, record.Countable ∧ ¬ record.Stray) (fuel : Nat) :
    itemsWithin (records.length + fuel) (⟨⟨encode records ++ rest, offset⟩, false⟩ : Decoder (List UInt8)) =
      let after := itemsWithin fuel (⟨⟨rest, offset + (encode records).length⟩, false⟩ : Decoder (List UInt8))
      (written offset records ++ after.1, after.2) := by
  induction records generalizing offset with
  | nil =>
    rw [List.length_nil, Nat.zero_add]
    rfl
  | cons record records ih =>
    rw [List.forall_mem_cons] at hgood
    have hfuel : (record :: records).length + fuel = records.length + fuel + 1 := by
      rw [List.length_cons]
      omega
    rw [hfuel, itemsWithin, encode_cons, List.append_assoc, next_written hgood.1.1 hgood.1.2]
    simp only [ih hgood.2, written_cons, List.cons_append, List.length_append, Nat.add_assoc]

theorem itemsWithin_nil (fuel offset : Nat) :
    itemsWithin fuel (⟨⟨[], offset⟩, false⟩ : Decoder (List UInt8)) = ([], offset) := by
  cases fuel with
  | zero => rfl
  | succ fuel => rfl

end Decoder

end RegionPlanner
