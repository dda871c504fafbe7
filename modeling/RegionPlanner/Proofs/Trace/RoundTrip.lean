import RegionPlanner.Proofs.Trace.Written

/-!
# There and back

Reading a trace that was written gives the records as a trace stores them, unless one of them has a stray target:
then the first such is refused, right after the word of its target. No record is written as the beginning of
another one, so the end of a record is never taken for one of its fields.
-/

namespace RegionPlanner

/-! ### Where a record ends -/

section
variable {first second rest rest' : List UInt8}

/-- Two words in front of other bytes are the same if the bytes are. -/
theorem bytesOfWord_append {word word' : UInt64} (h : bytesOfWord word ++ rest = bytesOfWord word' ++ rest') :
    word = word' ∧ rest = rest' := by
  obtain ⟨hword, hrest⟩ := List.append_inj h (by rw [length_bytesOfWord, length_bytesOfWord])
  refine ⟨?_, hrest⟩
  rw [← wordOfBytes_bytesOfWord word, hword, wordOfBytes_bytesOfWord]

theorem flatMap_bytesOfWord_append {words words' : List UInt64} (hlength : words.length = words'.length)
    (h : words.flatMap bytesOfWord ++ rest = words'.flatMap bytesOfWord ++ rest') : words = words' ∧ rest = rest' := by
  induction words generalizing words' with
  | nil =>
    rw [List.length_nil, eq_comm, List.length_eq_zero_iff] at hlength
    subst hlength
    exact ⟨rfl, h⟩
  | cons word words ih =>
    cases words' with
    | nil => cases hlength
    | cons word' words' =>
      rw [List.flatMap_cons, List.flatMap_cons, List.append_assoc, List.append_assoc] at h
      obtain ⟨rfl, hrest⟩ := bytesOfWord_append h
      obtain ⟨rfl, hends⟩ := ih (Nat.succ.inj hlength) hrest
      exact ⟨rfl, hends⟩

end

/-- The words of a record up to the number of its children. -/
def Record.headWords (record : Record) : List UInt64 := record.words.take 8

theorem Record.bytes_split (record : Record) (rest : List UInt8) : record.bytes ++ rest =
    record.headWords.flatMap bytesOfWord ++
      ((record.children ++ [record.stats.length.toUInt64]).flatMap bytesOfWord ++
        ((record.stats.flatMap Stat.words).flatMap bytesOfWord ++ rest)) := by
  have hwords : record.words = record.headWords ++
      ((record.children ++ [record.stats.length.toUInt64]) ++ record.stats.flatMap Stat.words) := by
    rw [List.append_assoc]
    rfl
  unfold Record.bytes
  rw [hwords]
  simp only [List.flatMap_append, List.append_assoc]

/-- A record ends where its counts say, whatever comes after it. -/
theorem Record.bytes_append {first second : Record} {rest rest' : List UInt8} (hfirst : first.Countable)
    (hsecond : second.Countable) (h : first.bytes ++ rest = second.bytes ++ rest') :
    first.bytes = second.bytes ∧ rest = rest' := by
  have hsame : first.headWords = second.headWords ∧ first.children ++ [first.stats.length.toUInt64] =
      second.children ++ [second.stats.length.toUInt64] ∧
      first.stats.flatMap Stat.words = second.stats.flatMap Stat.words ∧ rest = rest' := by
    rw [bytes_split, bytes_split] at h
    have height : first.headWords.length = second.headWords.length := rfl
    obtain ⟨hhead, h⟩ := flatMap_bytesOfWord_append height h
    have hchildren : first.children.length.toUInt64 = second.children.length.toUInt64 := by
      have hlast := congrArg (·[7]?) hhead
      exact Option.some.inj hlast
    have hlength : first.children.length = second.children.length := by
      rw [← toNat_length hfirst.1, hchildren, toNat_length hsecond.1]
    obtain ⟨hmiddle, h⟩ := flatMap_bytesOfWord_append (by simp [hlength]) h
    obtain ⟨-, hcount⟩ := List.append_inj hmiddle hlength
    have hlength' : first.stats.length = second.stats.length := by
      rw [← toNat_length hfirst.2, List.head_eq_of_cons_eq hcount, toNat_length hsecond.2]
    obtain ⟨hstats, hrest⟩ := flatMap_bytesOfWord_append
      (by rw [length_flatMap_words, length_flatMap_words, hlength']) h
    exact ⟨hhead, hmiddle, hstats, hrest⟩
  obtain ⟨hhead, hmiddle, hstats, hrest⟩ := hsame
  refine ⟨?_, hrest⟩
  have hbytes := first.bytes_split []
  rwa [hhead, hmiddle, hstats, ← bytes_split, List.append_nil, List.append_nil] at hbytes

/-! ### Reading back -/

variable {records before after : List Record} {record : Record}

theorem length_le_encode (records : List Record) : records.length ≤ (encode records).length := by
  induction records with
  | nil => exact Nat.zero_le _
  | cons record records ih =>
    have hrecord := record.length_bytes
    rw [encode_cons, List.length_append, List.length_cons]
    omega

/-- Every record has a first byte, so the items of a decoder are not cut short. -/
theorem items_encode {rest : List UInt8} (hgood : ∀ record ∈ before, record.Countable ∧ ¬ record.Stray) :
    ∃ fuel, (Decoder.start (encode before ++ rest)).items =
      let behind := Decoder.itemsWithin (fuel + 1)
        (⟨⟨rest, (encode before).length⟩, false⟩ : Decoder (List UInt8))
      (Decoder.written 0 before ++ behind.1, behind.2) := by
  have hbefore := length_le_encode before
  obtain ⟨fuel, hfuel⟩ : ∃ fuel, (encode before ++ rest).length + 1 = before.length + (fuel + 1) := by
    refine ⟨(encode before ++ rest).length - before.length, ?_⟩
    rw [List.length_append]
    omega
  refine ⟨fuel, ?_⟩
  have hitems := @Decoder.itemsWithin_written before rest 0 hgood (fuel + 1)
  rw [Nat.zero_add, ← hfuel] at hitems
  exact hitems

theorem decode_good (hgood : ∀ record ∈ records, record.Countable ∧ ¬ record.Stray) :
    (Decoder.start (encode records)).items = (Decoder.written 0 records, (encode records).length) ∧
    decode (encode records) = .ok (records.map Record.stored) := by
  obtain ⟨fuel, hitems⟩ := @items_encode records [] hgood
  rw [Decoder.itemsWithin_nil] at hitems
  simp only [List.append_nil] at hitems
  refine ⟨hitems, ?_⟩
  have hall := @Decoder.written_mapM 0 records []
  rw [List.append_nil] at hall
  unfold decode decodeSource
  rw [hitems, hall, List.mapM_nil, map_eq_ok]
  exact ⟨[], rfl, List.append_nil _⟩

theorem decode_stray (hgood : ∀ record ∈ before, record.Countable ∧ ¬ record.Stray) (hstray : record.Stray) :
    decode (encode (before ++ record :: after)) = .error (.trace ((encode before).length + 40)
      (.strayTarget record.uid record.kind.traced record.target)) := by
  obtain ⟨fuel, hitems⟩ := @items_encode before (encode (record :: after)) hgood
  obtain ⟨last, hnext⟩ := @Decoder.next_stray record (encode after) (encode before).length hstray
  unfold decode decodeSource
  rw [encode_append, hitems, Decoder.written_mapM, encode_cons, Decoder.itemsWithin, hnext]
  rfl

/-- Reading back gives what a trace stores of the records, or refuses the first stray target. -/
theorem decode_encode (hcount : ∀ record ∈ records, record.Countable) :
    ((∀ record ∈ records, record.kind ≠ .sink → record.target = 0) →
      decode (encode records) = .ok (records.map Record.stored) ∧
      (Decoder.start (encode records)).items =
        (records.mapIdx fun place record => (.ok record.stored, (encode (records.take (place + 1))).length),
          (encode records).length)) ∧
    (∀ before record after, records = before ++ record :: after →
      (∀ good ∈ before, good.kind ≠ .sink → good.target = 0) → record.kind ≠ .sink ∧ record.target ≠ 0 →
        decode (encode records) = .error (.trace ((encode before).length + 40)
          (.strayTarget record.uid record.kind.traced record.target))) ∧
    ∀ first ∈ records, ∀ second ∈ records, ∀ rest rest',
      first.bytes ++ rest = second.bytes ++ rest' → first.bytes = second.bytes ∧ rest = rest' := by
  refine ⟨?_, ?_, ?_⟩
  · intro hzero
    have hgood : ∀ record ∈ records, record.Countable ∧ ¬ record.Stray := by
      intro record hm
      exact ⟨hcount record hm, fun hstray => hstray.2 (hzero record hm hstray.1)⟩
    obtain ⟨hitems, hdecode⟩ := decode_good hgood
    refine ⟨hdecode, ?_⟩
    rw [hitems]
    unfold Decoder.written
    simp only [Nat.zero_add]
  · rintro before record after rfl hzero hstray
    refine decode_stray ?_ hstray
    intro good hm
    exact ⟨hcount good (List.mem_append_left _ hm), fun hstray => hstray.2 (hzero good hm hstray.1)⟩
  · intro first hf second hs rest rest' h
    exact Record.bytes_append (hcount first hf) (hcount second hs) h

theorem decode_encode_inner :
    let inner : Record := ⟨1, 0, 0, .inner, 0, 1, true, [5, 5], [⟨1, 9, 9, 9, 100, 100, 0, 0, 0, 0.5⟩]⟩
    let sink : Record := ⟨5, 3, 7, .sink, 1, 2, false, [], []⟩
    let stray : Record := ⟨6, 3, 7, .inner, 1, 2, false, [], []⟩
    (∀ record ∈ [inner, sink, stray], record.Countable) ∧
    decode (encode [inner, sink]) = .ok
      [⟨1, 0, 0, .normal, 0, 1, true, [5, 5], [⟨1, 9, 9, 9, 100, 100, 0, 0, 0, 0⟩]⟩, sink] ∧
    decode (encode [inner, sink, stray, inner]) = .error (.trace 272 (.strayTarget 6 .normal 1)) := by
  intro inner sink stray
  have hcount : ∀ record ∈ [inner, sink, stray, inner], record.Countable := by
    intro record hm
    simp only [List.mem_cons, List.not_mem_nil, or_false] at hm
    rcases hm with rfl | rfl | rfl | rfl <;> decide
  refine ⟨?_, ?_, ?_⟩
  · intro record hm
    exact hcount record (List.mem_append_left [inner] hm)
  · refine ((decode_encode ?_).1 ?_).1
    · intro record hm
      exact hcount record (List.mem_append_left [stray, inner] hm)
    · simp [inner, sink]
  · refine (decode_encode hcount).2.1 [inner, sink] stray [inner] rfl ?_ ?_
    · simp [inner, sink]
    · exact ⟨by decide, by decide⟩

end RegionPlanner
