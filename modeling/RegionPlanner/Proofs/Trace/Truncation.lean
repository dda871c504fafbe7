import RegionPlanner.Proofs.Trace.Calls
import RegionPlanner.Proofs.Trace.Following
import RegionPlanner.Proofs.Trace.RoundTrip

/-!
# Traces that break off

The beginning of a trace is read up to where it breaks off. If that is not between two records, the decoder says so:
after the records that are there as a whole comes one fault, behind the last whole word, and nothing after it.
-/

namespace RegionPlanner

/-! ### Records that were read -/

theorem readMany_length {α : Type} {item : Read (List UInt8) α} {done all : List α} {count : Nat}
    {before after : Cursor (List UInt8)} (h : readMany item done count before = .ok all after) :
    all.length = done.length + count := by
  induction count generalizing done before with
  | zero =>
    obtain ⟨rfl, -⟩ := state_pure_eq_ok.mp h
    rw [List.length_reverse]
    rfl
  | succ count ih =>
    obtain ⟨next, between, -, hrest⟩ := state_bind_eq_ok.mp h
    have hlength := ih hrest
    rw [List.length_cons] at hlength
    omega

theorem readRecord_countable {uid : UInt64} {before after : Cursor (List UInt8)} {record : Record}
    (h : readRecord uid before = .ok record after) : record.Countable := by
  unfold readRecord at h
  obtain ⟨region, _, -, h⟩ := state_bind_eq_ok.mp h
  obtain ⟨callSite, _, -, h⟩ := state_bind_eq_ok.mp h
  obtain ⟨kind, _, -, h⟩ := state_bind_eq_ok.mp h
  obtain ⟨target, _, -, h⟩ := state_bind_eq_ok.mp h
  obtain ⟨instances, _, -, h⟩ := state_bind_eq_ok.mp h
  obtain ⟨parallel, _, -, h⟩ := state_bind_eq_ok.mp h
  obtain ⟨childCount, _, -, h⟩ := state_bind_eq_ok.mp h
  obtain ⟨children, _, hchildren, h⟩ := state_bind_eq_ok.mp h
  obtain ⟨statCount, _, -, h⟩ := state_bind_eq_ok.mp h
  obtain ⟨stats, _, hstats, h⟩ := state_bind_eq_ok.mp h
  obtain ⟨rfl, -⟩ := state_pure_eq_ok.mp h
  have hchildCount := childCount.toNat_lt
  have hstatCount := statCount.toNat_lt
  have hchildLength := readMany_length hchildren
  have hstatLength := readMany_length hstats
  rw [List.length_nil] at hchildLength hstatLength
  constructor
  · show children.length < 2 ^ 64
    omega
  · show stats.length < 2 ^ 64
    omega

theorem Decoder.next_countable {decoder after : Decoder (List UInt8)} {record : Record}
    (h : decoder.next = (some (.ok record), after)) : record.Countable := by
  unfold next at h
  split at h
  · cases h
  · split at h
    · split at h
      · next hread =>
        cases h
        exact readRecord_countable hread
      · cases h
    · cases h
    · cases h
    · cases h

theorem Decoder.itemsWithin_countable {decoder : Decoder (List UInt8)} {fuel : Nat} {record : Record} {offset : Nat}
    (hm : (.ok record, offset) ∈ (decoder.itemsWithin fuel).1) : record.Countable := by
  induction fuel generalizing decoder with
  | zero => cases hm
  | succ fuel ih =>
    cases hnext : decoder.next with
    | mk item after =>
      cases item with
      | none =>
        simp only [itemsWithin, hnext] at hm
        cases hm
      | some item =>
        simp only [itemsWithin, hnext] at hm
        rcases List.mem_cons.mp hm with hfirst | hrest
        · cases hfirst
          exact next_countable hnext
        · exact ih hrest

theorem decode_countable {bytes : List UInt8} {records : List Record} (h : decode bytes = .ok records) :
    ∀ record ∈ records, record.Countable := by
  intro record hm
  obtain ⟨⟨item, offset⟩, hitem, hok⟩ := exists_of_mem_mapM h hm
  have hrecord : item = .ok record := hok
  subst hrecord
  exact Decoder.itemsWithin_countable hitem

theorem Record.Traced.stored_eq {record : Record} (h : record.Traced) : record.stored = record := by
  have hkind : record.kind.traced = record.kind := by
    rcases h.kind with hk | hk | hk <;> rw [hk] <;> rfl
  have hstats : record.stats.map Stat.stored = record.stats := by
    have hsame : ∀ stat ∈ record.stats, stat.stored = id stat := by
      intro stat hm
      show { stat with weight := 0 } = stat
      rw [← h.weights stat hm]
    rw [List.map_congr_left hsame, List.map_id]
  show { record with kind := record.kind.traced, stats := record.stats.map Stat.stored } = record
  rw [hkind, hstats]

theorem Record.Traced.not_stray {record : Record} (h : record.Traced) : ¬ record.Stray := by
  rintro ⟨hkind, htarget⟩
  exact htarget (h.target hkind)

/-! ### A record that breaks off -/

/-- The same place in a trace and in a beginning of it. -/
def Begins (rest : List UInt8) (whole part : Cursor (List UInt8)) : Prop :=
  whole.source = part.source ++ rest ∧ whole.offset = part.offset

/-- A refusal stays what it is when more bytes follow. -/
theorem begins_matches (rest : List UInt8) :
    Matches (Begins rest) (fun fault => if fault.isRefusal then some fault else none) := by
  constructor
  · intro s t value left hst hp
    obtain ⟨hsource, hoffset⟩ := hst
    rw [pullBytes_eq_word hp, List.append_assoc] at hsource
    refine ⟨left ++ rest, ?_, rfl, ?_⟩
    · rw [hsource]
      exact pullBytes_bytesOfWord value _
    · show s.offset + 8 = t.offset + 8
      rw [hoffset]
  · intro s t count name other hst hp hbecome
    cases hbecome
  · intro decoder t count other hst hd hp hbecome
    cases hbecome
  · intro s t reason other hst hrefusal hbecome
    rw [if_pos hrefusal, Option.some.injEq] at hbecome
    rw [← hbecome, hst.2]
  · intro uid code other hbecome
    exact (Option.some.inj hbecome).symm

theorem length_encode_mod (records : List Record) : (encode records).length % 8 = 0 := by
  induction records with
  | nil => rfl
  | cons record records ih =>
    have hrecord := record.length_bytes
    rw [encode_cons, List.length_append]
    omega

namespace Decoder

variable {record : Record} {part rest : List UInt8} {offset : Nat}

/-- A record that breaks off gives a fault behind its last whole word. -/
theorem next_cut (hcount : record.Countable) (hstray : ¬ record.Stray) (hcut : record.bytes = part ++ rest)
    (hpart : part ≠ []) (hrest : rest ≠ []) (hwhole : offset % 8 = 0) :
    ∃ (reason : TraceFault) (after : Decoder (List UInt8)), reason.isTruncation = true ∧ after.failed = true ∧
      after.offset = 8 * ((offset + part.length) / 8) ∧
      next (⟨⟨part, offset⟩, false⟩ : Decoder (List UInt8)) = (some (.error (.trace after.offset reason)), after) := by
  have hwritten := @next_written record [] offset hcount hstray
  rw [List.append_nil, hcut] at hwritten
  have hbegins : Begins rest ⟨part ++ rest, offset⟩ ⟨part, offset⟩ := ⟨rfl, rfl⟩
  cases hnext : next (⟨⟨part, offset⟩, false⟩ : Decoder (List UInt8)) with
  | mk item after =>
    rcases item with _ | fault | found
    · exact absurd (next_end rfl hnext) hpart
    · -- The whole record is read, so no field of its beginning is refused.
      obtain ⟨hspans, hfailed, hkind, hother⟩ :=
        @next_follows_fault _ _ _ _ (begins_matches rest) ⟨⟨part ++ rest, offset⟩, false⟩ _ _ hbegins rfl rfl _ hnext
      rcases hkind with hrefusal | ⟨hshort, reason, hreason, rfl⟩
      · obtain ⟨behind, hwhole, -, -⟩ := hother fault (if_pos hrefusal)
        rw [hwritten] at hwhole
        cases hwhole
      · exact ⟨reason, after, hreason, hfailed, hspans.offset_eq hwhole hshort, rfl⟩
    · -- The beginning alone would be read like the whole record, which leaves nothing over.
      obtain ⟨-, -, behind, hwhole, ⟨hsource, -⟩, -⟩ :=
        @next_follows_record _ _ _ _ (begins_matches rest) ⟨⟨part ++ rest, offset⟩, false⟩ _ _ hbegins rfl rfl _ hnext
      rw [hwritten] at hwhole
      cases hwhole
      exact absurd (List.append_eq_nil_iff.mp hsource.symm).2 hrest

end Decoder

/-! ### Where a trace breaks off -/

variable {bytes : List UInt8} {records : List Record} {n : Nat}

/-- A trace breaks off between two records or within one. -/
theorem exists_cut (hn : n ≤ (encode records).length) (hbetween : ∀ k ≤ records.length, (encode (records.take k)).length ≠ n) :
    ∃ before record after, records = before ++ record :: after ∧ (encode before).length < n ∧
      n < (encode before).length + record.bytes.length := by
  induction records generalizing n with
  | nil => exact absurd (Nat.le_zero.mp hn).symm (hbetween 0 (Nat.le_refl 0))
  | cons record records ih =>
    have hpos : n ≠ 0 := fun hzero => hbetween 0 (Nat.zero_le _) hzero.symm
    rw [encode_cons, List.length_append] at hn
    by_cases hfirst : n < record.bytes.length
    · refine ⟨[], record, records, rfl, ?_, ?_⟩
      · rw [encode_nil, List.length_nil]
        omega
      · rw [encode_nil, List.length_nil]
        omega
    · have hlater : ∀ k ≤ records.length, (encode (records.take k)).length ≠ n - record.bytes.length := by
        intro k hk heq
        refine hbetween (k + 1) (Nat.succ_le_succ hk) ?_
        rw [List.take_succ_cons, encode_cons, List.length_append, heq]
        omega
      obtain ⟨before, cut, after, rfl, hlow, hhigh⟩ := ih (by omega) hlater
      refine ⟨record :: before, cut, after, rfl, ?_, ?_⟩
      · rw [encode_cons, List.length_append]
        omega
      · rw [encode_cons, List.length_append]
        omega

theorem encode_take_drop (records : List Record) (k : Nat) :
    encode records = encode (records.take k) ++ encode (records.drop k) := by
  rw [← encode_append, List.take_append_drop]

theorem length_encode_take_mono (records : List Record) {j k : Nat} (h : j ≤ k) :
    (encode (records.take j)).length ≤ (encode (records.take k)).length := by
  obtain ⟨rest, hrest⟩ := List.take_prefix_take_left h (l := records)
  rw [← hrest, encode_append, List.length_append]
  omega

/-- The records that end before the trace breaks off are those before the one that it breaks off in. -/
theorem ends_before_iff {before after : List Record} {record : Record} {call : Nat} (hlow : (encode before).length ≤ n)
    (hhigh : n < (encode before).length + record.bytes.length) :
    (encode ((before ++ record :: after).take (call + 1))).length ≤ n ↔ call < before.length := by
  constructor
  · intro hends
    by_contra hlater
    have hcut : (before ++ record :: after).take (before.length + 1) = before ++ [record] := by
      rw [List.take_length_add_append, List.take_succ_cons, List.take_zero]
    have hmono := length_encode_take_mono (before ++ record :: after) (Nat.add_le_add_right (Nat.not_lt.mp hlater) 1)
    rw [hcut, encode_append, encode_cons, encode_nil, List.append_nil, List.length_append] at hmono
    omega
  · intro hearlier
    have hmono := length_encode_take_mono (before ++ record :: after) (Nat.succ_le_of_lt hearlier)
    rw [List.take_left] at hmono
    exact hmono.trans hlow

/-- The records that are there as a whole, and then the fault. -/
theorem Decoder.items_cut {before after : List Record} {record : Record}
    (hgood : ∀ good ∈ before ++ record :: after, good.Countable ∧ ¬ good.Stray) (hlow : (encode before).length < n)
    (hhigh : n < (encode before).length + record.bytes.length) :
    ∃ reason : TraceFault, reason.isTruncation = true ∧ (start ((encode (before ++ record :: after)).take n)).items =
      (written 0 before ++ [(.error (.trace (8 * (n / 8)) reason), 8 * (n / 8))], 8 * (n / 8)) := by
  obtain ⟨m, rfl⟩ := Nat.exists_eq_add_of_lt hlow
  have hcut : record.bytes = record.bytes.take (m + 1) ++ record.bytes.drop (m + 1) := (List.take_append_drop _ _).symm
  have hbegin : (encode (before ++ record :: after)).take ((encode before).length + m + 1) =
      encode before ++ record.bytes.take (m + 1) := by
    rw [encode_append, encode_cons, Nat.add_assoc, List.take_length_add_append,
      List.take_append_of_le_length (by omega)]
  have hlength : (record.bytes.take (m + 1)).length = m + 1 := by
    rw [List.length_take]
    omega
  have hpart : record.bytes.take (m + 1) ≠ [] := by
    apply List.ne_nil_of_length_pos
    omega
  have hrest : record.bytes.drop (m + 1) ≠ [] := by
    apply List.ne_nil_of_length_pos
    rw [List.length_drop]
    omega
  obtain ⟨hcount, hstray⟩ := hgood record (List.mem_append_right _ List.mem_cons_self)
  obtain ⟨reason, stop, hreason, hfailed, hoffset, hnext⟩ :=
    next_cut hcount hstray hcut hpart hrest (length_encode_mod before)
  rw [hlength, ← Nat.add_assoc] at hoffset
  obtain ⟨fuel, hitems⟩ := @items_encode before (record.bytes.take (m + 1))
    fun good hm => hgood good (List.mem_append_left _ hm)
  rw [itemsWithin_fault hnext hfailed, hoffset] at hitems
  refine ⟨reason, hreason, ?_⟩
  rw [hbegin]
  exact hitems

theorem Decoder.written_getElem? (records : List Record) (call : Nat) : (written 0 records)[call]? =
    records[call]?.map fun record => (.ok record.stored, (encode (records.take (call + 1))).length) := by
  unfold written
  rw [List.getElem?_mapIdx]
  simp only [Nat.zero_add]

/-- The answers of a decoder whose items are whole records and then a fault. -/
theorem Decoder.answer_written {decoder : Decoder (List UInt8)} {before : List Record} {fault : Fault} {last : Nat}
    (h : decoder.items = (written 0 before ++ [(.error fault, last)], last)) :
    (∀ call record, before[call]? = some record →
      decoder.answer call = (some (.ok record.stored), (encode (before.take (call + 1))).length)) ∧
    decoder.answer before.length = (some (.error fault), last) ∧
    ∀ call > before.length, decoder.answer call = (none, last) := by
  have hlength : (written 0 before).length = before.length := List.length_mapIdx
  refine ⟨?_, ?_, ?_⟩
  · intro call record hcall
    have hbound := (List.getElem?_eq_some_iff.mp hcall).1
    rw [answer_items, h, List.getElem?_append_left (by omega), written_getElem?, hcall]
    rfl
  · rw [answer_items, h, ← hlength, List.getElem?_concat_length]
  · intro call hcall
    have hnone : (written 0 before ++ [(.error fault, last)])[call]? = none := by
      rw [List.getElem?_eq_none_iff, List.length_append, hlength]
      exact hcall
    rw [answer_items, h, hnone]

/-- A beginning of a trace holds some of its records, or it is a fault to have broken off there. -/
theorem trace_truncated (h : decode bytes = .ok records) (hn : n ≤ bytes.length) :
    (∀ k ≤ records.length, (encode (records.take k)).length = n → decode (bytes.take n) = .ok (records.take k)) ∧
    ((∀ k ≤ records.length, (encode (records.take k)).length ≠ n) → ∃ k reason,
      reason.isTruncation = true ∧
      (∀ call < records.length, (encode (records.take (call + 1))).length ≤ n ↔ call < k) ∧
      (∀ call < k, ∃ record, records[call]? = some record ∧ (Decoder.start (bytes.take n)).answer call =
        (some (.ok record), (encode (records.take (call + 1))).length)) ∧
      (Decoder.start (bytes.take n)).answer k = (some (.error (.trace (8 * (n / 8)) reason)), 8 * (n / 8)) ∧
      (∀ call > k, (Decoder.start (bytes.take n)).answer call = (none, 8 * (n / 8))) ∧
      decode (bytes.take n) = .error (.trace (8 * (n / 8)) reason)) := by
  obtain ⟨hbytes, htraced⟩ := decode_takes h
  have hgood : ∀ record ∈ records, record.Countable ∧ ¬ record.Stray := by
    intro record hm
    exact ⟨decode_countable h record hm, (htraced record hm).not_stray⟩
  have hstored : ∀ record ∈ records, record.stored = id record := fun record hm => (htraced record hm).stored_eq
  subst hbytes
  constructor
  · intro k hk hlength
    have hbegin : (encode records).take n = encode (records.take k) := by
      rw [← hlength, encode_take_drop records k, List.take_left]
    have hm : ∀ record ∈ records.take k, record ∈ records := fun record hm => List.mem_of_mem_take hm
    rw [hbegin, (decode_good fun record hr => hgood record (hm record hr)).2,
      List.map_congr_left fun record hr => hstored record (hm record hr), List.map_id]
  · intro hbetween
    obtain ⟨before, record, after, rfl, hlow, hhigh⟩ := exists_cut hn hbetween
    obtain ⟨reason, hreason, hitems⟩ := Decoder.items_cut hgood hlow hhigh
    obtain ⟨hwhole, hfault, hend⟩ := Decoder.answer_written hitems
    refine ⟨before.length, reason, hreason, ?_, ?_, hfault, hend, ?_⟩
    · intro call _
      exact ends_before_iff (Nat.le_of_lt hlow) hhigh
    · intro call hearlier
      have hcall := List.getElem?_eq_getElem hearlier
      refine ⟨before[call], ?_, ?_⟩
      · rw [List.getElem?_append_left hearlier, hcall]
      · rw [hwhole call _ hcall, hstored _ (List.mem_append_left _ (List.getElem_mem hearlier)),
          List.take_append_of_le_length hearlier]
        rfl
    · unfold decode decodeSource
      rw [hitems, Decoder.written_mapM]
      rfl

theorem trace_truncated_two_records :
    let first : Record := ⟨1, 0, 0, .normal, 0, 1, false, [5], [⟨1, 9, 9, 9, 100, 100, 0, 0, 0, 0⟩]⟩
    let second : Record := ⟨5, 3, 7, .sink, 4, 2, true, [], []⟩
    let bytes := [1, 0, 0, 0, 0, 1, 0, 1, 5, 1, 1, 9, 9, 9, 100, 100, 0, 0, 0,
      5, 3, 7, 2, 4, 2, 1, 0, 0].flatMap bytesOfWord
    decode bytes = .ok [first, second] ∧ decode (bytes.take 152) = .ok [first] ∧
    (∀ k ≤ 2, (encode ([first, second].take k)).length ≠ 165) ∧
    ∃ reason, decode (bytes.take 165) = .error (.trace 160 reason) := by
  intro first second bytes
  have h : decode bytes = .ok [first, second] := by cbv
  have hbetween : ∀ k ≤ 2, (encode ([first, second].take k)).length ≠ 165 := by decide +kernel
  have hn : 165 ≤ bytes.length := by decide +kernel
  have hn' : 152 ≤ bytes.length := by decide +kernel
  refine ⟨h, (trace_truncated h hn').1 1 (by decide) (by decide +kernel), hbetween, ?_⟩
  obtain ⟨_, reason, -, -, -, -, -, hdecode⟩ := (trace_truncated h hn).2 hbetween
  exact ⟨reason, hdecode⟩

end RegionPlanner
