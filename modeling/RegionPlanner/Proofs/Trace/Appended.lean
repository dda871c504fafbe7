import RegionPlanner.Proofs.Trace.Truncation

/-!
# Traces one behind the other

A record is read the same wherever it begins, so the records of two traces, one behind the other, are those of the first
and then those of the second. What is wrong with the second is wrong with both, further on.
-/

namespace RegionPlanner

/-! ### Further on -/

/-- A fault so many bytes further on in a trace. -/
def Fault.movedBy (distance : Nat) : Fault → Fault
  | .trace offset reason => .trace (distance + offset) reason
  | fault => fault

/-- The same bytes are left, and so many more were taken. -/
def Behind (distance : Nat) (cursor bytes : Cursor (List UInt8)) : Prop :=
  cursor.source = bytes.source ∧ cursor.offset = distance + bytes.offset

theorem behind_matches (distance : Nat) : Matches (Behind distance) (fun fault => some (fault.movedBy distance)) := by
  constructor
  · intro s t value rest hst hp
    refine ⟨rest, ?_, rfl, ?_⟩
    · rw [hst.1]
      exact hp
    · show s.offset + 8 = distance + (t.offset + 8)
      rw [hst.2]
      omega
  · intro s t count name other hst hp hother
    have hpull : WordSource.pull s.source = .short count := hst.1 ▸ hp
    simp only [readField, hpull, hst.2, ← Option.some.inj hother]
    rfl
  · intro decoder t count other hst hd hp hother
    have hpull : WordSource.pull decoder.source = .short (count + 1) := hst.1 ▸ hp
    have hoffset : decoder.offset = distance + t.offset := hst.2
    simp only [Decoder.next, hd, hpull, hoffset, ← Option.some.inj hother]
    rfl
  · intro s t reason other hst hrefusal hother
    rw [← Option.some.inj hother, hst.2]
    rfl
  · intro uid code other hother
    exact (Option.some.inj hother).symm

/-- What a trace can be refused for while it is read. -/
def Fault.IsOfTrace (fault : Fault) : Prop :=
  (∃ offset reason, fault = .trace offset reason) ∨ ∃ uid code, fault = .unknownNodeKind uid code

theorem Fault.isOfTrace_of_isRefusal {fault : Fault} (h : fault.isRefusal = true) : fault.IsOfTrace := by
  cases fault with
  | trace offset reason => exact .inl ⟨offset, reason, rfl⟩
  | unknownNodeKind uid code => exact .inr ⟨uid, code, rfl⟩
  | _ => cases h

namespace Decoder

variable {decoder bytes : Decoder (List UInt8)} {distance fuel : Nat}

/-- An item and the offset after it, so many bytes further on. -/
def movedBy (distance : Nat) : Except Fault Record × Nat → Except Fault Record × Nat
  | (item, offset) => (item.mapError (·.movedBy distance), distance + offset)

theorem itemsWithin_behind (h : Behind distance decoder.toCursor bytes.toCursor) (hd : decoder.failed = false)
    (hb : bytes.failed = false) : decoder.itemsWithin fuel =
      ((bytes.itemsWithin fuel).1.map (movedBy distance), distance + (bytes.itemsWithin fuel).2) := by
  induction fuel generalizing decoder bytes with
  | zero => exact congrArg (([], ·)) h.2
  | succ fuel ih =>
    cases hnext : bytes.next with
    | mk item after =>
      rcases item with _ | fault | record
      · have hsame := eq_of_next_none hnext
        have hend : WordSource.pull decoder.source = .short 0 := by
          rw [h.1, next_end hb hnext]
          rfl
        have hstop : decoder.next = (none, decoder) := by simp [next, hd, hend]
        subst hsame
        simp only [itemsWithin, hnext, hstop, List.map_nil]
        exact congrArg (([], ·)) h.2
      · obtain ⟨-, hafter, -, hother⟩ := next_follows_fault (behind_matches distance) h hd hb hnext
        obtain ⟨behind, hbehind, hmoved, hstop⟩ := hother _ rfl
        have hoffset : behind.offset = distance + after.offset := hmoved.2
        rw [itemsWithin_fault hnext hafter, itemsWithin_fault hbehind hstop, hoffset]
        rfl
      · obtain ⟨-, hafter, behind, hbehind, hmoved, hgoes⟩ :=
          next_follows_record (behind_matches distance) h hd hb hnext
        have hoffset : behind.offset = distance + after.offset := hmoved.2
        simp only [itemsWithin, hnext, hbehind, ih hmoved hgoes hafter, List.map_cons, hoffset]
        rfl

/-! ### All items of a trace -/

/-- More fuel than there are bytes gives all items. -/
theorem itemsWithin_enough (hfuel : decoder.source.length < fuel) : decoder.itemsWithin fuel = decoder.items := by
  have hstable : ∀ other, decoder.source.length < other → decoder.itemsWithin fuel = decoder.itemsWithin other := by
    induction fuel generalizing decoder with
    | zero => omega
    | succ fuel ih =>
      intro other hother
      obtain ⟨more, rfl⟩ := Nat.exists_eq_succ_of_ne_zero (Nat.ne_zero_of_lt hother)
      cases hnext : decoder.next with
      | mk item after =>
        rcases item with _ | fault | record
        · simp only [itemsWithin, hnext]
        · obtain ⟨hafter, -⟩ := next_fault hnext
          rw [itemsWithin_fault hnext hafter, itemsWithin_fault hnext hafter]
        · have hlength := next_record_length hnext
          have hrest : after.itemsWithin fuel = after.itemsWithin more := ih (by omega) more (by omega)
          simp only [itemsWithin, hnext, hrest]
  exact hstable _ (Nat.lt_succ_self _)

/-- What a decoder yields: records that are written where it stands, and then nothing at the end of the bytes, or one
fault. -/
structure Yields (decoder : Decoder (List UInt8)) (records : List Record)
    (tail : List (Except Fault Record × Nat)) : Prop where
  traced : ∀ record ∈ records, record.Traced
  begins : encode records <+: decoder.source
  ends : tail = [] ∧ encode records = decoder.source ∨ ∃ fault offset, fault.IsOfTrace ∧ tail = [(.error fault, offset)]

theorem exists_yields (hd : decoder.failed = false) (hfuel : decoder.source.length < fuel) :
    ∃ records tail, (decoder.itemsWithin fuel).1 = written decoder.offset records ++ tail ∧
      decoder.Yields records tail := by
  induction fuel generalizing decoder with
  | zero => omega
  | succ fuel ih =>
    cases hnext : decoder.next with
    | mk item after =>
      rcases item with _ | fault | record
      · refine ⟨[], [], ?_, by simp, List.nil_prefix, .inl ⟨rfl, (next_end hd hnext).symm⟩⟩
        simp only [itemsWithin, hnext]
        rfl
      · have hself : Behind 0 decoder.toCursor decoder.toCursor := ⟨rfl, (Nat.zero_add _).symm⟩
        obtain ⟨-, hafter, hkind, -⟩ := next_follows_fault (behind_matches 0) hself hd hd hnext
        refine ⟨[], [(.error fault, after.offset)], ?_, by simp, List.nil_prefix, .inr ⟨fault, after.offset, ?_, rfl⟩⟩
        · rw [itemsWithin_fault hnext hafter]
          rfl
        · rcases hkind with hrefusal | ⟨-, reason, -, rfl⟩
          · exact Fault.isOfTrace_of_isRefusal hrefusal
          · exact .inl ⟨_, reason, rfl⟩
      · obtain ⟨hafter, htraced, hsource, hoffset⟩ := next_record hnext
        have hlength := next_record_length hnext
        obtain ⟨records, tail, hitems, hrecords, hbegins, hends⟩ := ih hafter (by omega)
        have hbytes : decoder.source = record.bytes ++ after.source := hsource
        have hbehind : after.offset = decoder.offset + record.bytes.length := by
          rw [Record.bytes, length_flatMap_bytesOfWord]
          exact hoffset
        refine ⟨record :: records, tail, ?_, ?_, ?_, ?_⟩
        · simp only [itemsWithin, hnext, hitems, written_cons, htraced.stored_eq, hbehind, List.cons_append]
        · exact List.forall_mem_cons.mpr ⟨htraced, hrecords⟩
        · rw [encode_cons, hbytes]
          exact (List.prefix_append_right_inj _).mpr hbegins
        · rw [encode_cons, hbytes]
          rcases hends with ⟨hnone, hall⟩ | hfault
          · exact .inl ⟨hnone, congrArg (record.bytes ++ ·) hall⟩
          · exact .inr hfault

theorem items_yields (bytes : List UInt8) : ∃ records tail,
    (start bytes).items.1 = written 0 records ++ tail ∧ (start bytes).Yields records tail :=
  exists_yields rfl (Nat.lt_succ_self _)

end Decoder

/-! ### The second trace -/

theorem Decoder.items_append {records : List Record} (hgood : ∀ record ∈ records, record.Countable ∧ ¬ record.Stray)
    (b : List UInt8) : (start (encode records ++ b)).items.1 =
      written 0 records ++ (start b).items.1.map (movedBy (encode records).length) := by
  let fuel := (encode records ++ b).length + 1
  have hmoved : Behind (encode records).length ⟨b, 0 + (encode records).length⟩ (start b).toCursor :=
    ⟨rfl, Nat.add_comm _ _⟩
  have hall : (start (encode records ++ b)).itemsWithin (records.length + fuel) = (start (encode records ++ b)).items :=
    itemsWithin_enough (by simp [start, fuel]; omega)
  have hsecond : (start b).itemsWithin fuel = (start b).items := itemsWithin_enough (by simp [start, fuel])
  have hbehind := @itemsWithin_behind ⟨⟨b, 0 + (encode records).length⟩, false⟩ _ _ fuel hmoved rfl rfl
  have hitems := @itemsWithin_written records b 0 hgood fuel
  rw [hbehind, hsecond] at hitems
  rw [← hall]
  exact congrArg Prod.fst hitems

theorem decode_append {a : List UInt8} {records : List Record} (h : decode a = .ok records) (b : List UInt8) :
    decode (a ++ b) = (records ++ ·) <$> (decode b).mapError (·.movedBy a.length) := by
  obtain ⟨rfl, htraced⟩ := decode_takes h
  have hgood : ∀ record ∈ records, record.Countable ∧ ¬ record.Stray :=
    fun record hm => ⟨decode_countable h record hm, (htraced record hm).not_stray⟩
  have hstored : records.map Record.stored = records := by
    rw [List.map_congr_left fun record hm => (htraced record hm).stored_eq, List.map_id']
  unfold decode decodeSource
  rw [Decoder.items_append hgood, Decoder.written_mapM, hstored, List.mapM_map]
  exact congrArg ((records ++ ·) <$> ·) mapM_mapError

theorem decode_error_isOfTrace {bytes : List UInt8} {fault : Fault} (h : decode bytes = .error fault) :
    fault.IsOfTrace := by
  obtain ⟨records, tail, hitems, hyields⟩ := Decoder.items_yields bytes
  have hdecode : decode bytes = (records.map Record.stored ++ ·) <$> tail.mapM (·.1) := by
    rw [← Decoder.written_mapM 0, ← hitems]
    rfl
  rcases hyields.ends with ⟨rfl, -⟩ | ⟨found, offset, hfound, rfl⟩
  · rw [h] at hdecode
    cases hdecode
  · rw [h] at hdecode
    cases hdecode
    exact hfound

/-- A trace behind another one is read as it is read alone, further on; and what a decoder yields before the first fault
are the records that its bytes begin with. -/
theorem trace_appended :
    (∀ a b records, decode a = .ok records →
      (∀ more, decode b = .ok more → decode (a ++ b) = .ok (records ++ more)) ∧
      ∀ fault, decode b = .error fault →
        (∃ offset reason, fault = .trace offset reason ∧
          decode (a ++ b) = .error (.trace (a.length + offset) reason)) ∨
        ∃ uid code, fault = .unknownNodeKind uid code ∧ decode (a ++ b) = .error fault) ∧
    ∀ bytes, ∃ records tail,
      (Decoder.start bytes).items.1 = (records.mapIdx fun place record =>
        (.ok record, (encode (records.take (place + 1))).length)) ++ tail ∧
      encode records <+: bytes ∧
      (tail = [] ∧ encode records = bytes ∨ ∃ fault offset, tail = [(.error fault, offset)]) := by
  constructor
  · intro a b records ha
    refine ⟨fun more hb => ?_, fun fault hb => ?_⟩
    · rw [decode_append ha, hb]
      rfl
    · rw [decode_append ha, hb]
      rcases decode_error_isOfTrace hb with ⟨offset, reason, rfl⟩ | ⟨uid, code, rfl⟩
      · exact .inl ⟨offset, reason, rfl, rfl⟩
      · exact .inr ⟨uid, code, rfl, rfl⟩
  · intro bytes
    obtain ⟨records, tail, hitems, htraced, hbegins, hends⟩ := Decoder.items_yields bytes
    refine ⟨records, tail, ?_, hbegins, hends.imp_right fun ⟨fault, offset, _, htail⟩ => ⟨fault, offset, htail⟩⟩
    rw [hitems]
    congr 1
    unfold Decoder.written
    refine List.mapIdx_eq_mapIdx_iff.mpr fun place hplace => ?_
    rw [(htraced _ (List.getElem_mem hplace)).stored_eq]
    exact congrArg (Prod.mk _) (Nat.zero_add _)

theorem trace_appended_two_records :
    let first := [1, 0, 0, 0, 0, 1, 0, 1, 5, 1, 1, 9, 9, 9, 100, 100, 0, 0, 0].flatMap bytesOfWord
    let second := [5, 3, 7, 2, 4, 2, 1, 0, 0].flatMap bytesOfWord
    let records : List Record := [⟨1, 0, 0, .normal, 0, 1, false, [5], [⟨1, 9, 9, 9, 100, 100, 0, 0, 0, 0⟩]⟩]
    let more : List Record := [⟨5, 3, 7, .sink, 4, 2, true, [], []⟩]
    decode first = .ok records ∧ decode second = .ok more ∧ decode (first ++ second) = .ok (records ++ more) ∧
    decode (second.take 13) = .error (.trace 8 (.truncated "static_region_id")) ∧
    decode (first ++ second.take 13) = .error (.trace 160 (.truncated "static_region_id")) ∧
    decode ([6, 0, 0, 9].flatMap bytesOfWord) = .error (.unknownNodeKind 6 9) ∧
    decode (first ++ [6, 0, 0, 9].flatMap bytesOfWord) = .error (.unknownNodeKind 6 9) := by
  intro first second records more
  obtain ⟨hfirst, hsecond, hcut, hkind⟩ : decode first = .ok records ∧ decode second = .ok more ∧
      decode (second.take 13) = .error (.trace 8 (.truncated "static_region_id")) ∧
      decode ([6, 0, 0, 9].flatMap bytesOfWord) = .error (.unknownNodeKind 6 9) := ⟨by cbv, by cbv, by cbv, by cbv⟩
  have hlength : first.length = 152 := by decide +kernel
  refine ⟨hfirst, hsecond, (trace_appended.1 _ _ _ hfirst).1 _ hsecond, hcut, ?_, hkind, ?_⟩
  · rcases (trace_appended.1 _ _ _ hfirst).2 _ hcut with ⟨offset, reason, hfault, hboth⟩ | ⟨uid, code, hfault, -⟩
    · cases hfault
      rwa [hlength] at hboth
    · cases hfault
  · rcases (trace_appended.1 _ _ _ hfirst).2 _ hkind with ⟨offset, reason, hfault, -⟩ | ⟨uid, code, -, hboth⟩
    · cases hfault
    · exact hboth

end RegionPlanner
