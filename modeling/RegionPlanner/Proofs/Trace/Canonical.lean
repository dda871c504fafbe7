import Mathlib
import RegionPlanner.Proofs.Trace.Taking

/-!
# One way to write a trace

A trace that can be read is written back byte for byte, so two traces never hold the same records.
-/

namespace RegionPlanner

namespace Decoder

variable {decoder after : Decoder (List UInt8)}

/-! ### One item -/

theorem next_record {record : Record} (h : decoder.next = (some (.ok record), after)) :
    after.failed = false ∧ record.Traced ∧ Takes record.words decoder.toCursor after.toCursor := by
  unfold next at h
  cases hf : decoder.failed with
  | true => rw [hf] at h; simp at h
  | false =>
    rw [hf] at h
    cases hp : WordSource.pull decoder.source with
    | word uid rest =>
      rw [hp] at h
      cases hr : readRecord uid ⟨rest, decoder.offset + 8⟩ with
      | ok found cursor =>
        simp only [hr, Bool.false_eq_true, if_false, Prod.mk.injEq, Option.some.injEq, Except.ok.injEq] at h
        obtain ⟨rfl, rfl⟩ := h
        have first : Takes [uid] decoder.toCursor ⟨rest, decoder.offset + 8⟩ := takes_word hp
        obtain ⟨traced, words, hwords, taken⟩ := readRecord_takes hr
        refine ⟨rfl, traced, ?_⟩
        rw [hwords]
        exact first.cons taken
      | error fault cursor => simp [hr] at h
    | short count =>
      rw [hp] at h
      cases count <;> simp at h
    | failed text early => exact absurd hp (pullBytes_ne_failed _ _ _)

theorem next_end (hf : decoder.failed = false) (h : decoder.next = (none, after)) : decoder.source = [] := by
  unfold next at h
  rw [hf] at h
  cases hp : WordSource.pull decoder.source with
  | word uid rest =>
    rw [hp] at h
    cases hr : readRecord uid ⟨rest, decoder.offset + 8⟩ <;> simp [hr] at h
  | short count =>
    cases count with
    | zero => exact List.length_eq_zero_iff.mp (pullBytes_eq_short hp)
    | succ count => rw [hp] at h; simp at h
  | failed text early => exact absurd hp (pullBytes_ne_failed _ _ _)

/-! ### All items -/

/-- The fuel is more than the bytes that are left, and each record takes some of them. -/
theorem itemsWithin_canonical {fuel : Nat} {records : List Record} (hf : decoder.failed = false)
    (hfuel : decoder.source.length < fuel)
    (h : (decoder.itemsWithin fuel).1.mapM (·.1) = .ok records) :
    encode records = decoder.source ∧ ∀ record ∈ records, record.Traced := by
  induction fuel generalizing decoder records with
  | zero => omega
  | succ fuel ih =>
    unfold itemsWithin at h
    cases hn : decoder.next with
    | mk item after =>
      rw [hn] at h
      cases item with
      | none =>
        have hend := next_end hf hn
        rw [hend]
        simp only [List.mapM_nil, pure_eq_ok] at h
        subst h
        exact ⟨rfl, by simp⟩
      | some item =>
        simp only [List.mapM_cons] at h
        obtain ⟨record, hitem, h⟩ := bind_eq_ok.mp h
        obtain ⟨rest, hrest, hall⟩ := bind_eq_ok.mp h
        rw [pure_eq_ok] at hall
        subst hitem
        subst hall
        obtain ⟨hafter, traced, taken, -⟩ := next_record hn
        have hsource : decoder.source = record.bytes ++ after.source := taken
        -- A record has at least nine words, so less is left and the fuel suffices for it.
        have hlength := congrArg List.length hsource
        rw [List.length_append] at hlength
        have hpos := Record.length_bytes record
        obtain ⟨hbytes, htraced⟩ := ih hafter (by omega) hrest
        refine ⟨?_, ?_⟩
        · rw [encode_cons, hbytes, hsource]
        · intro other hother
          rcases List.mem_cons.mp hother with rfl | hother
          · exact traced
          · exact htraced other hother

end Decoder

theorem decode_takes {bytes : List UInt8} {records : List Record} (h : decode bytes = .ok records) :
    encode records = bytes ∧ ∀ record ∈ records, record.Traced := by
  have hfuel : (Decoder.start bytes).source.length < bytes.length + 1 := Nat.lt_succ_self _
  exact Decoder.itemsWithin_canonical rfl hfuel h

/-! ### The format is canonical -/

/-- Reading leaves nothing out and nothing open: the records determine every byte of the trace. -/
theorem trace_canonical {bytes : List UInt8} {records : List Record} (h : decode bytes = .ok records) :
    encode records = bytes ∧
    (∀ record ∈ records,
      (record.kind = .normal ∨ record.kind = .init ∨ record.kind = .sink) ∧
      (record.kind ≠ .sink → record.target = 0) ∧
      ∀ stat ∈ record.stats, stat.weight = 0) ∧
    ∀ other, decode other = .ok records → other = bytes := by
  obtain ⟨hbytes, htraced⟩ := decode_takes h
  refine ⟨hbytes, ?_, ?_⟩
  · intro record hrecord
    have traced := htraced record hrecord
    exact ⟨traced.kind, traced.target, traced.weights⟩
  · intro other hother
    rw [← hbytes, ← (decode_takes hother).1]

theorem trace_canonical_two_records :
    let bytes := [1, 0, 0, 0, 0, 1, 0, 1, 5, 1, 1, 9, 9, 9, 100, 100, 0, 0, 0,
      5, 3, 7, 2, 4, 2, 1, 0, 0].flatMap bytesOfWord
    let records : List Record :=
      [⟨1, 0, 0, .normal, 0, 1, false, [5], [⟨1, 9, 9, 9, 100, 100, 0, 0, 0, 0⟩]⟩,
        ⟨5, 3, 7, .sink, 4, 2, true, [], []⟩]
    decode bytes = .ok records ∧ encode records = bytes := by
  intro bytes records
  have h : decode bytes = .ok records := by cbv
  exact ⟨h, (trace_canonical h).1⟩

end RegionPlanner
