import RegionPlanner.Proofs.Trace.Canonical

/-!
# One call after the other

A decoder can be asked for its next item any number of times. Once it has said that nothing more comes, it stays
where it is and says so again; so its items, of which there are no more than bytes, tell every answer.
-/

namespace RegionPlanner

namespace Decoder

/-! ### Answers -/

section
variable {σ : Type} [WordSource σ] {decoder after : Decoder σ} {fuel call : Nat}

/-- What a call gives and the offset after it. Calls are counted from zero. -/
def answer (decoder : Decoder σ) : Nat → Option (Except Fault Record) × Nat
  | 0 => (decoder.next.1, decoder.next.2.offset)
  | call + 1 => decoder.next.2.answer call

theorem next_failed (h : decoder.failed = true) : decoder.next = (none, decoder) := by
  simp only [next, h, if_true]

theorem itemsWithin_failed (h : decoder.failed = true) : itemsWithin fuel decoder = ([], decoder.offset) := by
  cases fuel with
  | zero => rfl
  | succ fuel => simp only [itemsWithin, next_failed h]

theorem itemsWithin_fault {fault : Fault} (h : decoder.next = (some (.error fault), after)) (hafter : after.failed = true) :
    itemsWithin (fuel + 1) decoder = ([(.error fault, after.offset)], after.offset) := by
  simp only [itemsWithin, h, itemsWithin_failed hafter]

theorem eq_of_next_none (h : decoder.next = (none, after)) : after = decoder := by
  unfold next at h
  split at h
  · cases h
    rfl
  · split at h
    · split at h <;> cases h
    · cases h
      rfl
    · cases h
    · cases h

theorem answer_none (h : decoder.next = (none, decoder)) (call : Nat) : decoder.answer call = (none, decoder.offset) := by
  induction call with
  | zero => simp only [answer, h]
  | succ call ih =>
    simp only [answer, h]
    exact ih

theorem answer_of_failed (h : decoder.failed = true) (call : Nat) : decoder.answer call = (none, decoder.offset) :=
  answer_none (next_failed h) call

/-- The decoder stands behind a fault and gives nothing more. -/
theorem answer_error {fault : Fault} (h : decoder.next = (some (.error fault), after)) (hafter : after.failed = true) :
    decoder.answer 0 = (some (.error fault), after.offset) ∧
      ∀ call, decoder.answer (call + 1) = (none, after.offset) := by
  constructor
  · simp only [answer, h]
  · intro call
    simp only [answer, h]
    exact answer_of_failed hafter call

/-- The items of a decoder are its answers, as long as there was fuel for more. -/
theorem answer_eq (hfuel : (itemsWithin fuel decoder).1.length < fuel) : decoder.answer call =
    match (itemsWithin fuel decoder).1[call]? with
    | some (item, offset) => (some item, offset)
    | none => (none, (itemsWithin fuel decoder).2) := by
  induction fuel generalizing decoder call with
  | zero => omega
  | succ fuel ih =>
    cases hnext : decoder.next with
    | mk item after =>
      cases item with
      | none =>
        have hsame := eq_of_next_none hnext
        subst hsame
        simp only [itemsWithin, hnext, List.getElem?_nil]
        exact answer_none hnext call
      | some item =>
        simp only [itemsWithin, hnext, List.length_cons] at hfuel ⊢
        cases call with
        | zero => simp only [answer, hnext, List.getElem?_cons_zero]
        | succ call =>
          simp only [answer, hnext, List.getElem?_cons_succ]
          exact ih (by omega)

/-- Answers that are faults are what the items fail with. -/
theorem mapM_itemsWithin_error {fault : Fault} {last offset : Nat} (hlast : last < fuel)
    (hrecords : ∀ call < last, ∃ record offset, decoder.answer call = (some (.ok record), offset))
    (hfault : decoder.answer last = (some (.error fault), offset)) :
    (itemsWithin fuel decoder).1.mapM (·.1) = .error fault := by
  induction fuel generalizing decoder last with
  | zero => omega
  | succ fuel ih =>
    cases hnext : decoder.next with
    | mk item after =>
      cases last with
      | zero =>
        simp only [answer, hnext, Prod.mk.injEq] at hfault
        rw [itemsWithin, hnext, hfault.1]
        rfl
      | succ last =>
        obtain ⟨record, between, hfirst⟩ := hrecords 0 (Nat.succ_pos last)
        simp only [answer, hnext, Prod.mk.injEq] at hfirst
        simp only [answer, hnext] at hfault
        have hrest := ih (Nat.lt_of_succ_lt_succ hlast) (fun call hcall => by
          have hlater := hrecords (call + 1) (Nat.succ_lt_succ hcall)
          simp only [answer, hnext] at hlater
          exact hlater) hfault
        rw [itemsWithin, hnext, hfirst.1]
        simp only [List.mapM_cons, hrest]
        rfl

theorem itemsWithin_congr {τ : Type} [WordSource τ] {other : Decoder τ} (hoffset : decoder.offset = other.offset)
    (h : ∀ call, decoder.answer call = other.answer call) : itemsWithin fuel decoder = itemsWithin fuel other := by
  induction fuel generalizing decoder other with
  | zero => exact congrArg (([], ·)) hoffset
  | succ fuel ih =>
    cases hnext : decoder.next with
    | mk item after =>
      cases hnext' : other.next with
      | mk item' after' =>
        have hfirst := h 0
        simp only [answer, hnext, hnext', Prod.mk.injEq] at hfirst
        obtain ⟨rfl, hafter⟩ := hfirst
        have hrest : itemsWithin fuel after = itemsWithin fuel after' := by
          refine ih hafter fun call => ?_
          have hlater := h (call + 1)
          simp only [answer, hnext, hnext'] at hlater
          exact hlater
        cases item with
        | none => simp only [itemsWithin, hnext, hnext', hafter]
        | some item => simp only [itemsWithin, hnext, hnext', hafter, hrest]

end

/-! ### Items of bytes -/

section
variable {decoder after : Decoder (List UInt8)} {record : Record} {fuel : Nat}

theorem next_record_length (h : decoder.next = (some (.ok record), after)) :
    after.source.length + 8 ≤ decoder.source.length := by
  obtain ⟨-, -, taken, -⟩ := next_record h
  have hlength := congrArg List.length taken
  have hrecord := record.length_bytes
  have hbytes : record.words.flatMap bytesOfWord = record.bytes := rfl
  rw [List.length_append, hbytes] at hlength
  omega

theorem next_fault {fault : Fault} (h : decoder.next = (some (.error fault), after)) :
    after.failed = true ∧ 0 < decoder.source.length := by
  have hpos : decoder.source ≠ [] := by
    intro hempty
    have hshort : WordSource.pull decoder.source = .short 0 := by
      rw [hempty]
      rfl
    simp only [next, hshort] at h
    split at h <;> cases h
  refine ⟨?_, List.length_pos_iff.mpr hpos⟩
  unfold next at h
  split at h
  · cases h
  · split at h
    · split at h <;> cases h
      rfl
    · cases h
    · cases h
      rfl
    · cases h
      rfl

theorem length_itemsWithin_le : (itemsWithin fuel decoder).1.length ≤ decoder.source.length := by
  induction fuel generalizing decoder with
  | zero => exact Nat.zero_le _
  | succ fuel ih =>
    cases hnext : decoder.next with
    | mk item after =>
      rcases item with _ | fault | record
      · simp only [itemsWithin, hnext, List.length_nil]
        omega
      · obtain ⟨hafter, hpos⟩ := next_fault hnext
        rw [itemsWithin_fault hnext hafter]
        exact hpos
      · have hlength := next_record_length hnext
        have hrest := @ih after
        simp only [itemsWithin, hnext, List.length_cons]
        omega

/-- The items of a decoder over bytes tell all its answers. -/
theorem answer_items (call : Nat) : decoder.answer call =
    match decoder.items.1[call]? with
    | some (item, offset) => (some item, offset)
    | none => (none, decoder.items.2) :=
  answer_eq (Nat.lt_succ_of_le length_itemsWithin_le)

end

end Decoder

end RegionPlanner
