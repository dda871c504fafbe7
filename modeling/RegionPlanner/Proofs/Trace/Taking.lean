import RegionPlanner.Proofs.Success
import RegionPlanner.Trace.Decode
import RegionPlanner.Trace.Encode

/-!
# What reading takes

Each step of the decoder takes whole words from the bytes in front of it. Main statement: a record that was
read took exactly the words that it is written with.
-/

namespace RegionPlanner

/-- From one cursor to the next these words, and nothing else, were taken. -/
def Takes (words : List UInt64) (before after : Cursor (List UInt8)) : Prop :=
  before.source = words.flatMap bytesOfWord ++ after.source ∧ after.offset = before.offset + 8 * words.length

namespace Takes

variable {before between after : Cursor (List UInt8)} {first second : List UInt64}

theorem refl (cursor : Cursor (List UInt8)) : Takes [] cursor cursor := ⟨rfl, rfl⟩

theorem trans (h : Takes first before between) (h' : Takes second between after) :
    Takes (first ++ second) before after := by
  obtain ⟨hs, ho⟩ := h
  obtain ⟨hs', ho'⟩ := h'
  refine ⟨?_, ?_⟩
  · rw [hs, hs', List.flatMap_append, List.append_assoc]
  · rw [ho', ho, List.length_append]
    omega

theorem cons {word : UInt64} (h : Takes [word] before between) (h' : Takes second between after) :
    Takes (word :: second) before after := h.trans h'

end Takes

/-! ### Words -/

theorem pullBytes_eq_word {bytes rest : List UInt8} {word : UInt64} (h : pullBytes bytes = .word word rest) :
    bytes = bytesOfWord word ++ rest := by
  unfold pullBytes at h
  split at h
  · cases h
    rw [bytesOfWord_wordOfBytes _ rfl]
    rfl
  · cases h

theorem pullBytes_ne_failed (bytes : List UInt8) (text : String) (early : Bool) :
    pullBytes bytes ≠ .failed text early := by
  unfold pullBytes
  split <;> simp

theorem pullBytes_eq_short {bytes : List UInt8} {count : Nat} (h : pullBytes bytes = .short count) :
    bytes.length = count := by
  unfold pullBytes at h
  split at h
  · cases h
  · injection h

theorem takes_word {before : Cursor (List UInt8)} {rest : List UInt8} {word : UInt64}
    (h : pullBytes before.source = .word word rest) : Takes [word] before ⟨rest, before.offset + 8⟩ := by
  have hb : before.source = bytesOfWord word ++ rest := pullBytes_eq_word h
  exact ⟨by simpa using hb, rfl⟩

theorem readField_takes {name : String} {before after : Cursor (List UInt8)} {word : UInt64}
    (h : readField name before = .ok word after) : Takes [word] before after := by
  unfold readField at h
  cases hp : WordSource.pull before.source with
  | word value rest =>
    rw [hp] at h
    cases h
    exact takes_word hp
  | short count => rw [hp] at h; cases h
  | failed text early => rw [hp] at h; cases h

/-! ### Counted items -/

theorem readMany_takes {α : Type} {item : Read (List UInt8) α} (words : α → List UInt64) (P : α → Prop)
    (step : ∀ {before after : Cursor (List UInt8)} {a : α}, item before = .ok a after →
      P a ∧ Takes (words a) before after)
    {count : Nat} {done all : List α} {before after : Cursor (List UInt8)}
    (h : readMany item done count before = .ok all after) :
    ∃ new, all = done.reverse ++ new ∧ new.length = count ∧ (∀ a ∈ new, P a) ∧
      Takes (new.flatMap words) before after := by
  induction count generalizing done before with
  | zero =>
    rw [readMany, state_pure_eq_ok] at h
    obtain ⟨rfl, rfl⟩ := h
    exact ⟨[], by simp, rfl, by simp, Takes.refl _⟩
  | succ count ih =>
    rw [readMany] at h
    obtain ⟨next, between, hitem, hrest⟩ := state_bind_eq_ok.mp h
    obtain ⟨new, hall, hlen, hnew, htaken⟩ := ih hrest
    obtain ⟨hnext, htook⟩ := step hitem
    refine ⟨next :: new, ?_, by simp [hlen], ?_, htook.trans htaken⟩
    · rw [hall, List.reverse_cons, List.append_assoc, List.singleton_append]
    · intro a ha
      rcases List.mem_cons.mp ha with rfl | ha
      · exact hnext
      · exact hnew a ha

theorem readStat_takes {before after : Cursor (List UInt8)} {stat : Stat}
    (h : readStat before = .ok stat after) :
    stat.weight = Quantity.count 0 ∧ Takes stat.words before after := by
  unfold readStat at h
  obtain ⟨_, _, h1, h⟩ := state_bind_eq_ok.mp h
  obtain ⟨_, _, h2, h⟩ := state_bind_eq_ok.mp h
  obtain ⟨_, _, h3, h⟩ := state_bind_eq_ok.mp h
  obtain ⟨_, _, h4, h⟩ := state_bind_eq_ok.mp h
  obtain ⟨_, _, h5, h⟩ := state_bind_eq_ok.mp h
  obtain ⟨_, _, h6, h⟩ := state_bind_eq_ok.mp h
  obtain ⟨_, _, h7, h⟩ := state_bind_eq_ok.mp h
  obtain ⟨_, _, h8, h⟩ := state_bind_eq_ok.mp h
  obtain ⟨_, _, h9, h⟩ := state_bind_eq_ok.mp h
  obtain ⟨rfl, rfl⟩ := state_pure_eq_ok.mp h
  refine ⟨rfl, ?_⟩
  have low := ((readField_takes h1).cons (readField_takes h2)).trans
    ((readField_takes h3).cons (readField_takes h4))
  have high := ((readField_takes h5).cons (readField_takes h6)).trans
    ((readField_takes h7).cons ((readField_takes h8).cons (readField_takes h9)))
  exact low.trans high

/-! ### Checked fields -/

theorem readKind_takes {uid : UInt64} {before after : Cursor (List UInt8)} {kind : NodeKind}
    (h : readKind uid before = .ok kind after) : kind ≠ .inner ∧ Takes [kind.code] before after := by
  unfold readKind at h
  obtain ⟨code, between, hcode, h⟩ := state_bind_eq_ok.mp h
  cases hk : NodeKind.ofCode? code with
  | none => rw [hk] at h; cases h
  | some found =>
    rw [hk] at h
    obtain ⟨rfl, rfl⟩ := state_pure_eq_ok.mp h
    obtain ⟨hcodes, hinner⟩ := NodeKind.code_of_ofCode? hk
    rw [hcodes]
    exact ⟨hinner, readField_takes hcode⟩

theorem readTarget_takes {uid target : UInt64} {kind : NodeKind} {before after : Cursor (List UInt8)}
    (h : readTarget uid kind before = .ok target after) :
    (kind ≠ .sink → target = 0) ∧ Takes [target] before after := by
  unfold readTarget at h
  obtain ⟨word, between, hword, h⟩ := state_bind_eq_ok.mp h
  by_cases stray : word ≠ 0 ∧ kind ≠ .sink
  · rw [if_pos stray] at h
    cases h
  · rw [if_neg stray] at h
    obtain ⟨rfl, rfl⟩ := state_pure_eq_ok.mp h
    refine ⟨?_, readField_takes hword⟩
    intro hkind
    by_contra hword
    exact stray ⟨hword, hkind⟩

theorem readParallelBit_takes {uid : UInt64} {bit : Bool} {before after : Cursor (List UInt8)}
    (h : readParallelBit uid before = .ok bit after) : Takes [if bit then 1 else 0] before after := by
  unfold readParallelBit at h
  obtain ⟨word, between, hword, h⟩ := state_bind_eq_ok.mp h
  by_cases zero : word = 0
  · rw [if_pos zero] at h
    obtain ⟨rfl, rfl⟩ := state_pure_eq_ok.mp h
    subst zero
    exact readField_takes hword
  · rw [if_neg zero] at h
    by_cases one : word = 1
    · rw [if_pos one] at h
      obtain ⟨rfl, rfl⟩ := state_pure_eq_ok.mp h
      subst one
      exact readField_takes hword
    · rw [if_neg one] at h
      cases h

/-! ### Records -/

/-- A record as a trace can hold it: no inner node, a target only at a sink, no weights yet. -/
structure Record.Traced (record : Record) : Prop where
  kind : record.kind = .normal ∨ record.kind = .init ∨ record.kind = .sink
  target : record.kind ≠ .sink → record.target = 0
  weights : ∀ stat ∈ record.stats, stat.weight = 0

theorem NodeKind.traced_cases {kind : NodeKind} (h : kind ≠ .inner) :
    kind = .normal ∨ kind = .init ∨ kind = .sink := by
  cases kind with
  | normal => exact .inl rfl
  | init => exact .inr (.inl rfl)
  | sink => exact .inr (.inr rfl)
  | inner => exact absurd rfl h

theorem toUInt64_of_length {α : Type} {items : List α} {count : UInt64} (h : items.length = count.toNat) :
    items.length.toUInt64 = count := by
  apply UInt64.toNat_inj.mp
  rw [h, UInt64.toNat_ofNat']
  exact Nat.mod_eq_of_lt count.toNat_lt

theorem count_zero_eq : (Quantity.count 0 : Float) = 0 := by decide

theorem readRecord_takes {uid : UInt64} {before after : Cursor (List UInt8)} {record : Record}
    (h : readRecord uid before = .ok record after) :
    record.Traced ∧ ∃ words, record.words = uid :: words ∧ Takes words before after := by
  unfold readRecord at h
  obtain ⟨region, _, hregion, h⟩ := state_bind_eq_ok.mp h
  obtain ⟨callSite, _, hsite, h⟩ := state_bind_eq_ok.mp h
  obtain ⟨kind, _, hkind, h⟩ := state_bind_eq_ok.mp h
  obtain ⟨target, _, htarget, h⟩ := state_bind_eq_ok.mp h
  obtain ⟨instances, _, hinstances, h⟩ := state_bind_eq_ok.mp h
  obtain ⟨parallel, _, hparallel, h⟩ := state_bind_eq_ok.mp h
  obtain ⟨childCount, _, hchildCount, h⟩ := state_bind_eq_ok.mp h
  obtain ⟨children, _, hchildren, h⟩ := state_bind_eq_ok.mp h
  obtain ⟨statCount, _, hstatCount, h⟩ := state_bind_eq_ok.mp h
  obtain ⟨stats, _, hstats, h⟩ := state_bind_eq_ok.mp h
  obtain ⟨rfl, rfl⟩ := state_pure_eq_ok.mp h
  obtain ⟨notInner, kindTaken⟩ := readKind_takes hkind
  obtain ⟨noStray, targetTaken⟩ := readTarget_takes htarget
  obtain ⟨children', rfl, childLength, -, childrenTaken⟩ :=
    readMany_takes (fun child => [child]) (fun _ => True) (fun h => ⟨trivial, readField_takes h⟩) hchildren
  obtain ⟨stats', rfl, statLength, unweighted, statsTaken⟩ :=
    readMany_takes Stat.words (fun stat => stat.weight = Quantity.count 0) (fun h => readStat_takes h) hstats
  refine ⟨⟨NodeKind.traced_cases notInner, noStray, ?_⟩, _, rfl, ?_⟩
  · intro stat hstat
    rw [unweighted stat hstat, count_zero_eq]
  · have fields := (readField_takes hregion).cons ((readField_takes hsite).cons (kindTaken.cons
      (targetTaken.cons ((readField_takes hinstances).cons (readParallelBit_takes hparallel)))))
    have childPart := (readField_takes hchildCount).cons childrenTaken
    have statPart := (readField_takes hstatCount).cons statsTaken
    rw [← toUInt64_of_length childLength, List.flatMap_singleton'] at childPart
    rw [← toUInt64_of_length statLength] at statPart
    exact (fields.trans childPart).trans statPart

end RegionPlanner
