import Mathlib.Data.Set.Card
import RegionPlanner.Proofs.Forest.Sweep
import RegionPlanner.Trace.Encode

/-!
# Classification computes reachability

Classification faults if and only if a record that can be reached from an init record lists a child without a
record. Otherwise it counts each ordinary record that can be reached once, however many init records lead to
it, and a second classification finds nothing left to do.
-/

namespace RegionPlanner

open Relation

variable {records : List Record} {index : UidIndex} {place : Nat}

/-! ### What classification reads -/

/-- The part of a record that decides what is reached. -/
def Record.links (record : Record) : UInt64 × List UInt64 × Bool :=
  (record.uid, record.children, record.kind == .init)

theorem Record.toInner_kind (record : Record) : record.toInner.kind ≠ .normal := by
  unfold Record.toInner
  split
  · simp
  · assumption

theorem Record.toInner_links (record : Record) : record.toInner.links = record.links := by
  unfold Record.links Record.toInner
  split
  · next hkind => simp [hkind]
  · rfl

theorem Record.toInner_bytes (record : Record) : record.toInner.bytes = record.bytes := by
  unfold Record.toInner
  split
  · next hkind => simp [Record.bytes, Record.words, hkind, NodeKind.code]
  · rfl

section
variable {others : List Record}

theorem getElem?_of_links (h : others.map Record.links = records.map Record.links) {record : Record}
    (hr : records[place]? = some record) :
    ∃ other, others[place]? = some other ∧ other.uid = record.uid ∧ other.children = record.children ∧
      (other.kind = .init ↔ record.kind = .init) := by
  have hplace := congrArg (·[place]?) h
  simp only [List.getElem?_map, hr, Option.map_some, Option.map_eq_some_iff] at hplace
  obtain ⟨other, hother, heq⟩ := hplace
  simp only [Record.links, Prod.mk.injEq, beq_eq_beq] at heq
  obtain ⟨huid, hchildren, hkind⟩ := heq
  exact ⟨other, hother, huid, hchildren, hkind⟩

theorem Indexes.of_links (hi : Indexes index records) (h : others.map Record.links = records.map Record.links) :
    Indexes index others := by
  constructor
  · intro uid place hp
    obtain ⟨record, hrecord, rfl⟩ := hi.found uid place hp
    obtain ⟨other, hother, huid, -⟩ := getElem?_of_links h hrecord
    exact ⟨other, hother, huid⟩
  · intro other ho
    obtain ⟨place, hplace⟩ := List.getElem?_of_mem ho
    obtain ⟨record, hrecord, huid, -⟩ := getElem?_of_links h.symm hplace
    rw [← huid]
    exact hi.known record (List.mem_of_getElem? hrecord)

theorem LeadsTo.of_links {child : Nat} (h : others.map Record.links = records.map Record.links)
    (hl : LeadsTo index records place child) : LeadsTo index others place child := by
  obtain ⟨record, hrecord, hmem⟩ := hl
  obtain ⟨other, hother, -, hchildren, -⟩ := getElem?_of_links h hrecord
  exact ⟨other, hother, hchildren ▸ hmem⟩

theorem FromInit.of_links (h : others.map Record.links = records.map Record.links)
    (hp : FromInit index records place) : FromInit index others place := by
  obtain ⟨init, record, hrecord, hkind, hreach⟩ := hp
  obtain ⟨other, hother, -, -, hinit⟩ := getElem?_of_links h hrecord
  exact ⟨init, other, hother, hinit.mpr hkind, ReflTransGen.mono (fun _ _ hl => hl.of_links h) _ _ hreach⟩

end

/-! ### Counting -/

/-- The places of the ordinary records. -/
def ordinary (records : Array Record) : Set Nat :=
  {place | ∃ record, records[place]? = some record ∧ record.kind = .normal}

theorem ordinary_finite (records : Array Record) : (ordinary records).Finite := by
  refine (Set.finite_lt_nat records.size).subset ?_
  rintro place ⟨record, hr, -⟩
  exact (Array.getElem?_eq_some_iff.mp hr).1

namespace Classified

/-- The records changed so far and those that may still be. -/
noncomputable def total (state : Classified) : Nat := state.changed + (ordinary state.records).ncard

theorem mark_ordinary (state : Classified) (place : Nat) :
    ordinary (state.mark place).records = ordinary state.records \ {place} := by
  ext other
  unfold ordinary
  simp only [Set.mem_ofPred_eq, mark_getElem?, Set.mem_sdiff, Set.mem_singleton_iff]
  by_cases hsame : place = other
  · subst hsame
    simp only [if_true, not_true_eq_false, and_false, iff_false, Option.map_eq_some_iff]
    rintro ⟨record, ⟨before, -, rfl⟩, hkind⟩
    exact before.toInner_kind hkind
  · simp [hsame, Ne.symm hsame]

theorem mark_changed (state : Classified) (place : Nat) :
    (place ∈ ordinary state.records → (state.mark place).changed = state.changed + 1) ∧
    (place ∉ ordinary state.records → (state.mark place).changed = state.changed) := by
  unfold mark ordinary
  cases hr : state.records[place]? with
  | none => simp [hr]
  | some record => by_cases hk : record.kind = .normal <;> simp [hr, hk]

theorem mark_total (state : Classified) (place : Nat) : (state.mark place).total = state.total := by
  obtain ⟨hcounted, hpassed⟩ := mark_changed state place
  unfold total
  rw [mark_ordinary]
  by_cases hm : place ∈ ordinary state.records
  · have hone := Set.ncard_sdiff_singleton_add_one hm (ordinary_finite state.records)
    rw [hcounted hm]
    omega
  · rw [hpassed hm, Set.sdiff_singleton_eq_self hm]

theorem mark_all_total (places : List Nat) (state : Classified) : (places.foldl mark state).total = state.total := by
  induction places generalizing state with
  | nil => rfl
  | cons place places ih => rw [List.foldl_cons, ih, mark_total]

theorem sweep_total (state : Classified) (start : Nat) : (sweep index state start).total = state.total := by
  unfold sweep
  split
  · rfl
  · exact mark_all_total _ state

theorem sweeps_total (starts : List Nat) (state : Classified) :
    (starts.foldl (sweep index) state).total = state.total := by
  induction starts generalizing state with
  | nil => rfl
  | cons start starts ih => rw [List.foldl_cons, ih, sweep_total]

end Classified

theorem classify_total (index : UidIndex) (records : List Record) :
    (classify index records).changed + (ordinary (classify index records).records).ncard =
      (ordinary records.toArray).ncard :=
  (Classified.sweeps_total _ _).trans (Nat.zero_add _)

/-! ### Classification -/

theorem classify_links : (classify index records).records.toList.map Record.links = records.map Record.links := by
  have h := classify_map index records Record.toInner_links
  simpa using congrArg Array.toList h

theorem classify_encode : encode (classify index records).records.toList = encode records := by
  have h := classify_map index records Record.toInner_bytes
  have hlist : (classify index records).records.toList.map Record.bytes = records.map Record.bytes := by
    simpa using congrArg Array.toList h
  rw [encode, encode, List.flatMap_def, List.flatMap_def, hlist]

theorem classify_ordinary (hi : Indexes index records) (hf : (classify index records).fault = none) :
    ordinary (classify index records).records =
      ordinary records.toArray \ {place | FromInit index records place} := by
  ext place
  unfold ordinary
  simp only [Set.mem_ofPred_eq, classify_records hi hf, Set.mem_sdiff, List.getElem?_toArray,
    Option.map_eq_some_iff]
  by_cases hin : FromInit index records place
  · simp only [hin, if_true, not_true_eq_false, and_false, iff_false]
    rintro ⟨record, ⟨before, -, rfl⟩, hkind⟩
    exact before.toInner_kind hkind
  · simp [hin]

theorem classify_changed (hi : Indexes index records) (hf : (classify index records).fault = none) :
    (classify index records).changed =
      (ordinary records.toArray ∩ {place | FromInit index records place}).ncard := by
  have htotal := classify_total index records
  have hsplit := Set.ncard_inter_add_ncard_sdiff_eq_ncard (ordinary records.toArray)
    {place | FromInit index records place} (ordinary_finite _)
  rw [classify_ordinary hi hf] at htotal
  omega

/-- What a classification leaves, a second one leaves as it is. -/
theorem classify_again (hi : Indexes index records) (hf : (classify index records).fault = none) :
    classify index (classify index records).records.toList = ⟨(classify index records).records, 0, none⟩ := by
  generalize hout : (classify index records).records.toList = out
  have hlinks : out.map Record.links = records.map Record.links := hout ▸ classify_links
  have hindexed : Indexes index out := hi.of_links hlinks
  have hback : ∀ place, FromInit index out place → FromInit index records place :=
    fun _ hp => hp.of_links hlinks.symm
  have hfault : (classify index out).fault = none := by
    cases hagain : (classify index out).fault with
    | none => rfl
    | some fault =>
      obtain ⟨place, other, hp, hother, uid, hmem, hnone, -⟩ := classify_fault hindexed hagain
      obtain ⟨record, hrecord, -, hchildren, -⟩ := getElem?_of_links hlinks.symm hother
      obtain ⟨child, hchild⟩ := classify_covered hi hf (hback place hp) hrecord uid (hchildren ▸ hmem)
      rw [hnone] at hchild
      cases hchild
  have hrecords : (classify index out).records = out.toArray := by
    apply Array.ext_getElem?
    intro place
    rw [classify_records hindexed hfault, List.getElem?_toArray]
    by_cases hin : FromInit index out place
    · have hfirst := classify_records hi hf place
      rw [← Array.getElem?_toList, hout] at hfirst
      simp only [hback place hin, if_true] at hfirst
      simp only [hfirst, hin, if_true, Option.map_map]
      exact congrArg (Option.map · records[place]?) (funext Record.toInner_toInner)
    · simp [hin]
  have hchanged : (classify index out).changed = 0 := by
    have htotal := classify_total index out
    rw [hrecords] at htotal
    omega
  have hwhole : classify index out = ⟨(classify index out).records, (classify index out).changed,
      (classify index out).fault⟩ := rfl
  rw [hwhole, hrecords, hchanged, hfault, ← hout, Array.toArray_toList]

open Classical in
/-- The index may lead a uid that several records have to any of them. Without a fault the records that can be
reached are inner ones, no field of any record but its kind has changed, and neither have the bytes written
for them; with a fault the bytes are the same as well. -/
theorem classify_reachable (hi : Indexes index records) :
    ((∃ parent child, (classify index records).fault = some (.danglingChild parent child)) ↔
      ∃ place record, FromInit index records place ∧ records[place]? = some record ∧
        ∃ uid ∈ record.children, ∀ other ∈ records, other.uid ≠ uid) ∧
    (∀ fault, (classify index records).fault = some fault →
      ∃ place record, FromInit index records place ∧ records[place]? = some record ∧
        ∃ uid ∈ record.children, (∀ other ∈ records, other.uid ≠ uid) ∧ fault = .danglingChild record.uid uid) ∧
    ((classify index records).fault = none →
      (∀ place, (classify index records).records[place]? = records[place]?.map fun record =>
        if record.kind = .normal ∧ FromInit index records place then { record with kind := .inner } else record) ∧
      (classify index records).changed =
        {place | FromInit index records place ∧
          ∃ record, records[place]? = some record ∧ record.kind = .normal}.ncard ∧
      classify index (classify index records).records.toList = ⟨(classify index records).records, 0, none⟩) ∧
    encode (classify index records).records.toList = encode records := by
  have hnamed : ∀ fault, (classify index records).fault = some fault →
      ∃ place record, FromInit index records place ∧ records[place]? = some record ∧
        ∃ uid ∈ record.children, (∀ other ∈ records, other.uid ≠ uid) ∧ fault = .danglingChild record.uid uid := by
    intro fault hf
    obtain ⟨place, record, hp, hr, uid, hmem, hnone, hfault⟩ := classify_fault hi hf
    exact ⟨place, record, hp, hr, uid, hmem, hi.none_iff.mp hnone, hfault⟩
  refine ⟨⟨?_, ?_⟩, hnamed, ?_, classify_encode⟩
  · rintro ⟨parent, child, hf⟩
    obtain ⟨place, record, hp, hr, uid, hmem, hnone, -⟩ := hnamed _ hf
    exact ⟨place, record, hp, hr, uid, hmem, hnone⟩
  · rintro ⟨place, record, hp, hr, uid, hmem, hnone⟩
    cases hf : (classify index records).fault with
    | none =>
      obtain ⟨child, hchild⟩ := classify_covered hi hf hp hr uid hmem
      rw [hi.none_iff.mpr hnone] at hchild
      cases hchild
    | some fault =>
      obtain ⟨-, other, -, -, child, -, -, rfl⟩ := hnamed fault hf
      exact ⟨other.uid, child, rfl⟩
  · intro hf
    refine ⟨?_, ?_, classify_again hi hf⟩
    · intro place
      rw [classify_records hi hf place]
      congr 1
      funext record
      by_cases hin : FromInit index records place <;> simp [hin, Record.toInner]
    · rw [classify_changed hi hf]
      congr 1
      ext place
      simp only [ordinary, List.getElem?_toArray, Set.mem_inter_iff, Set.mem_ofPred_eq]
      exact and_comm

/-- Two init records that lead to each other and share a descendant that leads to itself. Its uid belongs to an
earlier record as well, to which the index does not lead; that record is out of reach, as is its child without a
record. -/
theorem classify_reachable_tangled :
    let records : List Record :=
      [⟨1, 0, 0, .init, 0, 1, false, [2, 3], []⟩, ⟨2, 0, 0, .normal, 0, 1, false, [9], []⟩,
        ⟨2, 0, 0, .normal, 0, 1, false, [2, 3], []⟩, ⟨3, 0, 0, .init, 0, 1, false, [1, 2], []⟩]
    let index : UidIndex := fun uid => if uid = 1 then some 0 else if uid = 2 then some 2 else
      if uid = 3 then some 3 else none
    Indexes index records ∧
    {place | FromInit index records place ∧ ∃ record, records[place]? = some record ∧ record.kind = .normal}.ncard = 1 ∧
    classify index (classify index records).records.toList = ⟨(classify index records).records, 0, none⟩ ∧
    encode (classify index records).records.toList = encode records := by
  intro records index
  have hi : Indexes index records := by
    constructor
    · intro uid place hp
      simp only [index] at hp
      split at hp
      · cases hp
        exact ⟨_, rfl, Eq.symm ‹uid = 1›⟩
      · split at hp
        · cases hp
          exact ⟨_, rfl, Eq.symm ‹uid = 2›⟩
        · split at hp
          · cases hp
            exact ⟨_, rfl, Eq.symm ‹uid = 3›⟩
          · cases hp
    · simp [records, index]
  have hfault : (classify index records).fault = none := by decide +kernel
  have hchanged : (classify index records).changed = 1 := by decide +kernel
  obtain ⟨-, -, hok, hencode⟩ := classify_reachable hi
  obtain ⟨-, hcount, hagain⟩ := hok hfault
  exact ⟨hi, hcount.symm.trans hchanged, hagain, hencode⟩

end RegionPlanner
