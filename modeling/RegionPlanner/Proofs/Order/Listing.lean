import RegionPlanner.Proofs.Forest.Accepted

/-!
# Records by uid

Who lists whom, said of uids instead of places. Said like this, what a trace must be, its counters apart, does
not depend on the order of its records.
-/

namespace RegionPlanner

open Relation

/-- The record with one uid lists the other uid. -/
def Lists (records : List Record) (above below : UInt64) : Prop :=
  ∃ record ∈ records, record.uid = above ∧ below ∈ record.children

variable {table : RegionTable} {records records' : List Record} {place child : Nat} {above below record : Record}

theorem lists_perm (h : records.Perm records') : Lists records = Lists records' := by
  funext above below
  unfold Lists
  simp only [h.mem_iff]

theorem listed_perm (h : records.Perm records') : (listed records).Perm (listed records') := h.flatMap_right _

/-! ### Places and uids -/

def uidAt (records : List Record) (place : Nat) : UInt64 := (records.getD place default).uid

def placeNamed (records : List Record) (uid : UInt64) : Nat := (placeOf records uid).getD 0

theorem uidAt_eq (hr : records[place]? = some record) : uidAt records place = record.uid := by
  unfold uidAt
  rw [List.getD_eq_getElem?_getD, hr]
  rfl

theorem lists_step (h : ChildAt records place child) : Lists records (uidAt records place) (uidAt records child) := by
  obtain ⟨parent, record, hparent, hrecord, hmem⟩ := h
  rw [uidAt_eq hparent, uidAt_eq hrecord]
  exact ⟨parent, List.mem_of_getElem? hparent, rfl, hmem⟩

section
variable (hn : (records.map (·.uid)).Nodup)
include hn

theorem placeOf_uid (hr : records[place]? = some record) : placeOf records record.uid = some place :=
  (placeOf_eq_some_iff hn).mpr ⟨record, hr, rfl⟩

theorem placeNamed_eq (hr : records[place]? = some record) : placeNamed records record.uid = place := by
  unfold placeNamed
  rw [placeOf_uid hn hr]
  rfl

variable (hk : ∀ uid ∈ listed records, ∃ record ∈ records, record.uid = uid)
include hk

theorem childAt_step {above below : UInt64} (h : Lists records above below) :
    ChildAt records (placeNamed records above) (placeNamed records below) := by
  obtain ⟨parent, hm, rfl, hmem⟩ := h
  obtain ⟨record, hrecord, rfl⟩ := hk below (List.mem_flatMap.mpr ⟨parent, hm, hmem⟩)
  obtain ⟨place, hplace⟩ := List.mem_iff_getElem?.mp hm
  obtain ⟨child, hchild⟩ := List.mem_iff_getElem?.mp hrecord
  rw [placeNamed_eq hn hplace, placeNamed_eq hn hchild]
  exact ⟨parent, record, hplace, hchild, hmem⟩

variable (ha : records[place]? = some above) (hb : records[child]? = some below)
include ha hb

theorem transGen_iff_lists :
    TransGen (ChildAt records) place child ↔ TransGen (Lists records) above.uid below.uid := by
  constructor
  · intro h
    have hlift : TransGen (Lists records) (uidAt records place) (uidAt records child) :=
      h.lift (uidAt records) fun _ _ => lists_step
    rwa [uidAt_eq ha, uidAt_eq hb] at hlift
  · intro h
    have hlift : TransGen (ChildAt records) (placeNamed records above.uid) (placeNamed records below.uid) :=
      h.lift (placeNamed records) fun _ _ => childAt_step hn hk
    rwa [placeNamed_eq hn ha, placeNamed_eq hn hb] at hlift

theorem reflTransGen_iff_lists :
    ReflTransGen (ChildAt records) place child ↔ ReflTransGen (Lists records) above.uid below.uid := by
  constructor
  · intro h
    have hlift : ReflTransGen (Lists records) (uidAt records place) (uidAt records child) :=
      h.lift (uidAt records) fun _ _ => lists_step
    rwa [uidAt_eq ha, uidAt_eq hb] at hlift
  · intro h
    have hlift : ReflTransGen (ChildAt records) (placeNamed records above.uid) (placeNamed records below.uid) :=
      h.lift (placeNamed records) fun _ _ => childAt_step hn hk
    rwa [placeNamed_eq hn ha, placeNamed_eq hn hb] at hlift

end

/-! ### What a trace must be, by uid -/

/-- Records of one tree with known regions and with counters, whose sinks are below the init records that they
name. -/
structure Formed (table : RegionTable) (records : List Record) : Prop where
  distinct : (records.map (·.uid)).Nodup
  known : ∀ uid ∈ listed records, ∃ record ∈ records, record.uid = uid
  tree : ∃ root ∈ records, (listed records).count root.uid = 0 ∧
    (∀ record ∈ records, record.uid ≠ root.uid → (listed records).count record.uid = 1) ∧
    ∀ record ∈ records, ReflTransGen (Lists records) root.uid record.uid
  readable : ∀ record ∈ records, record.Readable table
  sinks : ∀ sink ∈ records, sink.kind = .sink → ∃ init ∈ records, init.uid = sink.target ∧ init.kind = .init ∧
    TransGen (Lists records) init.uid sink.uid

theorem Formed.perm (h : Formed table records) (hperm : records.Perm records') : Formed table records' := by
  obtain ⟨hdistinct, hknown, htree, hreadable, hsinks⟩ := h
  simp only [hperm.mem_iff, (listed_perm hperm).mem_iff, (listed_perm hperm).count_eq, lists_perm hperm] at *
  exact ⟨(hperm.map _).nodup_iff.mp hdistinct, hknown, htree, hreadable, hsinks⟩

/-- What is known of places, said of uids. -/
theorem formed_of_places (hn : (records.map (·.uid)).Nodup)
    (hknown : ∀ uid ∈ listed records, ∃ record ∈ records, record.uid = uid) (htree : ∃ root, TreeAt records root)
    (hreadable : ∀ record ∈ records, record.Readable table)
    (hsinks : ∀ (place : Nat) (record : Record), records[place]? = some record → record.kind = .sink →
      ∃ (init : Nat) (target : Record), records[init]? = some target ∧ target.uid = record.target ∧
        target.kind = .init ∧ TransGen (ChildAt records) init place) : Formed table records := by
  refine ⟨hn, hknown, ?_, hreadable, ?_⟩
  · obtain ⟨place, ⟨root, hroot, hcount⟩, honce, hreached⟩ := htree
    refine ⟨root, List.mem_of_getElem? hroot, hcount, ?_, ?_⟩
    · intro record hm hother
      obtain ⟨child, hrecord⟩ := List.mem_iff_getElem?.mp hm
      refine honce child record hrecord ?_
      rintro rfl
      rw [hroot] at hrecord
      cases hrecord
      exact hother rfl
    · intro record hm
      obtain ⟨child, hrecord⟩ := List.mem_iff_getElem?.mp hm
      rw [← reflTransGen_iff_lists hn hknown hroot hrecord]
      exact hreached child (List.getElem?_eq_some_iff.mp hrecord).1
  · intro sink hm hkind
    obtain ⟨place, hsink⟩ := List.mem_iff_getElem?.mp hm
    obtain ⟨init, target, htarget, huid, hinit, hbelow⟩ := hsinks place sink hsink hkind
    exact ⟨target, List.mem_of_getElem? htarget, huid, hinit, (transGen_iff_lists hn hknown htarget hsink).mp hbelow⟩

theorem WellFormed.formed (h : WellFormed table records) : Formed table records :=
  formed_of_places h.distinct h.known h.tree h.readable h.sinks

theorem draft_formed {draft : Draft} (h : Forest.draft table records = .ok draft) : Formed table records := by
  obtain ⟨hn, hknown, tree, hreadable, hsinks, -, -⟩ := draft_sound h
  exact formed_of_places hn hknown ⟨draft.root, tree⟩ hreadable hsinks

namespace Formed

variable (h : Formed table records)
include h

theorem treeAt : ∃ root, TreeAt records root := by
  obtain ⟨root, hm, hcount, honce, hreached⟩ := h.tree
  obtain ⟨place, hroot⟩ := List.mem_iff_getElem?.mp hm
  refine ⟨place, ⟨root, hroot, hcount⟩, ?_, ?_⟩
  · intro child record hrecord hother
    refine honce record (List.mem_of_getElem? hrecord) fun huid => hother ?_
    have hsame := placeOf_uid h.distinct hrecord
    rw [huid, placeOf_uid h.distinct hroot] at hsame
    exact (Option.some.inj hsame).symm
  · intro child hlt
    have hrecord := List.getElem?_eq_getElem hlt
    rw [reflTransGen_iff_lists h.distinct h.known hroot hrecord]
    exact hreached _ (List.mem_of_getElem? hrecord)

theorem sinksAt (place : Nat) (record : Record) (hr : records[place]? = some record) (hkind : record.kind = .sink) :
    ∃ (init : Nat) (target : Record), records[init]? = some target ∧ target.uid = record.target ∧
      target.kind = .init ∧ TransGen (ChildAt records) init place := by
  obtain ⟨target, hm, huid, hinit, hbelow⟩ := h.sinks record (List.mem_of_getElem? hr) hkind
  obtain ⟨init, htarget⟩ := List.mem_iff_getElem?.mp hm
  exact ⟨init, target, htarget, huid, hinit, (transGen_iff_lists h.distinct h.known htarget hr).mpr hbelow⟩

/-- If the records are formed, the checks of the self-parallelism decide. -/
theorem build_eq : ∃ root, Forest.build table records =
    (fun finished => ⟨finished.toArray, root⟩) <$> (weightedNodes table records).mapM Node.finished := by
  obtain ⟨root, tree⟩ := h.treeAt
  exact ⟨root, RegionPlanner.build_eq h.distinct h.known tree h.readable h.sinksAt⟩

end Formed

end RegionPlanner
