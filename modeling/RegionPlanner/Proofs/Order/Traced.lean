import RegionPlanner.Proofs.Order.Listing
import RegionPlanner.Proofs.Weights.Closed

/-!
# What records say of a node

Kind, weights and work of the node of a record, said of the records and their uids alone. The order of the
records is left in one place only: it tells which init record decides a weight.
-/

namespace RegionPlanner

open Relation

variable {table : RegionTable} {records records' : List Record} {record init : Record} {place child depth : Nat}
  {uid : UInt64}

/-! ### Kinds -/

/-- Below an init record, or an init record itself. -/
def Unwound (records : List Record) (uid : UInt64) : Prop :=
  ∃ init ∈ records, init.kind = .init ∧ ReflTransGen (Lists records) init.uid uid

open Classical in
/-- A record as it is after classification. -/
noncomputable def settled (records : List Record) (record : Record) : Record :=
  if Unwound records record.uid then record.toInner else record

theorem unwound_perm (h : records.Perm records') : Unwound records uid ↔ Unwound records' uid := by
  unfold Unwound
  simp only [lists_perm h, h.mem_iff]

theorem settled_perm (h : records.Perm records') : settled records record = settled records' record := by
  unfold settled
  rw [unwound_perm h]

/-! ### Work and shares -/

/-- The sinks that name an init record and have counters at a depth. -/
def sinksNaming (records : List Record) (init : UInt64) (depth : Nat) : List Record :=
  records.filter fun sink => sink.kind = .sink ∧ sink.target = init ∧ depth < sink.stats.length

/-- A uid is between an init record and one of the sinks that name it and have counters at a depth. -/
def Passes (records : List Record) (depth : Nat) (uid init : UInt64) : Prop :=
  ∃ sink ∈ sinksNaming records init depth, TransGen (Lists records) uid sink.uid ∧
    ReflTransGen (Lists records) init uid

open Classical in
/-- The last init record, in trace order, that has a uid between itself and one of its sinks. -/
noncomputable def lastInit (records : List Record) (depth : Nat) (uid : UInt64) : Option UInt64 :=
  ((records.filter (·.kind = .init)).map (·.uid)).reverse.find? fun init => Passes records depth uid init

open Classical in
/-- The share of the work of an init record's sinks that is below a uid. -/
noncomputable def shareTraced (records : List Record) (depth : Nat) (uid init : UInt64) : Share where
  part := (((sinksNaming records init depth).filter fun sink => TransGen (Lists records) uid sink.uid).map
    fun sink => workCounted sink.stats depth).sum
  whole := ((sinksNaming records init depth).map fun sink => workCounted sink.stats depth).sum

theorem shareTraced_perm (h : records.Perm records') {init : UInt64} :
    shareTraced records depth uid init = shareTraced records' depth uid init := by
  have hsinks : (sinksNaming records init depth).Perm (sinksNaming records' init depth) := h.filter _
  unfold shareTraced
  rw [lists_perm h, ((hsinks.filter _).map _).sum_nat, (hsinks.map _).sum_nat]

/-! ### Nodes of formed records -/

theorem mapIdx_filter_map {α β γ : Type} {f : Nat → α → β} {p : β → Bool} {g : β → γ} {p' : α → Bool} {g' : α → γ}
    {xs : List α} (h : ∀ (place : Nat) (x : α), xs[place]? = some x →
      p (f place x) = p' x ∧ (p' x = true → g (f place x) = g' x)) :
    ((xs.mapIdx f).filter p).map g = (xs.filter p').map g' := by
  induction xs generalizing f with
  | nil => rfl
  | cons x xs ih =>
    obtain ⟨hp, hg⟩ := h 0 x rfl
    have hrest := ih (f := fun place => f (place + 1)) fun place y hy => h (place + 1) y hy
    rw [List.mapIdx_cons, List.filter_cons, List.filter_cons, hp]
    split
    · next hx => rw [List.map_cons, List.map_cons, hrest, hg hx]
    · exact hrest

/-- What is found depends on the list of answers only. -/
theorem findSome?_of_map {α β γ : Type} {f : α → Option γ} {g : β → Option γ} {xs : List α} {ys : List β}
    (h : xs.map f = ys.map g) : xs.reverse.findSome? f = ys.reverse.findSome? g := by
  have hanswers := congrArg (fun answers => answers.reverse.findSome? id) h
  simpa only [← List.map_reverse, List.findSome?_map, Function.id_comp] using hanswers

theorem findSome?_guarded {α β : Type} {p : α → Prop} [DecidablePred p] {f : α → β} {xs : List α} :
    (xs.findSome? fun x => if p x then some (f x) else none) = (xs.find? (p ·)).map f := by
  induction xs with
  | nil => rfl
  | cons x xs ih =>
    rw [List.findSome?_cons, List.find?_cons]
    by_cases hx : p x
    · simp [hx]
    · simp [hx, ih]

namespace Formed

variable (h : Formed table records)
include h

theorem readableAt (place : Nat) (record : Record) (hr : records[place]? = some record) : record.Readable table :=
  h.readable record (List.mem_of_getElem? hr)

theorem listed_nodup : (listed records).Nodup := by
  obtain ⟨root, tree⟩ := h.treeAt
  exact tree.listed_nodup (known_iff.mp h.known)

variable (hr : records[place]? = some record)
include hr

theorem classifiedAt_eq : classifiedAt records place record = settled records record := by
  have hiff : InRecursion records place ↔ Unwound records record.uid := by
    unfold InRecursion Unwound
    constructor
    · rintro ⟨start, init, hinit, hkind, hreach⟩
      exact ⟨init, List.mem_of_getElem? hinit, hkind,
        (reflTransGen_iff_lists h.distinct h.known hinit hr).mp hreach⟩
    · rintro ⟨init, hm, hkind, hreach⟩
      obtain ⟨start, hinit⟩ := List.mem_iff_getElem?.mp hm
      exact ⟨start, init, hinit, hkind, (reflTransGen_iff_lists h.distinct h.known hinit hr).mpr hreach⟩
  unfold classifiedAt settled
  rw [hiff]

variable {below : Record} (hb : records[child]? = some below)
include hb

theorem ancestor_iff_lists :
    Ancestor (parentAt records) place child ↔ TransGen (Lists records) record.uid below.uid := by
  rw [← transGen_iff_lists h.distinct h.known hr hb, ← covers_parentAt h.listed_nodup]
  rfl

theorem within_iff_lists :
    Within (parentAt records) place child ↔ ReflTransGen (Lists records) record.uid below.uid := by
  rw [← reflTransGen_iff_lists h.distinct h.known hr hb, ← covers_parentAt h.listed_nodup]
  rfl

end Formed

/-! ### Weights -/

namespace Formed

variable (h : Formed table records)
include h

theorem linkedNode_target {sink : Record} (hi : records[child]? = some init) :
    (linkedNode table records place sink).target = some child ↔ sink.kind = .sink ∧ sink.target = init.uid := by
  unfold linkedNode
  by_cases hkind : sink.kind = .sink
  · rw [if_pos hkind, placeOf_eq_some_iff h.distinct, hi]
    simp [hkind, eq_comm]
  · simp [hkind]

theorem linkedNode_stats (hr : records[place]? = some record) :
    (linkedNode table records place record).profile.stats = record.stats :=
  readNode_stats (h.readableAt place record hr)

variable (hi : records[child]? = some init)
include hi

theorem leads_iff {sink : Record} (hs : records[place]? = some sink) :
    ((linkedNode table records place sink).kind = .sink ∧ (linkedNode table records place sink).target = some child ∧
      depth < (linkedNode table records place sink).depths) ↔
    sink.kind = .sink ∧ sink.target = init.uid ∧ depth < sink.stats.length := by
  unfold Node.depths
  rw [linkedNode_kind h.readableAt hs (by simp) (by simp), h.linkedNode_target hi, h.linkedNode_stats hs]
  constructor
  · rintro ⟨-, ⟨hkind, htarget⟩, hd⟩
    exact ⟨hkind, htarget, hd⟩
  · rintro ⟨hkind, htarget, hd⟩
    exact ⟨hkind, ⟨hkind, htarget⟩, hd⟩

theorem workInto_eq : workInto (linkedNodes table records).toArray child depth =
    ((sinksNaming records init.uid depth).map fun sink => workCounted sink.stats depth).sum := by
  unfold workInto sinksInto linkedNodes sinksNaming
  rw [mapIdx_filter_map]
  intro place sink hs
  simp only [decide_eq_decide]
  refine ⟨h.leads_iff hi hs, fun _ => ?_⟩
  unfold Node.workAt
  rw [h.linkedNode_stats hs]

theorem workThrough_eq (hr : records[place]? = some record) :
    workThrough (parentAt records) (linkedNodes table records).toArray child depth place =
      (shareTraced records depth record.uid init.uid).part := by
  unfold workThrough shareTraced sinksInto linkedNodes sinksNaming
  simp only [List.filter_filter]
  rw [mapIdx_filter_map]
  intro position sink hs
  rw [linkedNode_id h.readableAt hs, h.ancestor_iff_lists hr hs, Bool.eq_iff_iff]
  simp only [Bool.and_eq_true, decide_eq_true_eq, h.leads_iff hi hs, true_and]
  intro _
  unfold Node.workAt
  rw [h.linkedNode_stats hs]

theorem carries_iff (hr : records[place]? = some record) :
    Carries (parentAt records) (linkedNodes table records).toArray child depth place ↔
      Passes records depth record.uid init.uid := by
  unfold Carries Passes sinksNaming
  rw [← h.within_iff_lists hi hr]
  constructor
  · rintro ⟨sink, hm, ha, hw⟩
    obtain ⟨hs, hleads⟩ := mem_sinksInto.mp hm
    obtain ⟨position, found, hfound, rfl⟩ := mem_linkedNodes.mp hs
    rw [linkedNode_id h.readableAt hfound, h.ancestor_iff_lists hr hfound] at ha
    refine ⟨found, ?_, ha, hw⟩
    simpa [List.mem_of_getElem? hfound] using (h.leads_iff hi hfound).mp hleads
  · rintro ⟨sink, hm, ha, hw⟩
    simp only [List.mem_filter, decide_eq_true_eq] at hm
    obtain ⟨position, hs⟩ := List.mem_iff_getElem?.mp hm.1
    refine ⟨linkedNode table records position sink, mem_sinksInto.mpr ⟨?_, (h.leads_iff hi hs).mpr hm.2⟩, ?_, hw⟩
    · exact mem_linkedNodes.mpr ⟨position, sink, hs, rfl⟩
    · rwa [linkedNode_id h.readableAt hs, h.ancestor_iff_lists hr hs]

open Classical in
theorem shareFrom_eq (hr : records[place]? = some record) :
    shareFrom (parentAt records) (linkedNodes table records).toArray depth place
        (linkedNode table records child init) =
      if Passes records depth record.uid init.uid then some (shareTraced records depth record.uid init.uid)
      else none := by
  unfold shareFrom
  rw [linkedNode_id h.readableAt hi, h.workThrough_eq hi hr, h.workInto_eq hi, h.carries_iff hi hr]
  rfl

omit hi

/-- The weights of formed records, by uid. -/
theorem weights_traced {weights : Weights} (hok : weightsOf (linkedNodes table records).toArray = .ok weights)
    (hr : records[place]? = some record) : weights[(place, depth)]? =
      (lastInit records depth record.uid).map (shareTraced records depth record.uid) := by
  classical
  let given (init : UInt64) : Option Share :=
    if Passes records depth record.uid init then some (shareTraced records depth record.uid init) else none
  obtain ⟨root, tree⟩ := h.treeAt
  have hplaced := (linked_linkedTo h.readableAt).placed (tree.rooted h.listed_nodup)
  have hshares : ((linkedNodes table records).filter (·.kind = .init)).map
      (shareFrom (parentAt records) (linkedNodes table records).toArray depth place) =
        ((records.filter (·.kind = .init)).map (·.uid)).map given := by
    rw [List.map_map]
    refine mapIdx_filter_map ?_
    intro position init hi
    refine ⟨?_, fun _ => h.shareFrom_eq hi hr⟩
    rw [decide_eq_decide]
    exact linkedNode_kind h.readableAt hi (by simp) (by simp)
  rw [hplaced.getElem?_weightsOf hok]
  exact (findSome?_of_map hshares).trans findSome?_guarded

end Formed

end RegionPlanner
