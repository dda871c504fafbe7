import RegionPlanner.Forest.Classify
import RegionPlanner.Proofs.Forest.Search
import RegionPlanner.Proofs.Success

/-!
# Sweeps from the init records

What classification does to records that refer to each other in any way, with any index that gives places in
them. Each sweep makes inner ones of the ordinary records that can be reached from its init record; it faults
exactly where a reached record has a child that the index does not have.
-/

namespace RegionPlanner

open Relation

variable {records : List Record} {index : UidIndex} {place child : Nat} {record : Record} {fault : Fault}

/-- The index has the uids of the records and no other ones, each at a place where a record with it stands. -/
structure Indexes (index : UidIndex) (records : List Record) : Prop where
  found : ∀ uid place, index uid = some place → ∃ record, records[place]? = some record ∧ record.uid = uid
  known : ∀ record ∈ records, ∃ place, index record.uid = some place

/-- From a record to the place that the index gives for one of its children. -/
def LeadsTo (index : UidIndex) (records : List Record) (place child : Nat) : Prop :=
  ∃ record, records[place]? = some record ∧ ∃ uid ∈ record.children, index uid = some child

/-- A place that can be reached from one of the starts. -/
def ReachedFrom (index : UidIndex) (records : List Record) (starts : List Nat) (place : Nat) : Prop :=
  ∃ start ∈ starts, ReflTransGen (LeadsTo index records) start place

/-- A place that can be reached from an init record. -/
def FromInit (index : UidIndex) (records : List Record) (place : Nat) : Prop :=
  ∃ init record, records[init]? = some record ∧ record.kind = .init ∧ ReflTransGen (LeadsTo index records) init place

theorem Indexes.lt (h : Indexes index records) {uid : UInt64} (hp : index uid = some place) :
    place < records.length := by
  obtain ⟨record, hrecord, -⟩ := h.found uid place hp
  exact (List.getElem?_eq_some_iff.mp hrecord).1

theorem Indexes.none_iff (h : Indexes index records) {uid : UInt64} :
    index uid = none ↔ ∀ other ∈ records, other.uid ≠ uid := by
  constructor
  · rintro hnone other ho rfl
    obtain ⟨place, hplace⟩ := h.known other ho
    rw [hnone] at hplace
    cases hplace
  · intro hall
    cases hp : index uid with
    | none => rfl
    | some place =>
      obtain ⟨record, hrecord, huid⟩ := h.found uid place hp
      exact absurd huid (hall record (List.mem_of_getElem? hrecord))

theorem reachedFrom_append {starts : List Nat} {start : Nat} : ReachedFrom index records (starts ++ [start]) place ↔
    ReachedFrom index records starts place ∨ ReflTransGen (LeadsTo index records) start place := by
  unfold ReachedFrom
  simp only [List.mem_append, List.mem_singleton, or_and_right, exists_or, exists_eq_left]

/-! ### Inner records -/

@[simp] theorem Record.toInner_uid (record : Record) : record.toInner.uid = record.uid := by
  unfold Record.toInner
  split <;> rfl

@[simp] theorem Record.toInner_children (record : Record) : record.toInner.children = record.children := by
  unfold Record.toInner
  split <;> rfl

theorem Record.toInner_toInner (record : Record) : record.toInner.toInner = record.toInner := by
  unfold Record.toInner
  split <;> simp_all

theorem Record.toInner_childPlaces (record : Record) :
    record.toInner.childPlaces index = record.childPlaces index := by
  simp [Record.childPlaces]

/-! ### Places of children -/

theorem childPlaces_mem {places : List Nat} (h : record.childPlaces index = .ok places) :
    child ∈ places ↔ ∃ uid ∈ record.children, index uid = some child := by
  unfold Record.childPlaces at h
  rw [mapM_eq_ok] at h
  generalize record.children = children at h ⊢
  induction h with
  | nil => simp
  | @cons uid place _ _ hp _ ih =>
    cases hi : index uid with
    | none => rw [hi] at hp; cases hp
    | some found =>
      rw [hi] at hp
      cases hp
      rw [List.mem_cons, ih]
      simp only [List.mem_cons, exists_eq_or_imp, hi, Option.some.injEq]
      exact or_congr_left eq_comm

theorem childPlaces_isOk :
    (∃ places, record.childPlaces index = .ok places) ↔ ∀ uid ∈ record.children, ∃ place, index uid = some place := by
  unfold Record.childPlaces
  rw [mapM_isOk]
  refine forall₂_congr fun uid _ => ?_
  cases index uid <;> simp

theorem childPlaces_error (h : record.childPlaces index = .error fault) :
    ∃ uid ∈ record.children, index uid = none ∧ fault = .danglingChild record.uid uid := by
  obtain ⟨uid, hmem, hfault⟩ := mapM_eq_error h
  refine ⟨uid, hmem, ?_⟩
  cases hi : index uid with
  | none =>
    rw [hi] at hfault
    exact ⟨rfl, (Except.error.inj hfault).symm⟩
  | some place =>
    rw [hi] at hfault
    cases hfault

theorem childPlacesAt_map (index : UidIndex) (records : Array Record) (place : Nat) :
    childPlacesAt index records place = (records.map (Record.childPlaces index))[place]?.getD (.ok []) := by
  unfold childPlacesAt
  rw [Array.getElem?_map]
  cases records[place]? <;> rfl

theorem childPlacesAt_toArray (hr : records[place]? = some record) :
    childPlacesAt index records.toArray place = record.childPlaces index := by
  unfold childPlacesAt
  rw [List.getElem?_toArray, hr]

theorem childPlacesAt_none (hr : records[place]? = none) : childPlacesAt index records.toArray place = .ok [] := by
  unfold childPlacesAt
  rw [List.getElem?_toArray, hr]

theorem leadsTo_of_steps (h : Reach.Steps (childPlacesAt index records.toArray) place child) :
    LeadsTo index records place child := by
  obtain ⟨places, hplaces, hmem⟩ := h
  cases hr : records[place]? with
  | none =>
    rw [childPlacesAt_none hr] at hplaces
    cases hplaces
    cases hmem
  | some record =>
    rw [childPlacesAt_toArray hr] at hplaces
    exact ⟨record, hr, (childPlaces_mem hplaces).mp hmem⟩

namespace Classified

variable {starts : List Nat} {start : Nat} {state : Classified}

/-! ### Marking -/

theorem mark_getElem? (state : Classified) (place other : Nat) : (state.mark place).records[other]? =
    if place = other then state.records[other]?.map Record.toInner else state.records[other]? := by
  unfold mark
  cases hr : state.records[place]? with
  | none =>
    by_cases hsame : place = other
    · subst hsame
      simp [hr]
    · rw [if_neg hsame]
  | some record =>
    have hlt : place < state.records.size := (Array.getElem?_eq_some_iff.mp hr).1
    by_cases hk : record.kind = .normal
    · simp only [if_pos hk]
      rw [Array.getElem?_setIfInBounds]
      by_cases hsame : place = other
      · subst hsame
        rw [if_pos rfl, if_pos hlt, if_pos rfl, hr, Option.map_some]
      · rw [if_neg hsame, if_neg hsame]
    · simp only [if_neg hk]
      by_cases hsame : place = other
      · subst hsame
        simp [hr, Record.toInner, hk]
      · rw [if_neg hsame]

theorem mark_all (places : List Nat) (state : Classified) (other : Nat) :
    (places.foldl mark state).records[other]? =
      if other ∈ places then state.records[other]?.map Record.toInner else state.records[other]? := by
  induction places generalizing state with
  | nil => simp
  | cons place places ih =>
    have htwice : (Record.toInner ∘ Record.toInner) = Record.toInner := funext Record.toInner_toInner
    rw [List.foldl_cons, ih (state.mark place), mark_getElem? state place other]
    by_cases hsame : place = other
    · subst hsame
      simp [htwice]
    · simp [hsame, Ne.symm hsame]

/-! ### What every sweep leaves as it was -/

section
variable {α : Type} {f : Record → α}

theorem mark_all_map (hf : ∀ record, f (Record.toInner record) = f record) (places : List Nat)
    (state : Classified) : (places.foldl mark state).records.map f = state.records.map f := by
  apply Array.ext_getElem?
  intro other
  have hmarked := mark_all places state other
  rw [Array.getElem?_map, Array.getElem?_map, hmarked]
  split
  · rw [Option.map_map]
    exact congrArg (Option.map · _) (funext hf)
  · rfl

theorem sweep_map (hf : ∀ record, f (Record.toInner record) = f record) (state : Classified) (start : Nat) :
    (sweep index state start).records.map f = state.records.map f := by
  unfold sweep
  split
  · rfl
  · exact mark_all_map hf _ state

theorem sweeps_map (hf : ∀ record, f (Record.toInner record) = f record) (rest : List Nat) (state : Classified) :
    (rest.foldl (sweep index) state).records.map f = state.records.map f := by
  induction rest generalizing state with
  | nil => rfl
  | cons start rest ih => rw [List.foldl_cons, ih, sweep_map hf]

end

/-! ### Sweeps -/

open Classical in
/-- The record at a place when what can be reached from the starts has been marked. -/
noncomputable def sweptAt (index : UidIndex) (records : List Record) (starts : List Nat) (place : Nat)
    (record : Record) : Record :=
  if ReachedFrom index records starts place then record.toInner else record

/-- The records that can be reached from the starts so far are inner ones now, and all their children have
records. -/
structure Swept (index : UidIndex) (records : List Record) (starts : List Nat) (state : Classified) : Prop where
  marked : ∀ place, state.records[place]? = records[place]?.map (sweptAt index records starts place)
  covered : ∀ place record, ReachedFrom index records starts place → records[place]? = some record →
    ∀ uid ∈ record.children, ∃ child, index uid = some child

theorem Swept.links (h : Swept index records starts state) :
    state.records.map (Record.childPlaces index) = records.toArray.map (Record.childPlaces index) := by
  have hkept : ∀ place record, (sweptAt index records starts place record).childPlaces index =
      record.childPlaces index := by
    intro place record
    unfold sweptAt
    split
    · exact record.toInner_childPlaces
    · rfl
  apply Array.ext_getElem?
  intro place
  rw [Array.getElem?_map, Array.getElem?_map, h.marked place, Option.map_map, List.getElem?_toArray]
  exact congrArg (Option.map · records[place]?) (funext (hkept place))

theorem Swept.size (h : Swept index records starts state) : state.records.size = records.length := by
  simpa using congrArg Array.size h.links

theorem Swept.childPlacesAt_eq (h : Swept index records starts state) :
    childPlacesAt index state.records = childPlacesAt index records.toArray := by
  funext place
  rw [childPlacesAt_map, h.links, ← childPlacesAt_map]

open Classical in
/-- A place that an earlier sweep reached is inner already, and marking it again changes nothing. -/
theorem sweptAt_append : sweptAt index records (starts ++ [start]) place =
    if ReflTransGen (LeadsTo index records) start place then Record.toInner ∘ sweptAt index records starts place
    else sweptAt index records starts place := by
  funext record
  unfold sweptAt
  simp only [reachedFrom_append]
  by_cases hnew : ReflTransGen (LeadsTo index records) start place
  · by_cases hold : ReachedFrom index records starts place <;> simp [hnew, hold, Record.toInner_toInner]
  · simp [hnew]

theorem search_records (hi : Indexes index records) (hs : start < records.length)
    (h : Swept index records starts state) :
    Reach.Complete (childPlacesAt index records.toArray) start
      (search (childPlacesAt index state.records) state.records.size start) := by
  rw [h.childPlacesAt_eq, h.size]
  refine Reach.search_complete ?_ hs
  intro place places hplaces other ho
  obtain ⟨-, -, uid, -, hother⟩ := leadsTo_of_steps ⟨places, hplaces, ho⟩
  exact hi.lt hother

/-- What can be reached is closed under children, since no step failed. -/
theorem reached_iff {reach : Reach Fault} (h : Reach.Complete (childPlacesAt index records.toArray) start reach)
    (hf : reach.failure = none) : place ∈ reach.visited ↔ ReflTransGen (LeadsTo index records) start place := by
  constructor
  · intro hm
    exact ReflTransGen.mono (fun _ _ hstep => leadsTo_of_steps hstep) _ _ (h.sound place hm)
  · intro hr
    obtain ⟨hstart, hclosed⟩ := h.closed hf
    induction hr with
    | refl => exact hstart
    | tail _ hchild ih =>
      obtain ⟨places, hplaces, hsub⟩ := hclosed _ ih
      obtain ⟨record, hrecord, hmem⟩ := hchild
      rw [childPlacesAt_toArray hrecord] at hplaces
      exact hsub _ ((childPlaces_mem hplaces).mpr hmem)

theorem sweep_eq (start : Nat) (h : state.fault = none) : sweep index state start =
    let reach := search (childPlacesAt index state.records) state.records.size start
    { reach.visited.foldl mark state with fault := reach.failure } := by
  unfold sweep
  rw [if_neg (by simp [h])]

theorem sweep_swept (hi : Indexes index records) (hs : start < records.length)
    (h : Swept index records starts state) (hbefore : state.fault = none)
    (hf : (sweep index state start).fault = none) :
    Swept index records (starts ++ [start]) (sweep index state start) := by
  have hcomplete := search_records hi hs h
  rw [sweep_eq start hbefore] at hf ⊢
  generalize search (childPlacesAt index state.records) state.records.size start = reach at hcomplete hf ⊢
  have hvisited : ∀ place, place ∈ reach.visited ↔ ReflTransGen (LeadsTo index records) start place :=
    fun _ => reached_iff hcomplete hf
  constructor
  · intro place
    have hmarked := mark_all reach.visited state place
    rw [h.marked place, Option.map_map] at hmarked
    change (reach.visited.foldl mark state).records[place]? = _
    rw [hmarked, sweptAt_append]
    by_cases hin : ReflTransGen (LeadsTo index records) start place
    · rw [if_pos ((hvisited place).mpr hin), if_pos hin]
    · rw [if_neg (mt (hvisited place).mp hin), if_neg hin]
  · intro place record hreached hrecord
    rcases reachedFrom_append.mp hreached with hold | hnew
    · exact h.covered place record hold hrecord
    · obtain ⟨places, hplaces, -⟩ := (hcomplete.closed hf).2 place ((hvisited place).mpr hnew)
      rw [childPlacesAt_toArray hrecord] at hplaces
      exact childPlaces_isOk.mp ⟨places, hplaces⟩

/-- A sweep that faults has reached a record with a child that the index does not have. -/
theorem sweep_fault (hi : Indexes index records) (hs : start < records.length)
    (h : Swept index records starts state) (hbefore : state.fault = none)
    (hf : (sweep index state start).fault = some fault) :
    ∃ place record, ReflTransGen (LeadsTo index records) start place ∧ records[place]? = some record ∧
      ∃ uid ∈ record.children, index uid = none ∧ fault = .danglingChild record.uid uid := by
  have hcomplete := search_records hi hs h
  rw [sweep_eq start hbefore] at hf
  obtain ⟨place, hmem, hplace⟩ := hcomplete.failed fault hf
  have hreached := ReflTransGen.mono (fun _ _ hstep => leadsTo_of_steps hstep) _ _ (hcomplete.sound place hmem)
  cases hr : records[place]? with
  | none =>
    rw [childPlacesAt_none hr] at hplace
    cases hplace
  | some record =>
    rw [childPlacesAt_toArray hr] at hplace
    exact ⟨place, record, hreached, hr, childPlaces_error hplace⟩

theorem swept_start (records : List Record) : Swept index records [] { records := records.toArray } := by
  have hnowhere : ∀ place, ¬ ReachedFrom index records [] place := by
    rintro place ⟨start, hm, -⟩
    cases hm
  refine ⟨?_, fun place _ hreached => absurd hreached (hnowhere place)⟩
  intro place
  have hkept : sweptAt index records [] place = id := by
    funext record
    exact if_neg (hnowhere place)
  rw [hkept, Option.map_id, id]
  exact List.getElem?_toArray

/-- Once there is a fault, it stays. -/
theorem sweeps_fault_some {rest : List Nat} (h : state.fault = some fault) :
    (rest.foldl (sweep index) state).fault = some fault := by
  induction rest generalizing state with
  | nil => exact h
  | cons start rest ih =>
    have hnext : sweep index state start = state := by
      unfold sweep
      rw [if_pos (by simp [h])]
    rw [List.foldl_cons, hnext]
    exact ih h

theorem sweeps_swept (hi : Indexes index records) {rest : List Nat} (hs : ∀ p ∈ rest, p < records.length)
    (h : Swept index records starts state) (hbefore : state.fault = none)
    (hf : (rest.foldl (sweep index) state).fault = none) :
    Swept index records (starts ++ rest) (rest.foldl (sweep index) state) := by
  induction rest generalizing starts state with
  | nil => simpa using h
  | cons start rest ih =>
    have hnext : (sweep index state start).fault = none := by
      cases hfault : (sweep index state start).fault with
      | none => rfl
      | some fault =>
        rw [List.foldl_cons, sweeps_fault_some hfault] at hf
        cases hf
    have hswept := sweep_swept hi (hs start List.mem_cons_self) h hbefore hnext
    have hrest := ih (fun p hp => hs p (List.mem_cons_of_mem _ hp)) hswept hnext hf
    rwa [List.append_assoc, List.singleton_append] at hrest

theorem sweeps_fault (hi : Indexes index records) {rest : List Nat} (hs : ∀ p ∈ rest, p < records.length)
    (h : Swept index records starts state) (hbefore : state.fault = none)
    (hf : (rest.foldl (sweep index) state).fault = some fault) :
    ∃ place record, ReachedFrom index records rest place ∧ records[place]? = some record ∧
      ∃ uid ∈ record.children, index uid = none ∧ fault = .danglingChild record.uid uid := by
  induction rest generalizing starts state with
  | nil =>
    rw [List.foldl_nil, hbefore] at hf
    cases hf
  | cons start rest ih =>
    have hstart : start < records.length := hs start List.mem_cons_self
    rw [List.foldl_cons] at hf
    cases hnext : (sweep index state start).fault with
    | some early =>
      rw [sweeps_fault_some hnext] at hf
      cases hf
      obtain ⟨place, record, hreach, hrest⟩ := sweep_fault hi hstart h hbefore hnext
      exact ⟨place, record, ⟨start, List.mem_cons_self, hreach⟩, hrest⟩
    | none =>
      have hswept := sweep_swept hi hstart h hbefore hnext
      obtain ⟨place, record, ⟨origin, ho, hreach⟩, hrest⟩ :=
        ih (fun p hp => hs p (List.mem_cons_of_mem _ hp)) hswept hnext hf
      exact ⟨place, record, ⟨origin, List.mem_cons_of_mem _ ho, hreach⟩, hrest⟩

end Classified

/-! ### Classification -/

theorem mem_initPlaces : place ∈ initPlaces records.toArray ↔
    ∃ record, records[place]? = some record ∧ record.kind = .init := by
  have hlist : records.toArray[place]? = records[place]? := List.getElem?_toArray
  unfold initPlaces
  rw [List.mem_filter, List.mem_range, hlist]
  constructor
  · rintro ⟨-, hkind⟩
    cases hr : records[place]? with
    | none => rw [hr] at hkind; cases hkind
    | some record =>
      rw [hr] at hkind
      exact ⟨record, rfl, by simpa using hkind⟩
  · rintro ⟨record, hr, hkind⟩
    refine ⟨(List.getElem?_eq_some_iff.mp hr).1, ?_⟩
    rw [hr]
    simpa using hkind

theorem initPlaces_lt : ∀ p ∈ initPlaces records.toArray, p < records.length := by
  intro p hp
  obtain ⟨record, hr, -⟩ := mem_initPlaces.mp hp
  exact (List.getElem?_eq_some_iff.mp hr).1

theorem fromInit_iff : FromInit index records place ↔
    ReachedFrom index records (initPlaces records.toArray) place := by
  constructor
  · rintro ⟨init, record, hr, hkind, hreach⟩
    exact ⟨init, mem_initPlaces.mpr ⟨record, hr, hkind⟩, hreach⟩
  · rintro ⟨init, hm, hreach⟩
    obtain ⟨record, hr, hkind⟩ := mem_initPlaces.mp hm
    exact ⟨init, record, hr, hkind, hreach⟩

/-- Whatever the kind of a record does not decide is kept, also when classification faults. -/
theorem classify_map {α : Type} {f : Record → α} (index : UidIndex) (records : List Record)
    (hf : ∀ record, f (Record.toInner record) = f record) :
    (classify index records).records.map f = records.toArray.map f :=
  Classified.sweeps_map hf _ _

theorem classify_swept (hi : Indexes index records) (hf : (classify index records).fault = none) :
    Classified.Swept index records (initPlaces records.toArray) (classify index records) :=
  Classified.sweeps_swept hi initPlaces_lt (Classified.swept_start records) rfl hf

open Classical in
/-- The records as they are after classification without a fault. -/
theorem classify_records (hi : Indexes index records) (hf : (classify index records).fault = none) (place : Nat) :
    (classify index records).records[place]? =
      records[place]?.map fun record => if FromInit index records place then record.toInner else record := by
  simp only [fromInit_iff]
  exact (classify_swept hi hf).marked place

theorem classify_covered (hi : Indexes index records) (hf : (classify index records).fault = none)
    (hp : FromInit index records place) (hr : records[place]? = some record) :
    ∀ uid ∈ record.children, ∃ child, index uid = some child :=
  (classify_swept hi hf).covered place record (fromInit_iff.mp hp) hr

theorem classify_fault (hi : Indexes index records) (hf : (classify index records).fault = some fault) :
    ∃ place record, FromInit index records place ∧ records[place]? = some record ∧
      ∃ uid ∈ record.children, index uid = none ∧ fault = .danglingChild record.uid uid := by
  obtain ⟨place, record, hreach, hrest⟩ :=
    Classified.sweeps_fault hi initPlaces_lt (Classified.swept_start records) rfl hf
  exact ⟨place, record, fromInit_iff.mpr hreach, hrest⟩

end RegionPlanner
