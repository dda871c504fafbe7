import RegionPlanner.Proofs.Forest.Root

/-!
# The way back from a sink

In a tree the walk along the parents lists the strict ancestors of a node. So weights can be found exactly
if every sink knows its init node and lies below it.
-/

namespace RegionPlanner

variable {parent : Nat → Option Nat} {nodes : Array Node} {root place goal fuel : Nat} {path places : List Nat}
  {node init sink : Node}

/-- Nodes that form one tree of places, each at its own place and with its parent. -/
structure Placed (parent : Nat → Option Nat) (root : Nat) (nodes : Array Node) : Prop where
  tree : Rooted parent nodes.size root
  id : ∀ (place : Nat) (node : Node), nodes[place]? = some node → node.id = place
  parent : ∀ (place : Nat) (node : Node), nodes[place]? = some node → node.parent = parent place

theorem LinkedTo.placed {records : List Record} (h : LinkedTo records nodes)
    (tree : Rooted (parentAt records) records.length root) : Placed (parentAt records) root nodes :=
  ⟨h.size ▸ tree, h.id, h.parent⟩

/-! ### Ancestors -/

namespace Placed

variable (h : Placed parent root nodes)
include h

theorem mem_getElem? (hm : node ∈ nodes) : nodes[node.id]? = some node := by
  obtain ⟨place, hnode⟩ := Array.mem_iff_getElem?.mp hm
  rwa [h.id _ _ hnode]

/-- The walk up visits the places of the chain. -/
theorem climb_eq (hc : Chain parent place path) (hfuel : path.length ≤ fuel) :
    climb nodes fuel (parent place) = path.filterMap (nodes[·]?) := by
  induction hc generalizing fuel with
  | top hp =>
    rw [hp]
    cases fuel <;> rfl
  | @up place above path hp rest ih =>
    have habove := Array.getElem?_eq_getElem (h.tree.bounded hp).1
    rw [List.length_cons] at hfuel
    cases fuel with
    | zero => omega
    | succ fuel =>
      rw [hp, climb, habove, List.filterMap_cons, habove]
      simp only
      rw [h.parent _ _ habove, ih (by omega)]

theorem ids_eq (hpath : ∀ place ∈ path, place < nodes.size) : (path.filterMap (nodes[·]?)).map (·.id) = path := by
  have hid : ∀ place ∈ path, nodes[place]?.map (·.id) = some place := by
    intro place hm
    have hnode := Array.getElem?_eq_getElem (hpath place hm)
    rw [hnode, Option.map_some, h.id place _ hnode]
  rw [List.map_filterMap, List.filterMap_congr hid, List.filterMap_some]

theorem climb_ids (hc : Chain parent place path) (hfuel : path.length ≤ fuel) :
    (climb nodes fuel (parent place)).map (·.id) = path := by
  rw [h.climb_eq hc hfuel, h.ids_eq fun _ => h.tree.mem_lt hc]

theorem ancestorsIn_ids (hs : sink ∈ nodes) : Chain parent sink.id ((ancestorsIn nodes sink).map (·.id)) := by
  have hsink := h.mem_getElem? hs
  have hlt : sink.id < nodes.size := (Array.getElem?_eq_some_iff.mp hsink).1
  obtain ⟨path, hpath⟩ := h.tree.chain hlt
  have hlength := h.tree.length_lt hlt hpath
  unfold ancestorsIn
  rwa [h.parent _ _ hsink, h.climb_ids hpath (by omega)]

end Placed

/-! ### Ways -/

theorem pathTo_isSome : (∃ path, pathTo goal places = some path) ↔ goal ∈ places := by
  induction places with
  | nil => simp [pathTo]
  | cons place places ih =>
    unfold pathTo
    by_cases hsame : place = goal
    · simp [hsame]
    · rw [if_neg hsame, List.mem_cons, ← ih]
      simp [Ne.symm hsame]

namespace Placed

variable (h : Placed parent root nodes)
include h

theorem sinkPath_isOk (hs : sink ∈ nodes) :
    (∃ path, sinkPath nodes init sink = .ok path) ↔ Ancestor parent init.id sink.id := by
  rw [← (h.ancestorsIn_ids hs).mem_iff, ← pathTo_isSome]
  unfold sinkPath
  cases pathTo init.id ((ancestorsIn nodes sink).map (·.id)) <;> simp

theorem addInit_isOk {sinks : List Node} (hs : ∀ sink ∈ sinks, sink ∈ nodes) (weights : Weights) :
    (∃ out, addInit nodes sinks weights init = .ok out) ↔
      ∀ sink ∈ sinks, sink.target = some init.id → Ancestor parent init.id sink.id := by
  have hpaths : (∃ paths, (sinks.filter (·.target = some init.id)).mapM (sinkPath nodes init) = .ok paths) ↔
      ∀ sink ∈ sinks, sink.target = some init.id → Ancestor parent init.id sink.id := by
    rw [mapM_isOk]
    constructor
    · intro hall sink hm ht
      have hfilter : sink ∈ sinks.filter (·.target = some init.id) := List.mem_filter.mpr ⟨hm, by simpa using ht⟩
      exact (h.sinkPath_isOk (hs sink hm)).mp (hall sink hfilter)
    · intro hall sink hm
      obtain ⟨hm, ht⟩ := List.mem_filter.mp hm
      exact (h.sinkPath_isOk (hs sink hm)).mpr (hall sink hm (by simpa using ht))
  rw [← hpaths]
  unfold addInit
  constructor
  · rintro ⟨out, hout⟩
    obtain ⟨paths, hok, -⟩ := bind_eq_ok.mp hout
    exact ⟨paths, hok⟩
  · rintro ⟨paths, hok⟩
    exact ⟨_, bind_eq_ok.mpr ⟨paths, hok, rfl⟩⟩

theorem addInits_isOk {sinks inits : List Node} (hs : ∀ sink ∈ sinks, sink ∈ nodes) (weights : Weights) :
    (∃ out, inits.foldlM (addInit nodes sinks) weights = .ok out) ↔ ∀ init ∈ inits, ∀ sink ∈ sinks,
      sink.target = some init.id → Ancestor parent init.id sink.id := by
  apply foldlM_isOk
  intro weights init
  exact h.addInit_isOk hs weights

end Placed

/-! ### Sinks -/

theorem sinksOf_eq_ok {sinks : List Node} : sinksOf nodes = .ok sinks ↔
    (∀ sink ∈ nodes, sink.kind = .sink → sink.target.isSome) ∧ nodes.toList.filter (·.kind = .sink) = sinks := by
  have hstep : ∀ sink ∈ nodes.toList.filter (·.kind = .sink), ∀ out : Node, (if sink.target.isSome then .ok sink
      else .error (Fault.invalidRecursionTarget sink.uid 0) : Except Fault Node) = .ok out ↔
        sink.target.isSome ∧ id sink = out := by
    intro sink _ out
    by_cases ht : sink.target.isSome <;> simp [ht]
  unfold sinksOf
  rw [mapM_eq_ok_map hstep, List.map_id]
  simp

/-- Every sink knows its init node and lies below it. -/
structure SinksBelow (parent : Nat → Option Nat) (nodes : Array Node) : Prop where
  known : ∀ sink ∈ nodes, sink.kind = .sink → sink.target.isSome
  below : ∀ sink ∈ nodes, sink.kind = .sink → ∀ init ∈ nodes, init.kind = .init → sink.target = some init.id →
    Ancestor parent init.id sink.id

theorem weightsOf_isOk (h : Placed parent root nodes) :
    (∃ weights, weightsOf nodes = .ok weights) ↔ SinksBelow parent nodes := by
  have hsinks : ∀ sink ∈ nodes.toList.filter (·.kind = .sink), sink ∈ nodes := by
    intro sink hm
    exact Array.mem_toList_iff.mp (List.mem_filter.mp hm).1
  constructor
  · rintro ⟨weights, hok⟩
    unfold weightsOf at hok
    obtain ⟨sinks, hsinksOf, hloop⟩ := bind_eq_ok.mp hok
    obtain ⟨hknown, rfl⟩ := sinksOf_eq_ok.mp hsinksOf
    have hall := (h.addInits_isOk hsinks _).mp ⟨weights, hloop⟩
    refine ⟨hknown, ?_⟩
    intro sink hs hkind init hi hinit
    exact hall init (by simp [hi, hinit]) sink (by simp [hs, hkind])
  · rintro ⟨hknown, hbelow⟩
    have hall : ∀ init ∈ nodes.toList.filter (·.kind = .init), ∀ sink ∈ nodes.toList.filter (·.kind = .sink),
        sink.target = some init.id → Ancestor parent init.id sink.id := by
      intro init hi sink hs
      rw [List.mem_filter, Array.mem_toList_iff, decide_eq_true_eq] at hi hs
      exact hbelow sink hs.1 hs.2 init hi.1 hi.2
    obtain ⟨weights, hloop⟩ := (h.addInits_isOk hsinks Std.TreeMap.empty).mpr hall
    exact ⟨weights, bind_eq_ok.mpr ⟨_, sinksOf_eq_ok.mpr ⟨hknown, rfl⟩, hloop⟩⟩

end RegionPlanner
