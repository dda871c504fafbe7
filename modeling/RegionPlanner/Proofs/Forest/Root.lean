import RegionPlanner.Proofs.Forest.Links
import RegionPlanner.Proofs.Forest.Rooted

/-!
# The root

The search for the root and the check that everything is below it succeed together exactly when the records
form one tree.
-/

namespace RegionPlanner

open Relation

theorem getD_node {nodes : Array Node} {place : Nat} {node : Node} (h : nodes[place]? = some node) :
    nodes.getD place default = node := by
  rw [Array.getD_eq_getD_getElem?, h, Option.getD_some]

/-- Nodes that know their places are distinct. -/
theorem nodes_nodup {nodes : Array Node} (hid : ∀ (place : Nat) (node : Node), nodes[place]? = some node → node.id = place) :
    nodes.toList.Nodup := by
  rw [List.nodup_iff_injective_get]
  intro i j hij
  have hi := hid i nodes[i] (Array.getElem?_eq_getElem _)
  have hj := hid j nodes[j] (Array.getElem?_eq_getElem _)
  have hsame : nodes[i] = nodes[j] := by simpa using hij
  rw [hsame, hj] at hi
  exact Fin.ext hi.symm

/-- One record is listed nowhere, every other one is listed once, and all can be reached from the first. -/
structure TreeAt (records : List Record) (root : Nat) : Prop where
  top : ∃ record, records[root]? = some record ∧ (listed records).count record.uid = 0
  once : ∀ (place : Nat) (record : Record), records[place]? = some record → place ≠ root →
    (listed records).count record.uid = 1
  reached : ∀ place < records.length, ReflTransGen (ChildAt records) root place

/-- The nodes that linking makes of records know their places, their parents and their children. -/
structure LinkedTo (records : List Record) (nodes : Array Node) : Prop where
  size : nodes.size = records.length
  id : ∀ (place : Nat) (node : Node), nodes[place]? = some node → node.id = place
  parent : ∀ (place : Nat) (node : Node), nodes[place]? = some node → node.parent = parentAt records place
  children : ∀ (place : Nat) (node : Node) (record : Record), nodes[place]? = some node →
    records[place]? = some record →
    node.children = record.children.filterMap (placeOf records)

variable {records : List Record} {nodes : Array Node} {root place : Nat}

/-! ### Counting references -/

theorem listed_nodup_iff (hk : ∀ uid ∈ listed records, ∃ place, placeOf records uid = some place) :
    (listed records).Nodup ↔ ∀ record ∈ records, (listed records).count record.uid ≤ 1 := by
  rw [List.nodup_iff_count_le_one]
  constructor
  · intro h record _
    exact h record.uid
  · intro h uid
    by_cases hm : uid ∈ listed records
    · obtain ⟨place, hplace⟩ := hk uid hm
      obtain ⟨record, hr, rfl⟩ := placeOf_found hplace
      exact h record (List.mem_of_getElem? hr)
    · rw [List.count_eq_zero_of_not_mem hm]
      omega

theorem TreeAt.listed_nodup (h : TreeAt records root)
    (hk : ∀ uid ∈ listed records, ∃ place, placeOf records uid = some place) : (listed records).Nodup := by
  rw [listed_nodup_iff hk]
  intro record hm
  obtain ⟨place, hr⟩ := List.mem_iff_getElem?.mp hm
  by_cases hroot : place = root
  · subst hroot
    obtain ⟨top, htop, hcount⟩ := h.top
    rw [hr] at htop
    cases htop
    omega
  · exact Nat.le_of_eq (h.once place record hr hroot)

theorem covers_parentAt (hl : (listed records).Nodup) : Covers (parentAt records) = ChildAt records := by
  funext above below
  exact propext (parentAt_eq_some_iff hl)

theorem TreeAt.rooted (h : TreeAt records root) (hl : (listed records).Nodup) :
    Rooted (parentAt records) records.length root := by
  obtain ⟨top, htop, hcount⟩ := h.top
  refine ⟨(List.getElem?_eq_some_iff.mp htop).1, ?_, ?_, ?_⟩
  · rw [parentAt_eq_none_iff htop]
    exact List.count_eq_zero.mp hcount
  · intro above below hp
    exact childAt_lt (parentAt_childAt hp)
  · rw [covers_parentAt hl]
    exact h.reached

/-! ### The one node without a parent -/

namespace LinkedTo

variable (h : LinkedTo records nodes)
include h

theorem getElem? (hp : place < records.length) : ∃ node, nodes[place]? = some node ∧ node.id = place ∧
    node.parent = parentAt records place := by
  have hlt : place < nodes.size := h.size ▸ hp
  have hnode := Array.getElem?_eq_getElem hlt
  exact ⟨_, hnode, h.id _ _ hnode, h.parent _ _ hnode⟩

theorem mem_getElem? {node : Node} (hm : node ∈ nodes) : nodes[node.id]? = some node := by
  obtain ⟨place, hnode⟩ := Array.mem_iff_getElem?.mp hm
  rwa [h.id _ _ hnode]

theorem nodup : nodes.toList.Nodup := nodes_nodup h.id

theorem findRoot_eq_ok : findRoot nodes = .ok root ↔
    root < records.length ∧ ∀ place < records.length, parentAt records place = none ↔ place = root := by
  have hsingle : ∀ node, nodes.toList.filter (·.parent.isNone) = [node] ↔
      ∀ other, other ∈ nodes ∧ other.parent = none ↔ other = node := by
    intro node
    rw [← List.perm_singleton, List.perm_ext_iff_of_nodup (h.nodup.filter _) (List.nodup_singleton node)]
    simp
  constructor
  · intro hroot
    have hone : ∃ node, nodes.toList.filter (·.parent.isNone) = [node] ∧ node.id = root := by
      unfold findRoot at hroot
      split at hroot
      · cases hroot
      · next node hfilter => exact ⟨node, hfilter, Except.ok.inj hroot⟩
      · cases hroot
    obtain ⟨node, hfilter, rfl⟩ := hone
    have honly := (hsingle node).mp hfilter
    have hnode := h.mem_getElem? ((honly node).mpr rfl).1
    refine ⟨h.size ▸ (Array.getElem?_eq_some_iff.mp hnode).1, ?_⟩
    intro place hplace
    obtain ⟨other, hother, hid, hparent⟩ := h.getElem? hplace
    rw [← hparent]
    constructor
    · intro hnone
      have hsame := (honly other).mp ⟨Array.mem_of_getElem? hother, hnone⟩
      rw [← hid, hsame]
    · intro hplace
      rw [hplace, hnode] at hother
      cases hother
      exact ((honly _).mpr rfl).2
  · rintro ⟨hlt, honly⟩
    obtain ⟨node, hnode, hid, hparent⟩ := h.getElem? hlt
    have hfilter : nodes.toList.filter (·.parent.isNone) = [node] := by
      rw [hsingle]
      intro other
      constructor
      · rintro ⟨hm, hnone⟩
        have hother := h.mem_getElem? hm
        have hroot : other.id = root := by
          rw [← honly other.id (h.size ▸ (Array.getElem?_eq_some_iff.mp hother).1), ← h.parent _ _ hother]
          exact hnone
        rw [hroot, hnode] at hother
        exact (Option.some.inj hother).symm
      · rintro rfl
        rw [hparent]
        exact ⟨Array.mem_of_getElem? hnode, (honly root hlt).mpr rfl⟩
    unfold findRoot
    rw [hfilter]
    exact congrArg Except.ok hid

/-! ### Everything below it -/

theorem steps_iff (hn : (records.map (·.uid)).Nodup) {child : Nat} (hp : place < records.length) :
    child ∈ (nodes.getD place default).children ↔ ChildAt records place child := by
  obtain ⟨node, hnode, -, -⟩ := h.getElem? hp
  have hr := List.getElem?_eq_getElem hp
  rw [getD_node hnode, h.children _ _ _ hnode hr, childAt_iff hn hr, List.mem_filterMap]

theorem steps_eq (hn : (records.map (·.uid)).Nodup) :
    Reach.Steps (fun place => (.ok (nodes.getD place default).children : Except Empty (List Nat))) =
      ChildAt records := by
  have houtside : ∀ place, ¬ place < records.length → (nodes.getD place default).children = [] := by
    intro place hp
    rw [← h.size] at hp
    rw [Array.getD_eq_getD_getElem?, Array.getElem?_eq_none (by omega)]
    rfl
  funext place child
  unfold Reach.Steps
  simp only [Except.ok.injEq, exists_eq_left', eq_iff_iff]
  by_cases hp : place < records.length
  · exact h.steps_iff hn hp
  · rw [houtside place hp]
    exact ⟨fun hm => absurd hm List.not_mem_nil, fun hc => absurd (childAt_lt hc).1 hp⟩

theorem checkReachable_eq_ok (hn : (records.map (·.uid)).Nodup) (hr : root < records.length) :
    checkReachable nodes root = .ok () ↔ ∀ place < records.length, ReflTransGen (ChildAt records) root place := by
  have hsteps := h.steps_eq hn
  unfold checkReachable
  generalize (fun place => (.ok (nodes.getD place default).children : Except Empty (List Nat))) = next at hsteps ⊢
  have hbound : ∀ place places, next place = .ok places → ∀ p ∈ places, p < nodes.size := by
    intro place places hplaces p hm
    have hstep : Reach.Steps next place p := ⟨places, hplaces, hm⟩
    rw [hsteps] at hstep
    exact h.size ▸ (childAt_lt hstep).2
  have hfailure : (search next nodes.size root).failure = none :=
    Option.eq_none_iff_forall_ne_some.mpr fun failure _ => failure.elim
  have hall := Reach.search_all hbound (h.size ▸ hr) hfailure
  rw [hsteps, h.size] at hall
  rw [← hall, ← h.size]
  simp only [ite_eq_left_iff, reduceCtorEq, imp_false, not_not]

theorem root_eq_ok (hn : (records.map (·.uid)).Nodup) (hl : (listed records).Nodup) :
    (findRoot nodes = .ok root ∧ checkReachable nodes root = .ok ()) ↔ TreeAt records root := by
  have hcount : ∀ {place record}, records[place]? = some record →
      ((listed records).count record.uid = 0 ↔ parentAt records place = none) := by
    intro place record hr
    rw [parentAt_eq_none_iff hr, List.count_eq_zero]
  constructor
  · rintro ⟨hroot, hreach⟩
    obtain ⟨hlt, honly⟩ := h.findRoot_eq_ok.mp hroot
    have hr := List.getElem?_eq_getElem hlt
    refine ⟨⟨_, hr, (hcount hr).mpr ((honly root hlt).mpr rfl)⟩, ?_, (h.checkReachable_eq_ok hn hlt).mp hreach⟩
    intro place record hrecord hne
    have hsome : (listed records).count record.uid ≠ 0 := by
      rw [Ne, hcount hrecord, honly place (List.getElem?_eq_some_iff.mp hrecord).1]
      exact hne
    have hle := List.nodup_iff_count_le_one.mp hl record.uid
    omega
  · intro tree
    have hroot := tree.rooted hl
    refine ⟨?_, (h.checkReachable_eq_ok hn hroot.root_lt).mpr tree.reached⟩
    rw [h.findRoot_eq_ok]
    refine ⟨hroot.root_lt, ?_⟩
    intro place hp
    constructor
    · exact hroot.eq_root hp
    · rintro rfl
      exact hroot.root_top

end LinkedTo

end RegionPlanner
