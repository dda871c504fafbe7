import Mathlib.Algebra.Order.BigOperators.Group.List
import Mathlib.Algebra.Order.Ring.Nat
import RegionPlanner.Proofs.Forest.Family

/-!
# Work that belongs to no child

Every node but the root is listed once as a child, so what the children have of any amount is what all nodes have without
the root. The exclusive work of all nodes then makes up the work of the root, and more where the children of a node claim
more than the node has: nothing else can make up for that. Work is summed without an upper end.
-/

namespace RegionPlanner

/-! ### Differences that are cut off at zero -/

section
variable {α : Type} (whole part : α → Nat) (xs : List α)

/-- What is left of each and what was taken away make up the wholes, if nothing was cut off, and more if anything was. -/
theorem sum_le_sum_rest :
    (xs.map whole).sum ≤ (xs.map fun x => whole x - part x).sum + (xs.map part).sum ∧
    ((xs.map fun x => whole x - part x).sum + (xs.map part).sum = (xs.map whole).sum ↔ ∀ x ∈ xs, part x ≤ whole x) := by
  have hle : ∀ x ∈ xs, whole x ≤ whole x - part x + part x := fun _ _ => le_tsub_add
  rw [← List.sum_map_add]
  refine ⟨List.sum_le_sum hle, fun hsum x hx => ?_, fun hfit => ?_⟩
  · by_contra hmore
    have hlt := List.sum_lt_sum whole (fun x => whole x - part x + part x) hle ⟨x, hx, by omega⟩
    omega
  · congr 1
    exact List.map_congr_left fun x hx => Nat.sub_add_cancel (hfit x hx)

end

variable {table : RegionTable} {records : List Record} {forest : Forest} {node : Node}

/-! ### All children -/

namespace Forest.Linked

variable (h : forest.Linked)
include h

/-- No node is a child twice, be it of one node or of two. -/
theorem allChildren_nodup : (forest.nodes.toList.flatMap forest.children).Nodup := by
  rw [List.nodup_flatMap]
  refine ⟨fun node hm => h.children_nodup (Array.mem_toList_iff.mp hm), ?_⟩
  refine (nodes_nodup h.id).imp_of_mem fun {node other} hm hm' hne child hc hc' => hne ?_
  obtain ⟨-, hparent⟩ := (h.mem_children (Array.mem_toList_iff.mp hm)).mp hc
  obtain ⟨-, hparent'⟩ := (h.mem_children (Array.mem_toList_iff.mp hm')).mp hc'
  rw [hparent, Option.some.injEq] at hparent'
  exact h.eq_of_id (Array.mem_toList_iff.mp hm) (Array.mem_toList_iff.mp hm') hparent'

theorem mem_allChildren {child : Node} :
    child ∈ forest.nodes.toList.flatMap forest.children ↔ child ∈ forest.nodes ∧ child ≠ forest.rootNode := by
  rw [List.mem_flatMap]
  constructor
  · rintro ⟨node, hm, hc⟩
    obtain ⟨hchild, hparent⟩ := (h.mem_children (Array.mem_toList_iff.mp hm)).mp hc
    refine ⟨hchild, fun hroot => ?_⟩
    rw [h.parentOf_eq hchild, (h.mem_rootNode_iff hchild).mpr hroot] at hparent
    cases hparent
  · rintro ⟨hchild, hroot⟩
    cases hparent : child.parent with
    | none => exact absurd ((h.mem_rootNode_iff hchild).mp hparent) hroot
    | some place =>
      rw [← h.parentOf_eq hchild] at hparent
      obtain ⟨node, hnode⟩ := getElem? (h.tree.bounded hparent).1
      have hm := Array.mem_of_getElem? hnode
      rw [← h.id place node hnode] at hparent
      exact ⟨node, Array.mem_toList_iff.mpr hm, (h.mem_children hm).mpr ⟨hchild, hparent⟩⟩

/-- The nodes are the root and the children of all nodes. -/
theorem root_children_perm :
    (forest.rootNode :: forest.nodes.toList.flatMap forest.children).Perm forest.nodes.toList := by
  have hroot : forest.rootNode ∉ forest.nodes.toList.flatMap forest.children := by
    rw [h.mem_allChildren]
    exact fun hm => hm.2 rfl
  refine (List.perm_ext_iff_of_nodup (List.nodup_cons.mpr ⟨hroot, h.allChildren_nodup⟩) (nodes_nodup h.id)).mpr ?_
  intro node
  rw [List.mem_cons, h.mem_allChildren, Array.mem_toList_iff]
  constructor
  · rintro (rfl | ⟨hm, -⟩)
    · exact h.rootNode_mem
    · exact hm
  · intro hm
    by_cases hroot : node = forest.rootNode
    · exact .inl hroot
    · exact .inr ⟨hm, hroot⟩

theorem sum_children (amount : Node → Nat) :
    amount forest.rootNode + (forest.nodes.toList.map fun node => ((forest.children node).map amount).sum).sum =
      (forest.nodes.toList.map amount).sum := by
  rw [← (h.root_children_perm.map amount).sum_nat, List.map_cons, List.sum_cons, List.map_flatMap, List.flatMap_def,
    List.sum_flatten, List.map_map]
  rfl

end Forest.Linked

/-! ### Exclusive work -/

theorem exclusiveWork_eq (forest : Forest) (node : Node) :
    forest.exclusiveWork node = node.work.toNat - ((forest.children node).map (·.work.toNat)).sum := by
  unfold Forest.exclusiveWork
  rw [List.sum_eq_foldl, List.foldl_map]

/-- The exclusive work of all nodes is no less than the work of the program, and just as much if and only if no node has
children with more work than its own. -/
theorem exclusiveWork_total (hb : Forest.build table records = .ok forest) :
    forest.rootNode.work.toNat ≤ (forest.nodes.toList.map forest.exclusiveWork).sum ∧
    ((forest.nodes.toList.map forest.exclusiveWork).sum = forest.rootNode.work.toNat ↔
      ∀ node ∈ forest.nodes, ((forest.children node).map (·.work.toNat)).sum ≤ node.work.toNat) := by
  have hchildren := (build_linked hb).sum_children (·.work.toNat)
  obtain ⟨hle, heq⟩ := sum_le_sum_rest (·.work.toNat) (fun node => ((forest.children node).map (·.work.toNat)).sum)
    forest.nodes.toList
  have hexclusive : forest.exclusiveWork =
      fun node => node.work.toNat - ((forest.children node).map (·.work.toNat)).sum := funext (exclusiveWork_eq forest)
  simp only [Array.mem_toList_iff] at heq
  rw [hexclusive, ← heq]
  omega

/-- The first child of the root has children with ten units of work more than its own. The ten units that the root keeps
for itself do not make up for them. -/
theorem exclusiveWork_total_exceeded :
    let records : List Record :=
      [⟨1, 0, 0, .normal, 0, 1, false, [2, 3], [.ofWork 1 100 100]⟩,
        ⟨2, 0, 0, .normal, 0, 1, false, [4, 5], [.ofWork 1 60 60]⟩,
        ⟨3, 0, 0, .normal, 0, 1, false, [], [.ofWork 1 30 30]⟩,
        ⟨4, 0, 0, .normal, 0, 1, false, [], [.ofWork 1 50 50]⟩,
        ⟨5, 0, 0, .normal, 0, 1, false, [], [.ofWork 1 20 20]⟩]
    ∃ forest, Forest.build .initial records = .ok forest ∧ forest.rootNode.work = 100 ∧
      forest.nodes.toList.map forest.exclusiveWork = [10, 0, 30, 50, 20] ∧
      ¬ ∀ node ∈ forest.nodes, ((forest.children node).map (·.work.toNat)).sum ≤ node.work.toNat := by
  intro records
  have hrun : (Forest.build .initial records).toOption.map (fun forest =>
      (forest.rootNode.work, forest.nodes.toList.map forest.exclusiveWork)) = some (100, [10, 0, 30, 50, 20]) := by
    decide +kernel
  obtain ⟨forest, hb, hread⟩ := toOption_map_eq_some.mp hrun
  obtain ⟨hroot, hexclusive⟩ := Prod.mk.inj hread
  refine ⟨forest, hb, hroot, hexclusive, ?_⟩
  rw [← (exclusiveWork_total hb).2, hroot, hexclusive]
  decide

end RegionPlanner
