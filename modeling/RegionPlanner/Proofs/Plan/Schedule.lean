import RegionPlanner.Plan.Schedule
import RegionPlanner.Proofs.Forest.Tree

/-!
# The queue of a forest

In a forest that is one tree the queue takes every place once, and every place after its children.
-/

namespace RegionPlanner

namespace Schedule

variable {forest : Forest} {state : State} {turns place : Nat} {node : Node} {done : List Nat}

/-- The children of a node that had no turn yet. -/
def waiting (done : List Nat) (node : Node) : List Nat := node.children.filter fun child => !done.contains child

theorem mem_waiting {child : Nat} : child ∈ waiting done node ↔ child ∈ node.children ∧ child ∉ done := by
  simp [waiting]

theorem waiting_snoc (last : Nat) : waiting (done ++ [last]) node = (waiting done node).filter (· != last) := by
  unfold waiting
  rw [List.filter_filter]
  apply List.filter_congr
  intro child _
  rw [Bool.eq_iff_iff]
  simp [and_comm]

theorem waiting_snoc_of_not_mem {last : Nat} (h : last ∉ node.children) :
    waiting (done ++ [last]) node = waiting done node := by
  rw [waiting_snoc, List.filter_eq_self]
  intro child hc
  rw [bne_iff_ne]
  rintro rfl
  exact h (mem_waiting.mp hc).1

theorem length_waiting_snoc {last : Nat} (hn : node.children.Nodup) (h : last ∈ waiting done node) :
    (waiting (done ++ [last]) node).length = (waiting done node).length - 1 := by
  have hw : (waiting done node).Nodup := hn.filter _
  rw [waiting_snoc, ← hw.erase_eq_filter, List.length_erase_of_mem h]

/-- What holds once so many places had their turn. -/
structure Reached (forest : Forest) (turns : Nat) (state : State) : Prop where
  nodup : state.order.toList.Nodup
  bounded : ∀ place ∈ state.order.toList, place < forest.size
  size : state.pending.size = forest.size
  pending : ∀ (place : Nat) (node : Node), forest.nodes[place]? = some node →
    state.pending[place]? = some (waiting (state.order.toList.take turns) node).length
  ready : ∀ (place : Nat) (node : Node), forest.nodes[place]? = some node →
    (place ∈ state.order.toList ↔ waiting (state.order.toList.take turns) node = [])
  before : ∀ (position place child : Nat), state.order.toList[position]? = some place →
    forest.parentOf child = some place → child ∈ state.order.toList.take position

/-! ### The first turn -/

theorem ids (h : forest.Linked) : forest.nodes.toList.map (·.id) = List.range forest.size := by
  apply List.ext_getElem?
  intro place
  rw [List.getElem?_map, Array.getElem?_toList]
  cases hnode : forest.nodes[place]? with
  | none =>
    rw [Option.map_none, List.getElem?_eq_none]
    rw [List.length_range]
    exact Array.getElem?_eq_none_iff.mp hnode
  | some node =>
    have hlt : place < forest.size := (Array.getElem?_eq_some_iff.mp hnode).1
    rw [Option.map_some, h.id place node hnode, List.getElem?_range hlt]

theorem mem_start (h : forest.Linked) (hnode : forest.nodes[place]? = some node) :
    place ∈ (start forest.nodes).order.toList ↔ node.children = [] := by
  unfold start
  rw [List.toList_toArray, List.mem_map]
  constructor
  · rintro ⟨leaf, hleaf, rfl⟩
    obtain ⟨hmem, hempty⟩ := List.mem_filter.mp hleaf
    obtain ⟨position, hposition⟩ := List.mem_iff_getElem?.mp hmem
    rw [Array.getElem?_toList] at hposition
    rw [h.id position leaf hposition, hposition] at hnode
    cases hnode
    exact List.isEmpty_iff.mp hempty
  · intro hempty
    refine ⟨node, List.mem_filter.mpr ⟨?_, List.isEmpty_iff.mpr hempty⟩, h.id place node hnode⟩
    exact Array.mem_toList_iff.mpr (Array.mem_of_getElem? hnode)

theorem reached_start (h : forest.Linked) : Reached forest 0 (start forest.nodes) := by
  have hsub : (start forest.nodes).order.toList.Sublist (List.range forest.size) := by
    rw [← ids h]
    exact List.filter_sublist.map _
  have hfirst : ∀ node : Node, waiting [] node = node.children := by
    intro node
    rw [waiting, List.filter_eq_self]
    intro child _
    rfl
  refine ⟨List.nodup_range.sublist hsub, ?_, ?_, ?_, ?_, ?_⟩
  · intro place hp
    exact List.mem_range.mp (hsub.subset hp)
  · exact Array.size_map ..
  · intro place node hnode
    rw [List.take_zero, hfirst]
    simp only [start, Array.getElem?_map, hnode, Option.map_some]
  · intro place node hnode
    rw [List.take_zero, hfirst]
    exact mem_start h hnode
  · intro position place child hp hc
    obtain ⟨node, hnode⟩ := Forest.Linked.getElem? (h.tree.bounded hc).1
    have hempty := (mem_start h hnode).mp (List.mem_of_getElem? hp)
    have hmem := (h.children place node hnode child).mpr hc
    rw [hempty] at hmem
    cases hmem

/-! ### One turn -/

theorem take_snoc {last : Nat} (hlast : state.order.toList[turns]? = some last) :
    state.order.toList.take (turns + 1) = state.order.toList.take turns ++ [last] := by
  rw [List.take_add_one, hlast]
  rfl

theorem Reached.fresh {last : Nat} (hr : Reached forest turns state)
    (hlast : state.order.toList[turns]? = some last) : last ∉ state.order.toList.take turns := by
  have hn : (state.order.toList.take turns ++ [last]).Nodup := by
    rw [← take_snoc hlast]
    exact hr.nodup.sublist (List.take_sublist ..)
  intro hmem
  exact (List.nodup_append.mp hn).2.2 last hmem last (List.mem_singleton_self last) rfl

/-- A turn that frees no parent. -/
theorem Reached.same (hr : Reached forest turns state)
    (hw : ∀ (place : Nat) (node : Node), forest.nodes[place]? = some node →
      waiting (state.order.toList.take (turns + 1)) node = waiting (state.order.toList.take turns) node) :
    Reached forest (turns + 1) state := by
  refine ⟨hr.nodup, hr.bounded, hr.size, ?_, ?_, hr.before⟩
  · intro place node hnode
    rw [hw place node hnode]
    exact hr.pending place node hnode
  · intro place node hnode
    rw [hw place node hnode]
    exact hr.ready place node hnode

/-! ### The turn of a node with a parent -/

section
variable {last above : Nat} {parent : Node} (h : forest.Linked) (hr : Reached forest turns state)
  (hlast : state.order.toList[turns]? = some last) (hof : forest.parentOf last = some above)
  (habove : forest.nodes[above]? = some parent)
include h hr hlast hof habove

theorem Reached.waits : last ∈ waiting (state.order.toList.take turns) parent :=
  mem_waiting.mpr ⟨(h.children above parent habove last).mpr hof, hr.fresh hlast⟩

theorem Reached.late : above ∉ state.order.toList := by
  intro hmem
  have hwaits := hr.waits h hlast hof habove
  rw [(hr.ready above parent habove).mp hmem] at hwaits
  cases hwaits

omit hr habove in
theorem waiting_other (hne : place ≠ above) (hnode : forest.nodes[place]? = some node) :
    waiting (state.order.toList.take (turns + 1)) node = waiting (state.order.toList.take turns) node := by
  rw [take_snoc hlast]
  apply waiting_snoc_of_not_mem
  intro hmem
  have hof' := (h.children place node hnode last).mp hmem
  rw [hof] at hof'
  cases hof'
  exact hne rfl

omit hr hlast hof in
theorem done_of_not_waiting (hempty : waiting (state.order.toList.take (turns + 1)) parent = []) {child : Nat}
    (hc : forest.parentOf child = some above) : child ∈ state.order.toList := by
  by_contra hmem
  have hwaits : child ∈ waiting (state.order.toList.take (turns + 1)) parent := by
    refine mem_waiting.mpr ⟨(h.children above parent habove child).mpr hc, ?_⟩
    intro htaken
    exact hmem (List.mem_of_mem_take htaken)
  rw [hempty] at hwaits
  cases hwaits

/-- The parent waits for one child less, and comes last in the order when it waits for none. -/
theorem Reached.freed {order : Array Nat} {added : List Nat} (horder : order.toList = state.order.toList ++ added)
    (hn : added.Nodup)
    (hadded : ∀ place, place ∈ added ↔ place = above ∧ waiting (state.order.toList.take (turns + 1)) parent = []) :
    Reached forest (turns + 1)
      ⟨order, state.pending.setIfInBounds above (waiting (state.order.toList.take (turns + 1)) parent).length⟩ := by
  have hlt : above < forest.size := (h.tree.bounded hof).1
  have hlate := hr.late h hlast hof habove
  have htake : order.toList.take (turns + 1) = state.order.toList.take (turns + 1) := by
    have hroom : turns + 1 ≤ state.order.toList.length := (List.getElem?_eq_some_iff.mp hlast).1
    rw [horder, List.take_append_of_le_length hroom]
  constructor
  case nodup =>
    rw [horder]
    refine List.nodup_append.mpr ⟨hr.nodup, hn, ?_⟩
    rintro place hp other ho rfl
    rw [((hadded place).mp ho).1] at hp
    exact hlate hp
  case bounded =>
    intro place hp
    rw [horder, List.mem_append] at hp
    rcases hp with hp | hp
    · exact hr.bounded place hp
    · rw [((hadded place).mp hp).1]
      exact hlt
  case size =>
    rw [Array.size_setIfInBounds]
    exact hr.size
  case pending =>
    intro place node hnode
    rw [htake]
    by_cases heq : above = place
    · cases heq
      rw [habove] at hnode
      cases hnode
      exact Array.getElem?_setIfInBounds_self_of_lt (hr.size ▸ hlt)
    · rw [Array.getElem?_setIfInBounds_ne heq, waiting_other h hlast hof (Ne.symm heq) hnode]
      exact hr.pending place node hnode
  case ready =>
    intro place node hnode
    rw [htake, horder, List.mem_append, hadded]
    by_cases heq : place = above
    · cases heq
      rw [habove] at hnode
      cases hnode
      rw [or_iff_right hlate]
      exact and_iff_right rfl
    · rw [waiting_other h hlast hof heq hnode, ← hr.ready place node hnode]
      exact or_iff_left fun hp => heq hp.1
  case before =>
    -- Earlier places have not moved, and the parent is put last only when all its children are in the order.
    intro position place child hp hc
    rw [horder] at hp
    rw [horder, List.take_append, List.mem_append]
    left
    by_cases hposition : position < state.order.toList.length
    · rw [List.getElem?_append_left hposition] at hp
      exact hr.before position place child hp hc
    · rw [List.getElem?_append_right (Nat.le_of_not_lt hposition)] at hp
      obtain ⟨rfl, hempty⟩ := (hadded place).mp (List.mem_of_getElem? hp)
      rw [List.take_of_length_le (Nat.le_of_not_lt hposition)]
      exact done_of_not_waiting h habove hempty hc

theorem Reached.turn_parent (hnode : forest.nodes[last]? = some node) (hparent : node.parent = some above) :
    Reached forest (turns + 1) (turn forest.nodes state turns) := by
  have hcount := hr.pending above parent habove
  have hturn : turn forest.nodes state turns =
      let left := (waiting (state.order.toList.take turns) parent).length - 1
      ⟨if left = 0 then state.order.push above else state.order, state.pending.setIfInBounds above left⟩ := by
    rw [Array.getElem?_toList] at hlast
    unfold turn
    rw [hlast, Option.bind_some, hnode]
    simp only [hparent, Array.getD_eq_getD_getElem?, hcount, Option.getD_some]
  have hwaits := hr.waits h hlast hof habove
  rw [hturn, ← length_waiting_snoc (h.nodup above parent habove) hwaits, ← take_snoc hlast]
  dsimp only
  split
  · next hempty =>
    rw [List.length_eq_zero_iff] at hempty
    refine hr.freed h hlast hof habove Array.toList_push (List.nodup_singleton above) ?_
    intro place
    rw [List.mem_singleton, and_iff_left hempty]
  · next hleft =>
    rw [List.length_eq_zero_iff] at hleft
    refine hr.freed h hlast hof habove (List.append_nil _).symm List.nodup_nil ?_
    intro place
    rw [iff_false_right (fun hp => hleft hp.2)]
    exact List.not_mem_nil

end

/-! ### All turns -/

theorem reached_turn (h : forest.Linked) (hr : Reached forest turns state) :
    Reached forest (turns + 1) (turn forest.nodes state turns) := by
  cases hlast : state.order.toList[turns]? with
  | none =>
    have hsame : turn forest.nodes state turns = state := by
      rw [Array.getElem?_toList] at hlast
      unfold turn
      rw [hlast]
      rfl
    rw [hsame]
    apply hr.same
    intro place node hnode
    rw [List.take_add_one, hlast]
    simp
  | some last =>
    obtain ⟨node, hnode⟩ := Forest.Linked.getElem? (hr.bounded last (List.mem_of_getElem? hlast))
    have hof : forest.parentOf last = node.parent := by
      unfold Forest.parentOf
      rw [hnode, Option.bind_some]
    cases hparent : node.parent with
    | none =>
      have hsame : turn forest.nodes state turns = state := by
        rw [Array.getElem?_toList] at hlast
        unfold turn
        rw [hlast, Option.bind_some, hnode]
        simp only [hparent]
      rw [hsame]
      apply hr.same
      intro place other hother
      rw [take_snoc hlast]
      apply waiting_snoc_of_not_mem
      intro hmem
      rw [(h.children place other hother last).mp hmem, hparent] at hof
      cases hof
    | some above =>
      rw [hparent] at hof
      obtain ⟨parent, habove⟩ := Forest.Linked.getElem? (h.tree.bounded hof).1
      exact hr.turn_parent h hlast hof habove hnode hparent

/-- A turn adds to the end of the order only. -/
theorem turn_prefix (nodes : Array Node) (state : State) (position : Nat) :
    state.order.toList <+: (turn nodes state position).order.toList := by
  unfold turn
  split
  · exact List.prefix_rfl
  · split
    · exact List.prefix_rfl
    · dsimp only
      split
      · rw [Array.toList_push]
        exact List.prefix_append ..
      · exact List.prefix_rfl

/-! ### The end -/

/-- When every place in the order had its turn, every place is in the order. -/
theorem Reached.complete (h : forest.Linked) (hr : Reached forest turns state) (hend : state.order.size ≤ turns) :
    ∀ place < forest.size, place ∈ state.order.toList := by
  refine h.induction ?_
  intro place node hnode ih
  refine (hr.ready place node hnode).mpr ?_
  rw [List.take_of_length_le hend, List.eq_nil_iff_forall_not_mem]
  intro child hc
  obtain ⟨hmem, hleft⟩ := mem_waiting.mp hc
  exact hleft (ih child hmem)

theorem Reached.size_le (hr : Reached forest turns state) : state.order.size ≤ forest.size :=
  length_le_of_nodup hr.nodup hr.bounded

theorem Reached.size_ge (h : forest.Linked) (hr : Reached forest turns state) (hend : state.order.size ≤ turns) :
    forest.size ≤ state.order.size := by
  have hsub : List.range forest.size ⊆ state.order.toList := fun place hp =>
    hr.complete h hend place (List.mem_range.mp hp)
  have hle := (List.subperm_of_subset List.nodup_range hsub).length_le
  rwa [List.length_range, Array.length_toList] at hle

/-- The queue is not empty before every place had its turn. -/
theorem Reached.lt_size (h : forest.Linked) (hr : Reached forest turns state) (hturns : turns < forest.size) :
    turns < state.order.size := by
  by_contra hend
  have hge := hr.size_ge h (Nat.le_of_not_lt hend)
  omega

end Schedule

end RegionPlanner
