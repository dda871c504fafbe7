import RegionPlanner.Plan.Choice
import RegionPlanner.Proofs.Plan.Schedule

/-!
# The choices of a plan

The best choice in a subtree is defined by recursion over the tree. The loop over the queue finds it: the node that
is taken from the queue gets the best choice of its subtree, because its children have theirs, and no other node has
taken over what they have chosen.
-/

namespace RegionPlanner

/-- The best choice in a subtree: the time it saves and the chosen nodes. -/
structure Choice (α : Type) where
  point : α
  chosen : List Nat
deriving Repr

variable {α : Type} [Quantity α] {forest : Forest} {place other : Nat} {node : Node}

/-- The node itself if it saves more than the choices of its children, else those choices together. -/
def choose (self : α) (node : Nat) (below : List (Choice α)) : Choice α :=
  let sum := Quantity.total (below.map (·.point))
  if Quantity.less sum self then ⟨self, [node]⟩ else ⟨sum, below.flatMap (·.chosen)⟩

def Choice.empty : Choice α := ⟨Quantity.count 0, []⟩

/-- The best choice in the subtree at a place, when each node saves `own` of it by itself. -/
def Forest.best (forest : Forest) (own : Node → α) (place : Nat) : Choice α :=
  forest.fold (fun node below => choose (own node) node.id below) .empty place

theorem best_eq (h : forest.Linked) (own : Node → α) (hnode : forest.nodes[place]? = some node) :
    forest.best own place = choose (own node) place (node.children.map (forest.best own)) := by
  unfold Forest.best
  rw [h.fold_eq hnode, h.id place node hnode]

namespace Evaluation

/-! ### Taking over what was chosen -/

section
variable {places : List Nat}

theorem getD_set_self {β : Type} {values : Array β} {value default : β} (h : place < values.size) :
    (values.setIfInBounds place value).getD place default = value := by
  rw [Array.getD_eq_getD_getElem?, Array.getElem?_setIfInBounds_self_of_lt h]
  rfl

theorem getD_set_other {β : Type} {values : Array β} {value default : β} (h : place ≠ other) :
    (values.setIfInBounds place value).getD other default = values.getD other default := by
  simp only [Array.getD_eq_getD_getElem?, Array.getElem?_setIfInBounds_ne h]

theorem drain_spec (chosen : Array (List Nat)) (hn : places.Nodup) :
    (drain chosen places).1 = places.flatMap (chosen.getD · []) ∧
    (drain chosen places).2.size = chosen.size ∧
    ∀ other ∉ places, (drain chosen places).2.getD other [] = chosen.getD other [] := by
  have from_start : ∀ (union : List Nat) (chosen : Array (List Nat)),
      let out := places.foldl (fun taken place =>
        (taken.1 ++ taken.2.getD place [], taken.2.setIfInBounds place [])) (union, chosen)
      out.1 = union ++ places.flatMap (chosen.getD · []) ∧ out.2.size = chosen.size ∧
        ∀ other ∉ places, out.2.getD other [] = chosen.getD other [] := by
    induction places with
    | nil => simp
    | cons place places ih =>
      intro union chosen
      rw [List.nodup_cons] at hn
      obtain ⟨hunion, hsize, hothers⟩ := ih hn.2 (union ++ chosen.getD place []) (chosen.setIfInBounds place [])
      -- The places that follow are others, so they still have what they have chosen.
      have hrest : places.flatMap ((chosen.setIfInBounds place []).getD · []) =
          places.flatMap (chosen.getD · []) := by
        apply List.flatMap_congr
        intro other ho
        exact getD_set_other fun heq => hn.1 (heq ▸ ho)
      rw [List.foldl_cons]
      refine ⟨?_, ?_, ?_⟩
      · rw [hunion, hrest, List.flatMap_cons, List.append_assoc]
      · rw [hsize, Array.size_setIfInBounds]
      · intro other ho
        rw [List.mem_cons, not_or] at ho
        rw [hothers other ho.2, getD_set_other (Ne.symm ho.1)]
  exact from_start [] chosen

end

/-! ### Evaluating one node -/

section
variable {state : Evaluation α}

/-- What the table holds at a place. -/
def choiceAt (state : Evaluation α) (place : Nat) : Choice α :=
  ⟨state.points.getD place (Quantity.count 0), state.chosen.getD place []⟩

/-- Evaluation chooses from what the tables hold at the children, and changes what is chosen at the node and its
children only. -/
theorem assess_spec (own : α) (hn : node.children.Nodup) (hp : place < state.points.size)
    (hc : place < state.chosen.size) :
    (state.assess own place node).choiceAt place = choose own place (node.children.map state.choiceAt) ∧
    (state.assess own place node).points.size = state.points.size ∧
    (state.assess own place node).chosen.size = state.chosen.size ∧
    ∀ other ≠ place, (state.assess own place node).points.getD other (Quantity.count 0) =
        state.points.getD other (Quantity.count 0) ∧
      (other ∉ node.children → (state.assess own place node).chosen.getD other [] = state.chosen.getD other []) := by
  obtain ⟨hunion, hsize, hothers⟩ := drain_spec state.chosen hn
  have hsum : (node.children.map state.choiceAt).map (·.point) =
      node.children.map fun child => state.points.getD child (Quantity.count 0) := by
    rw [List.map_map]
    rfl
  unfold choose
  rw [hsum]
  unfold assess
  dsimp only
  split
  · refine ⟨?_, Array.size_setIfInBounds, Array.size_setIfInBounds, ?_⟩
    · unfold choiceAt
      rw [getD_set_self hp, getD_set_self hc]
    · intro other ho
      exact ⟨getD_set_other (Ne.symm ho), fun _ => getD_set_other (Ne.symm ho)⟩
  · refine ⟨?_, Array.size_setIfInBounds, Array.size_setIfInBounds.trans hsize, ?_⟩
    · unfold choiceAt
      rw [getD_set_self hp, getD_set_self (hsize.symm ▸ hc), hunion, List.flatMap_map]
    · intro other ho
      refine ⟨getD_set_other (Ne.symm ho), fun hother => ?_⟩
      rw [getD_set_other (Ne.symm ho), hothers other hother]

end

/-! ### The invariant of the loop -/

/-- The places that were taken from the queue. -/
def taken (state : Evaluation α) : List Nat := state.ready.order.toList.take state.evaluated

/-- What holds before each pass. A place that was taken keeps what it has chosen until its parent is taken. -/
structure Sound (forest : Forest) (own : Node → α) (state : Evaluation α) : Prop where
  reached : Schedule.Reached forest state.evaluated state.ready
  points_size : state.points.size = forest.size
  chosen_size : state.chosen.size = forest.size
  point : ∀ place ∈ state.taken, state.points.getD place (Quantity.count 0) = (forest.best own place).point
  chosen : ∀ place ∈ state.taken, (∀ above ∈ state.taken, forest.parentOf place ≠ some above) →
    state.chosen.getD place [] = (forest.best own place).chosen

section
variable {own : Node → α} {state after : Evaluation α}

theorem next_eq_some {nodes : Array Node} : state.next? nodes own = some after ↔
    ∃ place node, state.ready.order[state.evaluated]? = some place ∧ nodes[place]? = some node ∧
      { state.assess (own node) place node with
        ready := Schedule.turn nodes state.ready state.evaluated
        evaluated := state.evaluated + 1 } = after := by
  unfold next?
  simp only [Option.bind_eq_bind, Option.bind_eq_some_iff, Option.pure_def, Option.some.injEq]
  constructor
  · rintro ⟨place, hplace, node, hnode, hafter⟩
    exact ⟨place, node, hplace, hnode, hafter⟩
  · rintro ⟨place, node, hplace, hnode, hafter⟩
    exact ⟨place, hplace, node, hnode, hafter⟩

theorem sound_start (h : forest.Linked) : Sound forest own (start forest.nodes) := by
  refine ⟨Schedule.reached_start h, Array.size_replicate, Array.size_replicate, ?_, ?_⟩
  · intro place hm
    cases hm
  · intro place hm
    cases hm

theorem Sound.choiceAt_child (hs : Sound forest own state)
    (hplace : state.ready.order.toList[state.evaluated]? = some place) {child : Nat}
    (hc : forest.parentOf child = some place) : state.choiceAt child = forest.best own child := by
  have htaken : child ∈ state.taken := hs.reached.before state.evaluated place child hplace hc
  have hfresh := hs.reached.fresh hplace
  have hkept : ∀ above ∈ state.taken, forest.parentOf child ≠ some above := by
    rintro above ha hother
    rw [hc] at hother
    cases hother
    exact hfresh ha
  unfold choiceAt
  rw [hs.point child htaken, hs.chosen child htaken hkept]

section
variable (h : forest.Linked) (hs : Sound forest own state)
include h hs

theorem Sound.next (hnext : state.next? forest.nodes own = some after) : Sound forest own after := by
  obtain ⟨place, node, hplace, hnode, rfl⟩ := next_eq_some.mp hnext
  rw [← Array.getElem?_toList] at hplace
  have hlt : place < forest.size := (Array.getElem?_eq_some_iff.mp hnode).1
  obtain ⟨hself, hpoints, hchosen, hothers⟩ := assess_spec (own node) (h.nodup place node hnode)
    (hs.points_size ▸ hlt) (hs.chosen_size ▸ hlt)
  have hbest : (state.assess (own node) place node).choiceAt place = forest.best own place := by
    rw [hself, best_eq h own hnode]
    congr 1
    apply List.map_congr_left
    intro child hc
    exact hs.choiceAt_child hplace ((h.children place node hnode child).mp hc)
  have htaken : (Schedule.turn forest.nodes state.ready state.evaluated).order.toList.take (state.evaluated + 1) =
      state.taken ++ [place] := by
    obtain ⟨rest, hrest⟩ := Schedule.turn_prefix forest.nodes state.ready state.evaluated
    have hroom : state.evaluated + 1 ≤ state.ready.order.toList.length := (List.getElem?_eq_some_iff.mp hplace).1
    rw [← hrest, List.take_append_of_le_length hroom, Schedule.take_snoc hplace]
    rfl
  have hfresh : place ∉ state.taken := hs.reached.fresh hplace
  refine ⟨Schedule.reached_turn h hs.reached, hpoints.trans hs.points_size, hchosen.trans hs.chosen_size, ?_, ?_⟩
  · intro other hm
    change other ∈ List.take _ _ at hm
    rw [htaken, List.mem_append, List.mem_singleton] at hm
    rcases hm with hm | rfl
    · have hother : other ≠ place := fun heq => hfresh (heq ▸ hm)
      exact (hothers other hother).1.trans (hs.point other hm)
    · exact congrArg Choice.point hbest
  · intro other hm hkept
    change other ∈ List.take _ _ at hm
    change ∀ above ∈ List.take _ _, _ at hkept
    rw [htaken] at hm hkept
    rw [List.mem_append, List.mem_singleton] at hm
    rcases hm with hm | rfl
    · have hother : other ≠ place := fun heq => hfresh (heq ▸ hm)
      have hchild : other ∉ node.children := by
        intro hc
        exact hkept place (by simp) ((h.children place node hnode other).mp hc)
      refine ((hothers other hother).2 hchild).trans (hs.chosen other hm ?_)
      intro above ha
      exact hkept above (List.mem_append_left _ ha)
    · exact congrArg Choice.chosen hbest

/-- The queue holds a node as long as one is left. -/
theorem Sound.next_isSome (hlt : state.evaluated < forest.size) :
    ∃ after, state.next? forest.nodes own = some after := by
  have hplace := Array.getElem?_eq_getElem (hs.reached.lt_size h hlt)
  obtain ⟨node, hnode⟩ := Forest.Linked.getElem?
    (hs.reached.bounded _ (Array.mem_toList_iff.mpr (Array.getElem_mem (hs.reached.lt_size h hlt))))
  exact ⟨_, next_eq_some.mpr ⟨_, node, hplace, hnode, rfl⟩⟩

end

/-! ### The whole loop -/

theorem run_next {nodes : Array Node} (hnext : state.next? nodes own = some after) (count : Nat) :
    run nodes own (count + 1) state = run nodes own count after := by
  rw [run, hnext]

theorem run_done {nodes : Array Node} (hnext : state.next? nodes own = none) (count : Nat) :
    run nodes own count state = state := by
  cases count with
  | zero => rfl
  | succ count => rw [run, hnext]

theorem run_add (nodes : Array Node) (first second : Nat) (state : Evaluation α) :
    run nodes own (first + second) state = run nodes own second (run nodes own first state) := by
  induction first generalizing state with
  | zero => rw [Nat.zero_add, run]
  | succ first ih =>
    rw [Nat.add_right_comm]
    cases hnext : state.next? nodes own with
    | none => rw [run_done hnext, run_done hnext, run_done hnext]
    | some after => rw [run_next hnext, run_next hnext, ih]

end

end Evaluation

/-! ### Passes over a forest -/

section
variable {own : Node → α}

theorem passes_succ {count : Nat} {after : Evaluation α}
    (hnext : (forest.passes own count).next? forest.nodes own = some after) :
    forest.passes own (count + 1) = after := by
  unfold Forest.passes at hnext ⊢
  rw [Evaluation.run_add, Evaluation.run_next hnext]
  rfl

theorem passes_sound (h : forest.Linked) : ∀ count ≤ forest.size,
    (forest.passes own count).evaluated = count ∧ (forest.passes own count).Sound forest own := by
  intro count
  induction count with
  | zero => exact fun _ => ⟨rfl, Evaluation.sound_start h⟩
  | succ count ih =>
    intro hle
    obtain ⟨hcount, hsound⟩ := ih (Nat.le_of_succ_le hle)
    obtain ⟨after, hnext⟩ := hsound.next_isSome h (by omega)
    rw [passes_succ hnext]
    refine ⟨?_, hsound.next h hnext⟩
    obtain ⟨place, node, -, -, rfl⟩ := Evaluation.next_eq_some.mp hnext
    exact congrArg (· + 1) hcount

theorem passes_add (first second : Nat) :
    forest.passes own (first + second) = Evaluation.run forest.nodes own second (forest.passes own first) :=
  Evaluation.run_add forest.nodes first second _

section
variable (h : forest.Linked)
include h

theorem evaluate_evaluated : (forest.evaluate own).evaluated = forest.size :=
  (passes_sound h forest.size (Nat.le_refl _)).1

theorem evaluate_sound : (forest.evaluate own).Sound forest own :=
  (passes_sound h forest.size (Nat.le_refl _)).2

theorem evaluate_size : (forest.evaluate own).ready.order.size = forest.size := by
  have hreached : Schedule.Reached forest (forest.evaluate own).evaluated (forest.evaluate own).ready :=
    (evaluate_sound h).reached
  rw [evaluate_evaluated h] at hreached
  exact Nat.le_antisymm hreached.size_le (hreached.size_ge h hreached.size_le)

theorem evaluate_order : (forest.evaluate own).ready.order.toList.Perm (List.range forest.size) := by
  have hreached : Schedule.Reached forest (forest.evaluate own).evaluated (forest.evaluate own).ready :=
    (evaluate_sound h).reached
  exact perm_range_of_nodup hreached.nodup hreached.bounded (Nat.le_of_eq (evaluate_size h).symm)

theorem evaluate_complete (hp : place < forest.size) : place ∈ (forest.evaluate own).ready.order.toList :=
  (evaluate_order h).mem_iff.mpr (List.mem_range.mpr hp)

theorem evaluate_taken : (forest.evaluate own).taken = (forest.evaluate own).ready.order.toList := by
  exact List.take_of_length_le (Nat.le_of_eq ((evaluate_size h).trans (evaluate_evaluated h).symm))

theorem evaluate_next : (forest.evaluate own).next? forest.nodes own = none := by
  rw [Option.eq_none_iff_forall_ne_some]
  intro after hnext
  obtain ⟨place, node, hplace, -, -⟩ := Evaluation.next_eq_some.mp hnext
  have hlt := (Array.getElem?_eq_some_iff.mp hplace).1
  rw [evaluate_evaluated h, evaluate_size h] at hlt
  exact Nat.lt_irrefl _ hlt

theorem passes_stable {count : Nat} (hle : forest.size ≤ count) :
    forest.passes own count = forest.evaluate own := by
  rw [← Nat.add_sub_cancel' hle, passes_add]
  exact Evaluation.run_done (evaluate_next h) _

theorem evaluate_point (hp : place < forest.size) :
    (forest.evaluate own).points.getD place (Quantity.count 0) = (forest.best own place).point := by
  refine (evaluate_sound h).point place ?_
  rw [evaluate_taken h]
  exact evaluate_complete h hp

theorem evaluate_chosen : (forest.evaluate own).chosen.getD forest.root [] = (forest.best own forest.root).chosen := by
  refine (evaluate_sound h).chosen forest.root ?_ ?_
  · rw [evaluate_taken h]
    exact evaluate_complete h h.tree.root_lt
  · intro above _ hparent
    rw [h.tree.root_top] at hparent
    cases hparent

end

end

end RegionPlanner
