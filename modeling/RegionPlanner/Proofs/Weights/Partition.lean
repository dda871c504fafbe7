import Mathlib.Algebra.Order.BigOperators.Group.List
import Mathlib.Data.Rat.Lemmas
import RegionPlanner.Number.Exact
import RegionPlanner.Proofs.Forest.Family
import RegionPlanner.Proofs.Weights.Built

/-!
# Weights partition work

The work that flows into a place from below is the work that flows into the children on its way plus the work of
the sinks right below it. So the weights that an init node gives at a depth split the work of its sinks over its
subtree, read as exact fractions. Work is summed without an upper end.
-/

namespace RegionPlanner

/-! ### Sums over parts -/

section
variable {α β : Type} {work : α → Nat} {xs : List α}

theorem sum_filter_or {p q : α → Prop} [DecidablePred p] [DecidablePred q] (hapart : ∀ x, p x → ¬ q x) :
    ((xs.filter fun x => p x ∨ q x).map work).sum =
      ((xs.filter (p ·)).map work).sum + ((xs.filter (q ·)).map work).sum := by
  induction xs with
  | nil => rfl
  | cons x xs ih =>
    simp only [Bool.decide_or] at ih ⊢
    by_cases hp : p x
    · simp [hp, hapart x hp, ih, Nat.add_assoc]
    · by_cases hq : q x <;> simp [hp, hq, ih, Nat.add_left_comm]

open Classical in
/-- A sum over what belongs to some part is the sum over the parts, if nothing belongs to two of them. -/
theorem sum_filter_exists {parts : List β} {belongs : β → α → Prop} (hnodup : parts.Nodup)
    (hapart : ∀ b ∈ parts, ∀ b' ∈ parts, ∀ x, belongs b x → belongs b' x → b = b') :
    ((xs.filter fun x => ∃ b ∈ parts, belongs b x).map work).sum =
      (parts.map fun b => ((xs.filter (belongs b ·)).map work).sum).sum := by
  induction parts with
  | nil => simp
  | cons b parts ih =>
    rw [List.nodup_cons] at hnodup
    have hfirst : ∀ x, belongs b x → ¬ ∃ b' ∈ parts, belongs b' x := by
      rintro x hb ⟨b', hm, hb'⟩
      rw [hapart b List.mem_cons_self b' (List.mem_cons_of_mem b hm) x hb hb'] at hnodup
      exact hnodup.1 hm
    have hrest := ih hnodup.2 fun b₁ h₁ b₂ h₂ => hapart b₁ (List.mem_cons_of_mem b h₁) b₂ (List.mem_cons_of_mem b h₂)
    simp only [List.mem_cons, exists_eq_or_imp]
    rw [sum_filter_or hfirst, hrest, List.map_cons, List.sum_cons]

end

variable {parent : Nat → Option Nat} {nodes : Array Node} {root place depth init : Nat} {forest : Forest}
  {node : Node} {weights : Weights}

/-! ### Carriers -/

/-- A place is on the way of a sink, whatever its depths, up to an init node. -/
def OnWay (parent : Nat → Option Nat) (nodes : Array Node) (init place : Nat) : Prop :=
  ∃ sink ∈ nodes, sink.kind = .sink ∧ sink.target = some init ∧ Ancestor parent place sink.id ∧
    Within parent init place

/-- The sinks among some nodes that lead back to an init node and have counters at a depth. -/
def sinksAmong (nodes : List Node) (init depth : Nat) : List Node :=
  nodes.filter fun sink => sink.kind = .sink ∧ sink.target = some init ∧ depth < sink.depths

open Classical in
/-- The children of a node that are on the way of a sink with counters at a depth up to an init node. -/
noncomputable def Forest.carriers (forest : Forest) (init depth : Nat) (node : Node) : List Node :=
  (forest.children node).filter (Carries forest.parentOf forest.nodes init depth ·.id)

/-- The shares that an init node gives if it is the only one. -/
def sharesFrom (nodes : Array Node) (init : Node) : Except Fault Weights := do
  addInit nodes (← sinksOf nodes) Std.TreeMap.empty init

/-- The exact weight of a place at a depth; zero if it has none. -/
def Weights.exactAt (weights : Weights) (place depth : Nat) : Rat :=
  (weights[(place, depth)]?.map Share.value).getD 0

theorem Carries.onWay (h : Carries parent nodes init depth place) : OnWay parent nodes init place := by
  obtain ⟨sink, hm, ha, hw⟩ := h
  obtain ⟨hs, hk, ht, -⟩ := mem_sinksInto.mp hm
  exact ⟨sink, hs, hk, ht, ha, hw⟩

theorem carries_iff_within : Carries parent nodes init depth place ↔
    Within parent init place ∧ ∃ sink ∈ sinksInto nodes init depth, Ancestor parent place sink.id := by
  constructor
  · rintro ⟨sink, hm, ha, hw⟩
    exact ⟨hw, sink, hm, ha⟩
  · rintro ⟨hw, sink, hm, ha⟩
    exact ⟨sink, hm, ha, hw⟩

/-- An init node is on the ways of its sinks if they have work. -/
theorem carries_init (hall : AllBelow parent nodes init) (hwork : 0 < workInto nodes init depth) :
    Carries parent nodes init depth init := by
  obtain ⟨sink, hm⟩ : ∃ sink, sink ∈ sinksInto nodes init depth := by
    refine List.exists_mem_of_ne_nil _ fun hnil => ?_
    unfold workInto at hwork
    rw [hnil] at hwork
    exact Nat.lt_irrefl 0 hwork
  obtain ⟨hs, hk, ht, -⟩ := mem_sinksInto.mp hm
  exact ⟨sink, hm, hall sink hs hk ht, .refl⟩

theorem workThrough_le_workInto : workThrough parent nodes init depth place ≤ workInto nodes init depth := by
  unfold workThrough workInto
  exact (List.filter_sublist.map _).sum_le_sum (fun _ _ => Nat.zero_le _)

/-- No more work flows into a place than into one above it. -/
theorem workThrough_anti {above : Nat} (ha : Ancestor parent above place) :
    workThrough parent nodes init depth place ≤ workThrough parent nodes init depth above := by
  classical
  unfold workThrough
  refine ((List.monotone_filter_right _ fun sink hplace => ?_).map _).sum_le_sum fun _ _ => Nat.zero_le _
  rw [decide_eq_true_eq] at hplace ⊢
  exact ha.trans hplace

/-! ### Carriers among children -/

namespace Forest.Linked

variable (h : forest.Linked) (hm : node ∈ forest.nodes)
include h hm

theorem mem_carriers {child : Node} : child ∈ forest.carriers init depth node ↔
    (child ∈ forest.nodes ∧ forest.parentOf child.id = some node.id) ∧
      Carries forest.parentOf forest.nodes init depth child.id := by
  classical
  unfold Forest.carriers
  rw [List.mem_filter, h.mem_children hm, decide_eq_true_eq]

/-- Two carriers that are both above a sink are one. -/
theorem carriers_apart {child child' sink : Node} (hc : child ∈ forest.carriers init depth node)
    (hc' : child' ∈ forest.carriers init depth node) (ha : Ancestor forest.parentOf child.id sink.id)
    (ha' : Ancestor forest.parentOf child'.id sink.id) : child = child' := by
  obtain ⟨⟨hchild, hparent⟩, -⟩ := (h.mem_carriers hm).mp hc
  obtain ⟨⟨hchild', hparent'⟩, -⟩ := (h.mem_carriers hm).mp hc'
  have hid := h.tree.siblings hparent hparent' ha.to_reflTransGen ha'.to_reflTransGen
  exact h.eq_of_id hchild hchild' hid

/-- No sink is below a sibling. -/
theorem carriers_not_child {child sink : Node} (hc : child ∈ forest.carriers init depth node)
    (ha : Ancestor forest.parentOf child.id sink.id) : sink ∉ forest.children node := by
  intro hs
  obtain ⟨⟨-, hparent⟩, -⟩ := (h.mem_carriers hm).mp hc
  have hsame := h.tree.siblings hparent ((h.mem_children hm).mp hs).2 ha.to_reflTransGen .refl
  rw [hsame] at ha
  exact h.tree.irrefl ha

/-- A sink is below a place of its init node's subtree if it is below a carrier there, or right below the place. -/
theorem above_sink_iff (hw : Within forest.parentOf init node.id) {sink : Node}
    (hs : sink ∈ sinksInto forest.nodes init depth) : Ancestor forest.parentOf node.id sink.id ↔
      (∃ child ∈ forest.carriers init depth node, Ancestor forest.parentOf child.id sink.id) ∨
        sink ∈ forest.children node := by
  obtain ⟨hsink, -⟩ := mem_sinksInto.mp hs
  simp only [h.mem_carriers hm, h.mem_children hm]
  rw [ancestor_iff]
  constructor
  · rintro ⟨below, hparent, hwithin⟩
    rcases within_iff.mp hwithin with rfl | ha
    · exact .inr ⟨hsink, hparent⟩
    · obtain ⟨child, hchild⟩ := getElem? (h.tree.bounded hparent).2
      obtain rfl := h.id below child hchild
      exact .inl ⟨child, ⟨⟨Array.mem_of_getElem? hchild, hparent⟩, sink, hs, ha, hw.tail hparent⟩, ha⟩
  · rintro (⟨child, ⟨⟨-, hparent⟩, -⟩, ha⟩ | ⟨-, hparent⟩)
    · exact ⟨child.id, hparent, ha.to_reflTransGen⟩
    · exact ⟨sink.id, hparent, .refl⟩

open Classical in
theorem sinksInto_children : ((sinksInto forest.nodes init depth).filter (· ∈ forest.children node)).Perm
    (sinksAmong (forest.children node) init depth) := by
  refine (List.perm_ext_iff_of_nodup (((nodes_nodup h.id).filter _).filter _) ((h.children_nodup hm).filter _)).mpr ?_
  intro sink
  simp only [List.mem_filter, decide_eq_true_eq, Array.mem_toList_iff]
  constructor
  · rintro ⟨⟨-, hleads⟩, hchild⟩
    exact ⟨hchild, hleads⟩
  · rintro ⟨hchild, hleads⟩
    exact ⟨⟨((h.mem_children hm).mp hchild).1, hleads⟩, hchild⟩

/-- What flows into a place of the subtree of an init node comes through the carriers below it, and from the sinks
among its children. A child can be both. -/
theorem workThrough_eq (hw : Within forest.parentOf init node.id) :
    workThrough forest.parentOf forest.nodes init depth node.id =
      ((forest.carriers init depth node).map (workThrough forest.parentOf forest.nodes init depth ·.id)).sum +
      ((sinksAmong (forest.children node) init depth).map (·.workAt depth)).sum := by
  classical
  have hnodup : (forest.carriers init depth node).Nodup := (h.children_nodup hm).filter _
  have hapart : ∀ child ∈ forest.carriers init depth node, ∀ child' ∈ forest.carriers init depth node, ∀ sink : Node,
      Ancestor forest.parentOf child.id sink.id → Ancestor forest.parentOf child'.id sink.id → child = child' :=
    fun _ hc _ hc' _ => h.carriers_apart hm hc hc'
  unfold workThrough
  rw [List.filter_congr fun sink hs => decide_eq_decide.mpr (h.above_sink_iff hm hw hs),
    sum_filter_or fun sink ⟨_, hc, ha⟩ => h.carriers_not_child hm hc ha,
    sum_filter_exists hnodup hapart,
    ((h.sinksInto_children hm).map _).sum_nat]

end Forest.Linked

/-! ### One init node -/

variable {table : RegionTable} {records : List Record}

section
variable (hb : Forest.build table records = .ok forest)
include hb

theorem build_sharesFrom (init : Node) : ∃ given, sharesFrom forest.nodes init = .ok given ∧
    ∀ place depth, given[(place, depth)]? = shareFrom forest.parentOf forest.nodes depth place init := by
  have hplaced := (build_linked hb).placed
  obtain ⟨given, hgiven⟩ : ∃ given, addInit forest.nodes (sinkNodes forest.nodes) Std.TreeMap.empty init = .ok given :=
    ⟨_, hplaced.addInit_eq_ok.mpr ⟨build_allBelow hb init.id, rfl⟩⟩
  refine ⟨given, ?_, fun place depth => ?_⟩
  · have hknown : ∀ sink ∈ forest.nodes, sink.kind = .sink → sink.target.isSome := by
      intro sink hs hk
      obtain ⟨_, -, -, ht⟩ := build_resolved hb sink hs hk
      rw [ht]
      rfl
    unfold sharesFrom
    rw [sinksOf_eq_ok.mpr ⟨hknown, rfl⟩]
    exact hgiven
  · have hempty : (Std.TreeMap.empty : Weights)[(place, depth)]? = none := Std.TreeMap.getElem?_emptyc
    rw [hplaced.getElem?_addInit hgiven, hempty, Option.or_none]

variable (hok : weightsOf forest.nodes = .ok weights)
  (hapart : ∀ place, OnWay forest.parentOf forest.nodes init place →
    ∀ other, OnWay forest.parentOf forest.nodes other place → other = init)
include hok hapart

/-- An init node whose ways are its own decides the weights on them. -/
theorem weight_of_apart (hc : Carries forest.parentOf forest.nodes init depth place) : weights[(place, depth)]? =
    some ⟨workThrough forest.parentOf forest.nodes init depth place, workInto forest.nodes init depth⟩ := by
  refine (build_linked hb).placed.weight_of_last (build_resolved hb) hok ⟨hc, fun other hother => ?_⟩
  exact (hapart place hc.onWay other (Carries.onWay hother)).le

variable (hwork : 0 < workInto forest.nodes init depth)
include hwork

theorem exactAt_of_apart (hc : Carries forest.parentOf forest.nodes init depth place) : weights.exactAt place depth =
    workThrough forest.parentOf forest.nodes init depth place / workInto forest.nodes init depth := by
  unfold Weights.exactAt
  rw [weight_of_apart hb hok hapart hc, Option.map_some, Option.getD_some]
  exact if_neg hwork.ne'

/-- What a weight stands for is the work that flows into the place. -/
theorem exactAt_mul_of_apart (hc : Carries forest.parentOf forest.nodes init depth place) :
    weights.exactAt place depth * workInto forest.nodes init depth =
      workThrough forest.parentOf forest.nodes init depth place := by
  have hpositive : (workInto forest.nodes init depth : Rat) ≠ 0 := by exact_mod_cast hwork.ne'
  rw [exactAt_of_apart hb hok hapart hwork hc, div_mul_cancel₀ _ hpositive]

theorem exactAt_bounds (hc : Carries forest.parentOf forest.nodes init depth place) :
    0 ≤ weights.exactAt place depth ∧ weights.exactAt place depth ≤ 1 := by
  have hpositive : (0 : Rat) < workInto forest.nodes init depth := by exact_mod_cast hwork
  have hle : (workThrough forest.parentOf forest.nodes init depth place : Rat) ≤ workInto forest.nodes init depth := by
    exact_mod_cast workThrough_le_workInto
  rw [exactAt_of_apart hb hok hapart hwork hc]
  exact ⟨by positivity, (div_le_one hpositive).mpr hle⟩

theorem exactAt_anti {above : Nat} (hc : Carries forest.parentOf forest.nodes init depth above)
    (hc' : Carries forest.parentOf forest.nodes init depth place) (ha : Ancestor forest.parentOf above place) :
    weights.exactAt place depth ≤ weights.exactAt above depth := by
  rw [exactAt_of_apart hb hok hapart hwork hc, exactAt_of_apart hb hok hapart hwork hc']
  gcongr
  exact workThrough_anti ha

theorem exactAt_flow (hm : node ∈ forest.nodes) (hc : Carries forest.parentOf forest.nodes init depth node.id) :
    weights.exactAt node.id depth * workInto forest.nodes init depth =
      ((forest.carriers init depth node).map fun child =>
        weights.exactAt child.id depth * workInto forest.nodes init depth).sum +
      ((sinksAmong (forest.children node) init depth).map fun sink => (sink.workAt depth : Rat)).sum := by
  have hlinked := build_linked hb
  have hw : Within forest.parentOf init node.id := by
    obtain ⟨-, -, -, hw⟩ := hc
    exact hw
  have hcarriers : ((forest.carriers init depth node).map fun child =>
      weights.exactAt child.id depth * workInto forest.nodes init depth) =
        (forest.carriers init depth node).map fun child =>
          (workThrough forest.parentOf forest.nodes init depth child.id : Rat) :=
    List.map_congr_left fun child hchild =>
      exactAt_mul_of_apart hb hok hapart hwork ((hlinked.mem_carriers hm).mp hchild).2
  rw [exactAt_mul_of_apart hb hok hapart hwork hc, hcarriers, hlinked.workThrough_eq hm hw]
  push_cast
  rw [List.map_map, List.map_map]
  rfl

end

/-- The weights that an init node gives at a depth partition the work of its sinks, if its ways are its own. The
places of its subtree with a weight are those above its sinks with counters there, with weight one at the init node
and no more going down. What a weight stands for is the sum over the children with a weight, and the work of the
sinks among the children; a child can be both. -/
theorem weights_partition (hb : Forest.build table records = .ok forest) {init : Node}
    (hapart : ∀ place, OnWay forest.parentOf forest.nodes init.id place →
      ∀ other, OnWay forest.parentOf forest.nodes other place → other = init.id)
    (hwork : 0 < workInto forest.nodes init.id depth) :
    ∃ weights given, weightsOf forest.nodes = .ok weights ∧ sharesFrom forest.nodes init = .ok given ∧
      (∀ place, (place, depth) ∈ given ↔ Within forest.parentOf init.id place ∧
        ∃ sink ∈ sinksInto forest.nodes init.id depth, Ancestor forest.parentOf place sink.id) ∧
      (∀ place, (place, depth) ∈ given → weights[(place, depth)]? = given[(place, depth)]?) ∧
      (init.id, depth) ∈ given ∧ weights.exactAt init.id depth = 1 ∧
      (∀ place, (place, depth) ∈ given → 0 ≤ weights.exactAt place depth ∧ weights.exactAt place depth ≤ 1) ∧
      (∀ above place, (above, depth) ∈ given → (place, depth) ∈ given → Ancestor forest.parentOf above place →
        weights.exactAt place depth ≤ weights.exactAt above depth) ∧
      ∀ node ∈ forest.nodes, (node.id, depth) ∈ given →
        weights.exactAt node.id depth * workInto forest.nodes init.id depth =
          (((forest.children node).filter fun child => (child.id, depth) ∈ given).map fun child =>
            weights.exactAt child.id depth * workInto forest.nodes init.id depth).sum +
          ((sinksAmong (forest.children node) init.id depth).map fun sink => (sink.workAt depth : Rat)).sum := by
  have hall := build_allBelow hb init.id
  obtain ⟨weights, hok⟩ := build_weights hb
  obtain ⟨given, hgiven, hshares⟩ := build_sharesFrom hb init
  have hmem : ∀ place, (place, depth) ∈ given ↔ Carries forest.parentOf forest.nodes init.id depth place := by
    intro place
    rw [Std.TreeMap.mem_iff_isSome_getElem?, hshares]
    unfold shareFrom
    split
    · next hc => exact iff_of_true rfl hc
    · next hc => exact iff_of_false Bool.false_ne_true hc
  have hinit := carries_init hall hwork
  refine ⟨weights, given, hok, hgiven, fun place => ?_, fun place hm => ?_, (hmem init.id).mpr hinit, ?_,
    fun place hm => exactAt_bounds hb hok hapart hwork ((hmem place).mp hm), fun above place hm hm' ha =>
      exactAt_anti hb hok hapart hwork ((hmem above).mp hm) ((hmem place).mp hm') ha, fun node hn hm => ?_⟩
  · rw [hmem]
    exact carries_iff_within
  · have hc := (hmem place).mp hm
    rw [weight_of_apart hb hok hapart hc, hshares]
    exact (if_pos hc).symm
  · have hpositive : (workInto forest.nodes init.id depth : Rat) ≠ 0 := by exact_mod_cast hwork.ne'
    rw [exactAt_of_apart hb hok hapart hwork hinit, workThrough_init hall, div_self hpositive]
  · have hcarriers : ((forest.children node).filter fun child => (child.id, depth) ∈ given) =
        forest.carriers init.id depth node :=
      List.filter_congr fun child _ => decide_eq_decide.mpr (hmem child.id)
    rw [hcarriers]
    exact exactAt_flow hb hok hapart hwork hn ((hmem node.id).mp hm)

/-- Two recursions side by side. In the first, a sink is above another sink, and one sink has no counters at the deeper
depth. -/
theorem weights_partition_branches :
    let records : List Record :=
      [⟨1, 0, 0, .normal, 0, 1, false, [2, 3], [.ofWork 1 3000 3000]⟩,
        ⟨2, 0, 0, .init, 0, 1, false, [4, 5], [.ofWork 1 1000 500, .ofWork 1 400 400]⟩,
        ⟨3, 0, 0, .init, 0, 1, false, [8], [.ofWork 1 500 500]⟩,
        ⟨4, 0, 0, .sink, 2, 1, false, [6], [.ofWork 1 300 300, .ofWork 1 50 50]⟩,
        ⟨5, 0, 0, .normal, 0, 1, false, [7], [.ofWork 1 250 250]⟩,
        ⟨6, 0, 0, .sink, 2, 1, false, [], [.ofWork 1 100 100, .ofWork 1 25 25]⟩,
        ⟨7, 0, 0, .sink, 2, 1, false, [], [.ofWork 1 200 200]⟩,
        ⟨8, 0, 0, .sink, 3, 1, false, [], [.ofWork 1 50 50]⟩]
    ∃ forest weights, Forest.build .initial records = .ok forest ∧ weightsOf forest.nodes = .ok weights ∧
      workInto forest.nodes 1 0 = 600 ∧ workInto forest.nodes 1 1 = 75 ∧
      weights.exactAt 1 0 = 1 ∧ weights.exactAt 1 1 = 1 ∧
      ∀ place, Within forest.parentOf 1 place →
        (∃ sink ∈ sinksInto forest.nodes 1 1, Ancestor forest.parentOf place sink.id) → weights.exactAt place 1 ≤ 1 := by
  intro records
  have hrun : (Forest.build .initial records).toOption.map (fun forest => (forest.nodes[1]?.map (·.id),
      forest.parentOf 1, forest.parentOf 2, workInto forest.nodes 1 0, workInto forest.nodes 1 1,
      decide (∀ node ∈ forest.nodes.toList, node.kind = .init → node.id = 1 ∨ node.id = 2))) =
        some (some 1, some 0, some 0, 600, 75, true) := by decide +kernel
  obtain ⟨forest, hb, hread⟩ := toOption_map_eq_some.mp hrun
  simp only [Prod.mk.injEq, decide_eq_true_eq, Array.mem_toList_iff, Option.map_eq_some_iff] at hread
  obtain ⟨⟨init, -, hid⟩, hparent, hparent', houter, hdeep, hinits⟩ := hread
  have hlinked := build_linked hb
  have hnames : ∀ init place, OnWay forest.parentOf forest.nodes init place → init = 1 ∨ init = 2 := by
    rintro init place ⟨sink, hs, hk, ht, -, -⟩
    obtain ⟨node, hn, hkind, htarget, -⟩ := build_sink hb hs hk
    rw [ht, Option.some.injEq] at htarget
    rw [htarget]
    exact hinits node hn hkind
  have hapart : ∀ place, OnWay forest.parentOf forest.nodes init.id place →
      ∀ other, OnWay forest.parentOf forest.nodes other place → other = init.id := by
    rw [hid]
    intro place hway other hother
    rcases hnames other place hother with rfl | rfl
    · rfl
    · obtain ⟨-, -, -, -, -, hw⟩ := hway
      obtain ⟨-, -, -, -, -, hw'⟩ := hother
      exact hlinked.tree.siblings hparent' hparent hw' hw
  have houter' : 0 < workInto forest.nodes init.id 0 := by rw [hid, houter]; decide
  have hdeep' : 0 < workInto forest.nodes init.id 1 := by rw [hid, hdeep]; decide
  obtain ⟨weights, -, hok, -, -, -, -, hone, -⟩ := weights_partition hb hapart houter'
  obtain ⟨same, given, hsame, -, hgiven, -, -, hone', hbounds, -⟩ := weights_partition hb hapart hdeep'
  rw [hok] at hsame
  cases hsame
  rw [hid] at hone hone' hgiven
  exact ⟨forest, weights, hb, hok, houter, hdeep, hone, hone',
    fun place hw hs => (hbounds place ((hgiven place).mpr ⟨hw, hs⟩)).2⟩

end RegionPlanner
