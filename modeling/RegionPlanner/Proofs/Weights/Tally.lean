import Mathlib.Algebra.GroupWithZero.Nat
import Mathlib.Data.List.Nodup
import RegionPlanner.Forest.Weight

/-!
# Tallies

What a tally holds after work was added along ways: at each place the work of all ways that pass it.
-/

namespace RegionPlanner

/-- Work counted at a depth, none where there are no counters. -/
def workCounted (stats : List Stat) (depth : Nat) : Nat :=
  match stats[depth]? with
  | some stat => stat.work.toNat
  | none => 0

def Node.workAt (node : Node) (depth : Nat) : Nat := workCounted node.profile.stats depth

namespace Tally

variable {tally : Tally} {path : List Nat} {paths : List SinkPath} {place other work depth : Nat}

/-! ### One way -/

theorem workAt_insert :
    workAt (tally.insert other work) place = if other = place then work else tally.workAt place := by
  unfold workAt
  rw [Std.TreeMap.getD_insert]
  simp only [Std.LawfulEqCmp.compare_eq_iff_eq]

theorem mem_addAlong : place ∈ tally.addAlong work path ↔ place ∈ tally ∨ place ∈ path := by
  unfold addAlong
  induction path generalizing tally with
  | nil => simp
  | cons first path ih =>
    rw [List.foldl_cons, ih, Std.TreeMap.mem_insert, Std.LawfulEqCmp.compare_eq_iff_eq, List.mem_cons, eq_comm,
      or_comm (a := place = first), or_assoc]

theorem workAt_addAlong (hn : path.Nodup) :
    (tally.addAlong work path).workAt place = tally.workAt place + if place ∈ path then work else 0 := by
  unfold addAlong
  induction path generalizing tally with
  | nil => simp
  | cons first path ih =>
    rw [List.nodup_cons] at hn
    rw [List.foldl_cons, ih hn.2, workAt_insert]
    by_cases hsame : first = place
    · subst hsame
      simp [hn.1]
    · simp [hsame, Ne.symm hsame]

/-! ### All ways -/

/-- One way more. -/
def addPath (depth : Nat) (tally : Tally) (path : SinkPath) : Tally :=
  match path.sink.profile.stats[depth]? with
  | some stat => tally.addAlong stat.work.toNat path.path
  | none => tally

theorem ofPaths_eq (paths : List SinkPath) (depth : Nat) :
    ofPaths paths depth = paths.foldl (addPath depth) Std.TreeMap.empty := rfl

theorem workAt_addPath {path : SinkPath} (hn : path.path.Nodup) : (addPath depth tally path).workAt place =
    tally.workAt place + if place ∈ path.path then path.sink.workAt depth else 0 := by
  unfold addPath Node.workAt workCounted
  cases path.sink.profile.stats[depth]? with
  | some stat => exact workAt_addAlong hn
  | none => simp

theorem mem_addPath {path : SinkPath} : place ∈ addPath depth tally path ↔
    place ∈ tally ∨ depth < path.sink.depths ∧ place ∈ path.path := by
  unfold addPath Node.depths
  cases hstat : path.sink.profile.stats[depth]? with
  | some stat =>
    have hlt : depth < path.sink.profile.stats.length := (List.getElem?_eq_some_iff.mp hstat).1
    simp [mem_addAlong, hlt]
  | none =>
    have hge : ¬ depth < path.sink.profile.stats.length := Nat.not_lt.mpr (List.getElem?_eq_none_iff.mp hstat)
    simp [hge]

theorem workAt_ofPaths (hn : ∀ path ∈ paths, path.path.Nodup) : (ofPaths paths depth).workAt place =
    ((paths.filter (place ∈ ·.path)).map (·.sink.workAt depth)).sum := by
  have from_start : ∀ start : Tally, (paths.foldl (addPath depth) start).workAt place =
      start.workAt place + ((paths.filter (place ∈ ·.path)).map (·.sink.workAt depth)).sum := by
    induction paths with
    | nil => simp
    | cons path paths ih =>
      intro start
      rw [List.forall_mem_cons] at hn
      rw [List.foldl_cons, ih hn.2, workAt_addPath hn.1]
      by_cases hp : place ∈ path.path
      · simp [hp, Nat.add_assoc]
      · simp [hp]
  have hempty : workAt Std.TreeMap.empty place = 0 := Std.TreeMap.getD_emptyc
  rw [ofPaths_eq, from_start, hempty, Nat.zero_add]

theorem mem_ofPaths : place ∈ ofPaths paths depth ↔
    ∃ path ∈ paths, depth < path.sink.depths ∧ place ∈ path.path := by
  have from_start : ∀ start : Tally, place ∈ paths.foldl (addPath depth) start ↔
      place ∈ start ∨ ∃ path ∈ paths, depth < path.sink.depths ∧ place ∈ path.path := by
    induction paths with
    | nil => simp
    | cons path paths ih =>
      intro start
      rw [List.foldl_cons, ih, mem_addPath]
      simp only [List.mem_cons, exists_eq_or_imp, or_assoc]
  rw [ofPaths_eq, from_start]
  exact or_iff_right Std.TreeMap.not_mem_emptyc

end Tally

end RegionPlanner
