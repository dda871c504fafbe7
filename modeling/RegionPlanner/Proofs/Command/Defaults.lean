import Mathlib.Data.List.Infix
import Mathlib.Data.List.TakeDrop
import RegionPlanner.Command.Options

/-!
# Options that are not given

An option that no argument names keeps its default. This is proved once for any part of the options that only one setting
changes.
-/

namespace RegionPlanner

namespace Options

/-- Only the setting of this name changes a part of the options. -/
def OwnedBy {β : Type} (own : String) (part : Options → β) : Prop :=
  ∀ entry ∈ settings, entry.1 ≠ own → ∀ value options out, entry.2 value options = some out → part out = part options

variable {β : Type} {own : String} {part : Options → β} {progress next : Progress} {name value text : String}
  {options : Options}

/-! ### Settings -/

theorem exclude_owned : OwnedBy "exclude" Options.exclude := by
  rintro ⟨name, setting⟩ hm hname value options out hout
  simp only [settings, List.mem_cons, List.not_mem_nil, or_false, Prod.mk.injEq] at hm
  rcases hm with ⟨rfl, rfl⟩ | ⟨rfl, rfl⟩ | ⟨rfl, rfl⟩ | ⟨rfl, rfl⟩ | ⟨rfl, rfl⟩ | ⟨rfl, rfl⟩ | ⟨rfl, rfl⟩ | ⟨rfl, rfl⟩ |
    ⟨rfl, rfl⟩ | ⟨rfl, rfl⟩ | ⟨rfl, rfl⟩ | ⟨rfl, rfl⟩ | ⟨rfl, rfl⟩
  case inr.inr.inr.inr.inr.inr.inr.inr.inr.inl => exact absurd rfl hname
  all_goals
    obtain ⟨_, -, rfl⟩ := Option.map_eq_some_iff.mp hout
    rfl

theorem set_keeps (h : OwnedBy own part) (hname : name ≠ own) (hset : progress.set name value = some next) :
    part next.options = part progress.options := by
  unfold Progress.set at hset
  split at hset
  · cases hset
  · next setting hsetting =>
    split at hset
    · cases hset
    · obtain ⟨out, hout, rfl⟩ := Option.map_eq_some_iff.mp hset
      obtain ⟨before, after, hsettings, -⟩ := List.lookup_eq_some_iff.mp hsetting
      exact h (name, setting) (by simp [hsettings]) hname value progress.options out hout

theorem setVerbose_keeps (hset : progress.setVerbose = some next) : next.options = progress.options := by
  unfold Progress.setVerbose at hset
  split at hset
  · cases hset
  · cases hset
    rfl

theorem readLetters_keeps {letters : List Char} (hread : readLetters progress letters = .inr next) :
    next.options = progress.options := by
  fun_induction readLetters progress letters with
  | case1 progress => cases hread; rfl
  | case2 => cases hread
  | case3 progress rest after hset ih => rw [ih hread, setVerbose_keeps hset]
  | case4 => cases hread
  | case5 => cases hread

/-- Letters alone do not start a run. -/
theorem readLetters_ne_run {letters : List Char} : readLetters progress letters ≠ .inl (.run options) := by
  fun_induction readLetters progress letters with
  | case1 => simp
  | case2 => simp
  | case3 _ _ _ _ ih => exact ih
  | case4 => simp
  | case5 => simp

/-! ### Arguments -/

theorem splitValue_prefix (text : List Char) : (splitValue text).1.toList <+: text := by
  unfold splitValue
  rw [List.span_eq_takeWhile_dropWhile]
  split
  · next name value hspan =>
    obtain ⟨rfl, -⟩ := Prod.mk.inj hspan
    rw [String.toList_ofList]
    exact List.takeWhile_prefix _
  · next name rest _ hspan =>
    obtain ⟨rfl, -⟩ := Prod.mk.inj hspan
    rw [String.toList_ofList]
    exact List.takeWhile_prefix _

/-- A long option starts with its name. -/
theorem ofText_long {given : Option String} (h : Argument.ofText text = .long name given) :
    '-' :: '-' :: name.toList <+: text.toList := by
  unfold Argument.ofText at h
  split at h
  · cases h
  · next rest _ htext =>
    cases h
    rw [htext, List.cons_prefix_cons, List.cons_prefix_cons]
    exact ⟨rfl, rfl, splitValue_prefix rest⟩
  · cases h
  · cases h
  · cases h

theorem readFrom_keeps (howned : OwnedBy own part) {arguments : List String}
    (h : readFrom progress arguments = .run options)
    (hnone : ∀ argument ∈ arguments, ¬ '-' :: '-' :: own.toList <+: argument.toList) :
    part options = part progress.options := by
  have hother : ∀ {text name : String} {given : Option String}, Argument.ofText text = .long name given →
      ¬ '-' :: '-' :: own.toList <+: text.toList → name ≠ own := by
    rintro text name given hlong hno rfl
    exact hno (ofText_long hlong)
  fun_induction readFrom progress arguments with
  | case1 => cases h; rfl
  | case2 => cases h; rfl
  | case5 progress text rest letters htext invocation hletters =>
    subst h
    exact absurd hletters readLetters_ne_run
  | case6 progress text rest letters htext next hletters ih =>
    rw [ih h (List.forall_mem_cons.mp hnone).2, readLetters_keeps hletters]
  | case8 progress text rest htext next hset ih =>
    rw [ih h (List.forall_mem_cons.mp hnone).2, setVerbose_keeps hset]
  | case10 progress text rest name value htext next hset ih =>
    obtain ⟨hno, hnone⟩ := List.forall_mem_cons.mp hnone
    rw [ih h hnone, set_keeps howned (hother htext hno) hset]
  | case13 progress text name _ _ htext value rest _ next hset ih =>
    obtain ⟨hno, hnone⟩ := List.forall_mem_cons.mp hnone
    rw [ih h (List.forall_mem_cons.mp hnone).2, set_keeps howned (hother htext hno) hset]
  | case3 | case4 | case7 | case9 | case11 | case12 | case14 | case15 => cases h

/-- Without an argument that names the exclusion, all but independent loops are excluded. -/
theorem read_exclude {arguments : List String} (h : read arguments = .run options)
    (hnone : ∀ argument ∈ arguments, ¬ "--exclude".toList <+: argument.toList) :
    options.exclude = .nonIndependentLoops :=
  readFrom_keeps exclude_owned h hnone

end Options

end RegionPlanner
