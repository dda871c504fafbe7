import Mathlib.Data.List.Forall2

/-!
# Steps that succeed

What it means that a chain of steps succeeds: each of its steps does, on what the step before it gave.
-/

namespace RegionPlanner

variable {ε σ α β : Type}

theorem bind_eq_ok {x : Except ε α} {f : α → Except ε β} {b : β} :
    (x >>= f) = .ok b ↔ ∃ a, x = .ok a ∧ f a = .ok b := by
  cases x <;> simp [bind, Except.bind]

theorem ok_bind {a : α} {f : α → Except ε β} : (Except.ok a >>= f) = f a := rfl

theorem map_eq_ok {x : Except ε α} {f : α → β} {b : β} : (f <$> x) = .ok b ↔ ∃ a, x = .ok a ∧ f a = b := by
  cases x <;> simp [Functor.map, Except.map]

theorem pure_eq_ok {a b : α} : (pure a : Except ε α) = .ok b ↔ a = b := by
  simp [pure, Except.pure]

theorem toOption_eq_some {x : Except ε α} {a : α} : x.toOption = some a ↔ x = .ok a := by
  cases x <;> simp [Except.toOption]

theorem toOption_map_eq_some {x : Except ε α} {f : α → β} {b : β} :
    x.toOption.map f = some b ↔ ∃ a, x = .ok a ∧ f a = b := by
  cases x <;> simp [Except.toOption]

theorem mapM_eq_ok {f : α → Except ε β} {xs : List α} {ys : List β} :
    xs.mapM f = .ok ys ↔ List.Forall₂ (fun x y => f x = .ok y) xs ys := by
  induction xs generalizing ys with
  | nil =>
    rw [List.mapM_nil, pure_eq_ok, List.forall₂_nil_left_iff]
    exact eq_comm
  | cons x xs ih =>
    rw [List.mapM_cons, bind_eq_ok]
    constructor
    · rintro ⟨y, hy, h⟩
      obtain ⟨rest, hrest, h⟩ := bind_eq_ok.mp h
      rw [pure_eq_ok] at h
      subst h
      exact .cons hy (ih.mp hrest)
    · intro h
      cases h with
      | cons hy hrest => exact ⟨_, hy, bind_eq_ok.mpr ⟨_, ih.mpr hrest, rfl⟩⟩

theorem mapM_getElem? {f : α → Except ε β} {xs : List α} {ys : List β} (h : xs.mapM f = .ok ys) :
    xs.length = ys.length ∧ ∀ (i : Nat) (x : α), xs[i]? = some x → ∃ y, f x = .ok y ∧ ys[i]? = some y := by
  rw [mapM_eq_ok] at h
  refine ⟨h.length_eq, ?_⟩
  induction h with
  | nil => simp
  | @cons x y _ _ hy _ ih =>
    intro i found hfound
    cases i with
    | zero =>
      rw [List.getElem?_cons_zero, Option.some.injEq] at hfound
      subst hfound
      exact ⟨y, hy, rfl⟩
    | succ i =>
      rw [List.getElem?_cons_succ] at hfound ⊢
      exact ih i found hfound

theorem exists_of_mem_mapM {f : α → Except ε β} {xs : List α} {ys : List β} {y : β} (h : xs.mapM f = .ok ys)
    (hy : y ∈ ys) : ∃ x ∈ xs, f x = .ok y := by
  rw [mapM_eq_ok] at h
  induction h with
  | nil => cases hy
  | cons hx _ ih =>
    rcases List.mem_cons.mp hy with rfl | hy
    · exact ⟨_, List.mem_cons_self, hx⟩
    · obtain ⟨x, hm, hx⟩ := ih hy
      exact ⟨x, List.mem_cons_of_mem _ hm, hx⟩

/-- A step that succeeds exactly on good inputs, and then with a known result. -/
theorem mapM_eq_ok_map {f : α → Except ε β} {g : α → β} {good : α → Prop} {xs : List α} {ys : List β}
    (hf : ∀ x ∈ xs, ∀ y, f x = .ok y ↔ good x ∧ g x = y) :
    xs.mapM f = .ok ys ↔ (∀ x ∈ xs, good x) ∧ xs.map g = ys := by
  rw [mapM_eq_ok]
  induction xs generalizing ys with
  | nil =>
    rw [List.forall₂_nil_left_iff]
    simp [eq_comm]
  | cons x xs ih =>
    rw [List.forall_mem_cons] at hf
    rw [List.forall₂_cons_left_iff, List.forall_mem_cons, List.map_cons]
    constructor
    · rintro ⟨y, rest, hy, hrest, rfl⟩
      obtain ⟨hx, rfl⟩ := (hf.1 y).mp hy
      obtain ⟨hall, rfl⟩ := (ih hf.2).mp hrest
      exact ⟨⟨hx, hall⟩, rfl⟩
    · rintro ⟨⟨hx, hall⟩, rfl⟩
      exact ⟨g x, _, (hf.1 _).mpr ⟨hx, rfl⟩, (ih hf.2).mpr ⟨hall, rfl⟩, rfl⟩

theorem zipIdx_mapM_eq_ok {f : α × Nat → Except ε β} {g : Nat → α → β} {good : Nat → α → Prop} {xs : List α}
    {ys : List β}
    (hf : ∀ (place : Nat) (x : α), xs[place]? = some x → ∀ y, f (x, place) = .ok y ↔ good place x ∧ g place x = y) :
    xs.zipIdx.mapM f = .ok ys ↔
      (∀ (place : Nat) (x : α), xs[place]? = some x → good place x) ∧ xs.mapIdx g = ys := by
  have hpair : ∀ pair ∈ xs.zipIdx, ∀ y, f pair = .ok y ↔ good pair.2 pair.1 ∧ g pair.2 pair.1 = y :=
    fun pair hm => hf pair.2 pair.1 (List.mem_zipIdx_iff_getElem?.mp hm)
  rw [mapM_eq_ok_map hpair, List.mapIdx_eq_zipIdx_map]
  refine and_congr ?_ Iff.rfl
  constructor
  · intro h place x hx
    exact h (x, place) (List.mem_zipIdx_iff_getElem?.mpr hx)
  · intro h pair hm
    exact h pair.2 pair.1 (List.mem_zipIdx_iff_getElem?.mp hm)

theorem mapM_isOk {f : α → Except ε β} {xs : List α} :
    (∃ ys, xs.mapM f = .ok ys) ↔ ∀ x ∈ xs, ∃ y, f x = .ok y := by
  constructor
  · rintro ⟨ys, h⟩ x hm
    rw [mapM_eq_ok] at h
    induction h with
    | nil => cases hm
    | cons hy _ ih =>
      rcases List.mem_cons.mp hm with rfl | hm
      · exact ⟨_, hy⟩
      · exact ih hm
  · intro h
    induction xs with
    | nil => exact ⟨[], rfl⟩
    | cons x xs ih =>
      obtain ⟨y, hy⟩ := h x List.mem_cons_self
      obtain ⟨ys, hys⟩ := ih (fun other ho => h other (List.mem_cons_of_mem _ ho))
      exact ⟨y :: ys, mapM_eq_ok.mpr (.cons hy (mapM_eq_ok.mp hys))⟩

/-- A loop whose steps succeed whatever was done before succeeds if each of its steps does. -/
theorem foldlM_isOk {f : β → α → Except ε β} {good : α → Prop} (hf : ∀ b x, (∃ b', f b x = .ok b') ↔ good x)
    {xs : List α} {b : β} : (∃ out, xs.foldlM f b = .ok out) ↔ ∀ x ∈ xs, good x := by
  induction xs generalizing b with
  | nil => exact iff_of_true ⟨b, rfl⟩ (by simp)
  | cons x xs ih =>
    rw [List.forall_mem_cons]
    constructor
    · rintro ⟨out, h⟩
      rw [List.foldlM_cons] at h
      obtain ⟨next, hnext, hrest⟩ := bind_eq_ok.mp h
      exact ⟨(hf b x).mp ⟨next, hnext⟩, ih.mp ⟨out, hrest⟩⟩
    · rintro ⟨hx, hxs⟩
      obtain ⟨next, hnext⟩ := (hf b x).mpr hx
      obtain ⟨out, hout⟩ : ∃ out, xs.foldlM f next = .ok out := ih.mpr hxs
      refine ⟨out, ?_⟩
      rw [List.foldlM_cons]
      exact bind_eq_ok.mpr ⟨next, hnext, hout⟩

/-- What a loop leaves to be read, if each step either says what that is or leaves it: the last step that says
something decides. -/
theorem foldlM_read {γ : Type} {f : β → α → Except ε β} {read : β → Option γ} {give : α → Option γ} {xs : List α}
    {b out : β} (hf : ∀ (b : β) (x : α) (b' : β), f b x = .ok b' → read b' = (give x).or (read b))
    (h : xs.foldlM f b = .ok out) : read out = (xs.reverse.findSome? give).or (read b) := by
  induction xs generalizing b with
  | nil =>
    rw [List.foldlM_nil, pure_eq_ok] at h
    rw [h]
    rfl
  | cons x xs ih =>
    rw [List.foldlM_cons] at h
    obtain ⟨next, hnext, hrest⟩ := bind_eq_ok.mp h
    rw [ih hrest, hf b x next hnext, List.reverse_cons, List.findSome?_append, List.findSome?_singleton,
      Option.or_assoc]

/-! ### Steps whose results are translated -/

theorem map_mapM {γ : Type} {f : α → Except ε β} {g : β → γ} {xs : List α} :
    List.map g <$> xs.mapM f = xs.mapM fun x => g <$> f x := by
  induction xs with
  | nil => rfl
  | cons x xs ih =>
    simp only [List.mapM_cons, map_bind, map_pure, List.map_cons, bind_map_left, ← ih]

theorem mapM_congr {f g : α → Except ε β} {xs : List α} (h : ∀ x ∈ xs, f x = g x) : xs.mapM f = xs.mapM g := by
  induction xs with
  | nil => rfl
  | cons x xs ih =>
    rw [List.forall_mem_cons] at h
    rw [List.mapM_cons, List.mapM_cons, h.1, ih h.2]

/-- A loop whose steps translate what they give as they translate what they are given. -/
theorem foldlM_hom {γ : Type} {f : β → α → Except ε β} {f' : γ → α → Except ε γ} {g : β → γ}
    (hf : ∀ b x, f' (g b) x = g <$> f b x) {xs : List α} {b : β} : xs.foldlM f' (g b) = g <$> xs.foldlM f b := by
  induction xs generalizing b with
  | nil => rfl
  | cons x xs ih =>
    rw [List.foldlM_cons, List.foldlM_cons, hf, bind_map_left, map_bind]
    exact bind_congr fun _ => ih

/-! ### Steps that fail -/

theorem bind_eq_error {x : Except ε α} {f : α → Except ε β} {fault : ε} :
    (x >>= f) = .error fault ↔ x = .error fault ∨ ∃ a, x = .ok a ∧ f a = .error fault := by
  cases x <;> simp [bind, Except.bind]

theorem map_eq_error {x : Except ε α} {f : α → β} {fault : ε} : (f <$> x) = .error fault ↔ x = .error fault := by
  cases x <;> simp [Functor.map, Except.map]

theorem mapM_eq_error {f : α → Except ε β} {xs : List α} {fault : ε} (h : xs.mapM f = .error fault) :
    ∃ x ∈ xs, f x = .error fault := by
  induction xs with
  | nil => cases h
  | cons x xs ih =>
    rw [List.mapM_cons, bind_eq_error] at h
    rcases h with hx | ⟨y, -, h⟩
    · exact ⟨x, List.mem_cons_self, hx⟩
    · rcases bind_eq_error.mp h with hrest | ⟨ys, -, h⟩
      · obtain ⟨other, hm, hother⟩ := ih hrest
        exact ⟨other, List.mem_cons_of_mem _ hm, hother⟩
      · cases h

theorem foldlM_eq_error {f : β → α → Except ε β} {xs : List α} {b : β} {fault : ε}
    (h : xs.foldlM f b = .error fault) : ∃ (before : β), ∃ x ∈ xs, f before x = .error fault := by
  induction xs generalizing b with
  | nil => cases h
  | cons x xs ih =>
    rw [List.foldlM_cons, bind_eq_error] at h
    rcases h with hx | ⟨next, -, hrest⟩
    · exact ⟨b, x, List.mem_cons_self, hx⟩
    · obtain ⟨before, other, hm, hother⟩ := ih hrest
      exact ⟨before, other, List.mem_cons_of_mem _ hm, hother⟩

/-- Steps whose faults are translated. -/
theorem mapM_mapError {δ : Type} {f : α → Except ε β} {g : ε → δ} {xs : List α} :
    (xs.mapM fun x => (f x).mapError g) = (xs.mapM f).mapError g := by
  induction xs with
  | nil => rfl
  | cons x xs ih =>
    simp only [List.mapM_cons, ih]
    cases f x with
    | error fault => rfl
    | ok y => cases xs.mapM f <;> rfl

/-! ### Steps with a state -/

theorem state_bind_eq_ok {x : EStateM ε σ α} {f : α → EStateM ε σ β} {s s' : σ} {b : β} :
    (x >>= f) s = .ok b s' ↔ ∃ a t, x s = .ok a t ∧ f a t = .ok b s' := by
  change EStateM.bind x f s = .ok b s' ↔ _
  unfold EStateM.bind
  cases x s with
  | ok a t => simp
  | error e t => simp

theorem state_bind_eq_error_iff {x : EStateM ε σ α} {f : α → EStateM ε σ β} {s s' : σ} {fault : ε} :
    (x >>= f) s = .error fault s' ↔ x s = .error fault s' ∨ ∃ a t, x s = .ok a t ∧ f a t = .error fault s' := by
  change EStateM.bind x f s = .error fault s' ↔ _
  unfold EStateM.bind
  cases x s with
  | ok a t => simp
  | error e t => simp

theorem state_pure_eq_ok {a b : α} {s s' : σ} :
    (pure a : EStateM ε σ α) s = .ok b s' ↔ a = b ∧ s = s' := by
  simp [pure, EStateM.pure]

end RegionPlanner
