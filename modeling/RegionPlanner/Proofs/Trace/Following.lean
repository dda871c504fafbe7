import RegionPlanner.Proofs.Trace.Taking

/-!
# Reading the same words from another source

A source that gives the words of some bytes, in whatever way it holds them, is read as these bytes are. Main
statement: what a decoder yields for the bytes, or the reason for which it stops, it yields for the other source, if
this is so for one word.
-/

namespace RegionPlanner

/-! ### Where bytes end -/

theorem length_lt_of_short {bytes : List UInt8} {count : Nat} (h : pullBytes bytes = .short count) :
    bytes.length < 8 := by
  by_contra hlong
  obtain ⟨word, rest, hword⟩ : ∃ word rest, pullBytes bytes = .word word rest := by
    match bytes with
    | a :: b :: c :: d :: e :: f :: g :: i :: rest => exact ⟨_, rest, rfl⟩
    | [] | [_] | [_, _] | [_, _, _] | [_, _, _, _] | [_, _, _, _, _] | [_, _, _, _, _, _] | [_, _, _, _, _, _, _] =>
      simp at hlong
  rw [hword] at h
  cases h

/-- A complete field was refused: a kind, a target or a parallel bit. -/
def Fault.isRefusal : Fault → Bool
  | .unknownNodeKind _ _ => true
  | .trace _ (.strayTarget ..) => true
  | .trace _ (.badParallelBit ..) => true
  | _ => false

/-- There were fewer bytes than the next field has. -/
def TraceFault.isTruncation : TraceFault → Bool
  | .trailingBytes _ => true
  | .truncated _ => true
  | _ => false

/-- The bytes ended before the next field did. -/
def Fault.EndsAt (fault : Fault) (cursor : Cursor (List UInt8)) : Prop :=
  cursor.source.length < 8 ∧ ∃ reason : TraceFault, reason.isTruncation = true ∧ fault = .trace cursor.offset reason

/-- From one cursor to the next whole words were taken, and nothing was lost. -/
structure Spans (before after : Cursor (List UInt8)) : Prop where
  whole : after.offset % 8 = before.offset % 8
  total : after.offset + after.source.length = before.offset + before.source.length

theorem Spans.refl (cursor : Cursor (List UInt8)) : Spans cursor cursor := ⟨rfl, rfl⟩

theorem Spans.trans {before between after : Cursor (List UInt8)} (h : Spans before between) (h' : Spans between after) :
    Spans before after := ⟨h'.whole.trans h.whole, h'.total.trans h.total⟩

theorem Takes.spans {words : List UInt64} {before after : Cursor (List UInt8)} (h : Takes words before after) :
    Spans before after := by
  obtain ⟨hsource, hoffset⟩ := h
  have hlength := congrArg List.length hsource
  rw [List.length_append, length_flatMap_bytesOfWord] at hlength
  constructor <;> omega

/-- Less than a word is left only behind the last whole one. -/
theorem Spans.offset_eq {before after : Cursor (List UInt8)} (h : Spans before after) (hstart : before.offset % 8 = 0)
    (hshort : after.source.length < 8) : after.offset = 8 * ((before.offset + before.source.length) / 8) := by
  obtain ⟨hwhole, htotal⟩ := h
  omega

/-! ### Steps that follow each other -/

section
variable {σ : Type} (R : Cursor σ → Cursor (List UInt8) → Prop) (become : Fault → Option Fault)

/-- One step does at a source what the other does at bytes, the cursors being related by `R`. A fault of the bytes turns
into what `become` says of it, if that says anything. At the bytes the step stops only where a field is refused or less
than a word is left. -/
structure Follows {α : Type} (step : Read σ α) (model : Read (List UInt8) α) : Prop where
  ok : ∀ {s t t' a}, R s t → model t = .ok a t' → Spans t t' ∧ ∃ s', step s = .ok a s' ∧ R s' t'
  error : ∀ {s t t' fault}, R s t → model t = .error fault t' → Spans t t' ∧ (fault.isRefusal = true ∨ fault.EndsAt t') ∧
    ∀ other, become fault = some other → ∃ s', step s = .error other s' ∧ R s' t'

variable {R become}

namespace Follows

variable {α β : Type}

theorem pure (a : α) : Follows R become (pure a) (pure a) := by
  constructor
  · intro s t t' b hst h
    obtain ⟨rfl, rfl⟩ := state_pure_eq_ok.mp h
    exact ⟨Spans.refl t, s, rfl, hst⟩
  · intro s t t' fault hst h
    cases h

theorem bind {step : Read σ α} {model : Read (List UInt8) α} {next : α → Read σ β} {next' : α → Read (List UInt8) β}
    (h : Follows R become step model) (h' : ∀ a, Follows R become (next a) (next' a)) :
    Follows R become (step >>= next) (model >>= next') := by
  constructor
  · intro s t t' b hst hb
    obtain ⟨a, between, ha, hrest⟩ := state_bind_eq_ok.mp hb
    obtain ⟨hfirst, s₁, hs₁, hst₁⟩ := h.ok hst ha
    obtain ⟨hsecond, s₂, hs₂, hst₂⟩ := (h' a).ok hst₁ hrest
    exact ⟨hfirst.trans hsecond, s₂, state_bind_eq_ok.mpr ⟨a, s₁, hs₁, hs₂⟩, hst₂⟩
  · intro s t t' fault hst hb
    rcases state_bind_eq_error_iff.mp hb with hfault | ⟨a, between, ha, hrest⟩
    · obtain ⟨hspans, hkind, hother⟩ := h.error hst hfault
      refine ⟨hspans, hkind, ?_⟩
      intro other hbecome
      obtain ⟨s', hs', hst'⟩ := hother other hbecome
      exact ⟨s', state_bind_eq_error_iff.mpr (.inl hs'), hst'⟩
    · obtain ⟨hfirst, s₁, hs₁, hst₁⟩ := h.ok hst ha
      obtain ⟨hsecond, hkind, hother⟩ := (h' a).error hst₁ hrest
      refine ⟨hfirst.trans hsecond, hkind, ?_⟩
      intro other hbecome
      obtain ⟨s', hs', hst'⟩ := hother other hbecome
      exact ⟨s', state_bind_eq_error_iff.mpr (.inr ⟨a, s₁, hs₁, hs'⟩), hst'⟩

theorem many {item : Read σ α} {item' : Read (List UInt8) α} (h : Follows R become item item') (done : List α)
    (count : Nat) : Follows R become (readMany item done count) (readMany item' done count) := by
  induction count generalizing done with
  | zero => exact pure _
  | succ count ih => exact h.bind fun a => ih (a :: done)

end Follows

/-! ### The steps of a record -/

variable [WordSource σ]

variable (R become) in
/-- At cursors related by `R` a source gives the words that the bytes give, and the faults that `become` says. -/
structure Matches : Prop where
  word : ∀ {s t value rest}, R s t → pullBytes t.source = .word value rest →
    ∃ rest', WordSource.pull s.source = .word value rest' ∧ R ⟨rest', s.offset + 8⟩ ⟨rest, t.offset + 8⟩
  short : ∀ {s t count name other}, R s t → pullBytes t.source = .short count →
    become (.trace t.offset (.truncated name)) = some other → readField name s = .error other s
  trailing : ∀ {decoder : Decoder σ} {t count other}, R decoder.toCursor t → decoder.failed = false →
    pullBytes t.source = .short (count + 1) → become (.trace t.offset (.trailingBytes (count + 1))) = some other →
    decoder.next = (some (.error other), { decoder with failed := true })
  refused : ∀ {s t reason other}, R s t → (Fault.trace t.offset reason).isRefusal = true →
    become (.trace t.offset reason) = some other → other = .trace s.offset reason
  unknown : ∀ {uid code other}, become (.unknownNodeKind uid code) = some other → other = .unknownNodeKind uid code

variable (h : Matches R become)
include h

theorem follows_field (name : String) : Follows R become (readField name) (readField name) := by
  constructor
  · intro s t t' word hst ht
    have htaken := readField_takes ht
    unfold readField at ht
    cases hp : WordSource.pull t.source with
    | word value rest =>
      simp only [hp] at ht
      cases ht
      obtain ⟨rest', hpull, hrest⟩ := h.word hst hp
      refine ⟨htaken.spans, ⟨rest', s.offset + 8⟩, ?_, hrest⟩
      simp only [readField, hpull]
    | short count => simp only [hp] at ht; cases ht
    | failed text early => simp only [hp] at ht; cases ht
  · intro s t t' fault hst ht
    unfold readField at ht
    cases hp : WordSource.pull t.source with
    | word value rest => simp only [hp] at ht; cases ht
    | short count =>
      simp only [hp] at ht
      cases ht
      refine ⟨Spans.refl t, .inr ⟨length_lt_of_short hp, .truncated name, rfl, rfl⟩, ?_⟩
      intro other hother
      exact ⟨s, h.short hst hp hother, hst⟩
    | failed text early => exact absurd hp (pullBytes_ne_failed _ _ _)

theorem follows_refuse {α : Type} {reason : TraceFault} (hreason : ∀ offset, (Fault.trace offset reason).isRefusal = true) :
    Follows R become (refuse reason : Read σ α) (refuse reason) := by
  constructor
  · intro s t t' a hst ht
    cases ht
  · intro s t t' fault hst ht
    cases ht
    refine ⟨Spans.refl t, .inl (hreason _), ?_⟩
    intro other hother
    refine ⟨s, ?_, hst⟩
    rw [h.refused hst (hreason _) hother]
    rfl

theorem follows_stat : Follows R become readStat readStat := by
  unfold readStat
  have hfield := fun name => follows_field h name
  refine (hfield _).bind fun _ => (hfield _).bind fun _ => (hfield _).bind fun _ => (hfield _).bind fun _ =>
    (hfield _).bind fun _ => (hfield _).bind fun _ => (hfield _).bind fun _ => (hfield _).bind fun _ =>
    (hfield _).bind fun _ => Follows.pure _

theorem follows_kind (uid : UInt64) : Follows R become (readKind uid) (readKind uid) := by
  refine (follows_field h _).bind fun code => ?_
  cases NodeKind.ofCode? code with
  | some kind => exact Follows.pure kind
  | none =>
    constructor
    · intro s t t' a hst ht
      cases ht
    · intro s t t' fault hst ht
      cases ht
      refine ⟨Spans.refl t, .inl rfl, ?_⟩
      intro other hother
      refine ⟨s, ?_, hst⟩
      rw [h.unknown hother]
      rfl

theorem follows_target (uid : UInt64) (kind : NodeKind) : Follows R become (readTarget uid kind) (readTarget uid kind) := by
  refine (follows_field h _).bind fun target => ?_
  split
  · exact follows_refuse h fun _ => rfl
  · exact Follows.pure target

theorem follows_parallelBit (uid : UInt64) : Follows R become (readParallelBit uid) (readParallelBit uid) := by
  refine (follows_field h _).bind fun bit => ?_
  split
  · exact Follows.pure false
  · split
    · exact Follows.pure true
    · exact follows_refuse h fun _ => rfl

theorem follows_record (uid : UInt64) : Follows R become (readRecord uid) (readRecord uid) := by
  unfold readRecord
  have hfield := fun name => follows_field h name
  have hchildren := fun count : UInt64 => (hfield "child_uid").many [] count.toNat
  have hstats := fun count : UInt64 => (follows_stat h).many [] count.toNat
  exact (hfield _).bind fun _ => (hfield _).bind fun _ => (follows_kind h uid).bind fun kind =>
    (follows_target h uid kind).bind fun _ => (hfield _).bind fun _ => (follows_parallelBit h uid).bind fun _ =>
    (hfield _).bind fun childCount => (hchildren childCount).bind fun _ => (hfield _).bind fun statCount =>
    (hstats statCount).bind fun _ => Follows.pure _

/-! ### The decoder -/

variable {decoder : Decoder σ} {bytes after : Decoder (List UInt8)} (hR : R decoder.toCursor bytes.toCursor)
  (hd : decoder.failed = false) (hb : bytes.failed = false)
include hR hd hb

theorem next_follows_record {record : Record} (hnext : bytes.next = (some (.ok record), after)) :
    Spans bytes.toCursor after.toCursor ∧ after.failed = false ∧ ∃ behind,
      decoder.next = (some (.ok record), behind) ∧ R behind.toCursor after.toCursor ∧ behind.failed = false := by
  unfold Decoder.next at hnext
  simp only [hb, Bool.false_eq_true, if_false] at hnext
  cases hp : WordSource.pull bytes.source with
  | word uid rest =>
    simp only [hp] at hnext
    obtain ⟨rest', hpull, hrest⟩ := h.word hR hp
    have hfirst := takes_word hp
    cases hr : readRecord uid ⟨rest, bytes.offset + 8⟩ with
    | ok found cursor =>
      simp only [hr, Prod.mk.injEq, Option.some.injEq, Except.ok.injEq] at hnext
      obtain ⟨rfl, rfl⟩ := hnext
      obtain ⟨hspans, cursor', hread, hcursor⟩ := (follows_record h uid).ok hrest hr
      refine ⟨hfirst.spans.trans hspans, rfl, ⟨cursor', false⟩, ?_, hcursor, rfl⟩
      simp only [Decoder.next, hd, Bool.false_eq_true, if_false, hpull, hread]
    | error fault cursor => simp [hr] at hnext
  | short count =>
    simp only [hp] at hnext
    cases count <;> simp at hnext
  | failed text early => exact absurd hp (pullBytes_ne_failed _ _ _)

theorem next_follows_fault {fault : Fault} (hnext : bytes.next = (some (.error fault), after)) :
    Spans bytes.toCursor after.toCursor ∧ after.failed = true ∧ (fault.isRefusal = true ∨ fault.EndsAt after.toCursor) ∧
      ∀ other, become fault = some other → ∃ behind, decoder.next = (some (.error other), behind) ∧
        R behind.toCursor after.toCursor ∧ behind.failed = true := by
  unfold Decoder.next at hnext
  simp only [hb, Bool.false_eq_true, if_false] at hnext
  cases hp : WordSource.pull bytes.source with
  | word uid rest =>
    simp only [hp] at hnext
    obtain ⟨rest', hpull, hrest⟩ := h.word hR hp
    have hfirst := takes_word hp
    cases hr : readRecord uid ⟨rest, bytes.offset + 8⟩ with
    | ok found cursor => simp [hr] at hnext
    | error found cursor =>
      simp only [hr, Prod.mk.injEq, Option.some.injEq, Except.error.injEq] at hnext
      obtain ⟨rfl, rfl⟩ := hnext
      obtain ⟨hspans, hkind, hother⟩ := (follows_record h uid).error hrest hr
      refine ⟨hfirst.spans.trans hspans, rfl, hkind, ?_⟩
      intro other hbecome
      obtain ⟨cursor', hread, hcursor⟩ := hother other hbecome
      refine ⟨⟨cursor', true⟩, ?_, hcursor, rfl⟩
      simp only [Decoder.next, hd, Bool.false_eq_true, if_false, hpull, hread]
  | short count =>
    simp only [hp] at hnext
    cases count with
    | zero => simp at hnext
    | succ count =>
      simp only [Prod.mk.injEq, Option.some.injEq, Except.error.injEq] at hnext
      obtain ⟨rfl, rfl⟩ := hnext
      refine ⟨Spans.refl _, rfl, .inr ⟨length_lt_of_short hp, .trailingBytes (count + 1), rfl, rfl⟩, ?_⟩
      intro other hbecome
      exact ⟨_, h.trailing hR hd hp hbecome, hR, rfl⟩
  | failed text early => exact absurd hp (pullBytes_ne_failed _ _ _)

end

end RegionPlanner
