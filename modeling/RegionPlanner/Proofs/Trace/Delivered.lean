import RegionPlanner.Proofs.Trace.Calls
import RegionPlanner.Proofs.Trace.Following
import RegionPlanner.Proofs.Trace.RoundTrip
import RegionPlanner.Trace.Delivery

/-!
# Pieces do not matter

A trace that arrives in pieces is read as if it were there at once. If the delivery fails, the records that had
arrived as a whole are read, and then comes a fault: a delivery that failed is never taken for one that is complete.
-/

namespace RegionPlanner

/-! ### Words out of pieces -/

namespace Delivery

/-- The first failure: its text, and whether it calls itself an early end. -/
def failure? : List Delivery → Option (String × Bool)
  | [] => none
  | .interrupted :: rest => failure? rest
  | .failure text early :: _ => some (text, early)
  | .piece _ :: rest => failure? rest

/-- A source that has less than a word left ends, or it fails. -/
def endOf (tail : Option (String × Bool)) (count : Nat) : Pull (List Delivery) :=
  match tail with
  | none => .short count
  | some (text, early) => .failed text early

/-- A word is filled from what arrives, and what is left of it arrives next. -/
theorem pullWord_cases {got : List UInt8} (hgot : got.length < 8) (deliveries : List Delivery) :
    (∃ word rest, pullWord got deliveries = .word word rest ∧
      got ++ received deliveries = bytesOfWord word ++ received rest ∧ failure? rest = failure? deliveries) ∨
    ((got ++ received deliveries).length < 8 ∧
      pullWord got deliveries = endOf (failure? deliveries) (got ++ received deliveries).length) := by
  induction deliveries generalizing got with
  | nil =>
    right
    simp only [received, List.append_nil]
    exact ⟨hgot, rfl⟩
  | cons delivery rest ih =>
    cases delivery with
    | interrupted => exact ih hgot
    | failure text early =>
      right
      simp only [received, List.append_nil]
      exact ⟨hgot, rfl⟩
    | piece bytes =>
      simp only [pullWord, received, failure?, ← List.append_assoc]
      by_cases hshort : (got ++ bytes).length < 8
      · -- What has arrived is kept for the next piece, so the hypothesis is about more bytes.
        rw [if_pos hshort]
        exact ih hshort
      · rw [if_neg hshort]
        refine .inl ⟨_, _, rfl, ?_, rfl⟩
        have hword : ((got ++ bytes).take 8).length = 8 := by
          rw [List.length_take]
          omega
        rw [bytesOfWord_wordOfBytes _ hword]
        simp only [received]
        rw [← List.append_assoc, List.take_append_drop]

variable {deliveries : List Delivery}

theorem pullWord_of_word {word : UInt64} {rest : List UInt8} (h : pullBytes (received deliveries) = .word word rest) :
    ∃ left, pullWord [] deliveries = .word word left ∧ received left = rest ∧ failure? left = failure? deliveries := by
  have hbytes := pullBytes_eq_word h
  rcases @pullWord_cases [] (by decide) deliveries with ⟨other, left, hpull, hother, hfailure⟩ | ⟨hshort, -⟩
  · rw [List.nil_append, hbytes] at hother
    obtain ⟨rfl, rfl⟩ := bytesOfWord_append hother
    exact ⟨left, hpull, rfl, hfailure⟩
  · rw [List.nil_append, hbytes, List.length_append, length_bytesOfWord] at hshort
    omega

theorem pullWord_of_short {count : Nat} (h : pullBytes (received deliveries) = .short count) :
    pullWord [] deliveries = endOf (failure? deliveries) count := by
  have hcount := pullBytes_eq_short h
  have hless := length_lt_of_short h
  rcases @pullWord_cases [] (by decide) deliveries with ⟨word, left, -, hword, -⟩ | ⟨-, hpull⟩
  · have hlength := congrArg List.length hword
    rw [List.nil_append, List.length_append, length_bytesOfWord] at hlength
    omega
  · rw [hpull, List.nil_append, hcount]

end Delivery

/-! ### Faults of a delivery -/

/-- What a delivery that fails makes of a truncation. -/
def TraceFault.brokenBy (text : String) (early : Bool) : TraceFault → TraceFault
  | .truncated field => if early then .truncated field else .readFailedAt field text
  | .trailingBytes _ => .readFailed text
  | reason => reason

def Fault.brokenBy (tail : Option (String × Bool)) (fault : Fault) : Fault :=
  match tail, fault with
  | some (text, early), .trace offset reason => .trace offset (reason.brokenBy text early)
  | _, fault => fault

theorem Fault.brokenBy_of_isRefusal {fault : Fault} (h : fault.isRefusal = true) (tail : Option (String × Bool)) :
    fault.brokenBy tail = fault := by
  cases tail with
  | none => rfl
  | some failure =>
    cases fault with
    | trace offset reason =>
      cases reason with
      | strayTarget => rfl
      | badParallelBit => rfl
      | _ => cases h
    | _ => rfl

/-- The fault says that the delivery failed. -/
def TraceFault.Tells (text : String) (early : Bool) (reason : TraceFault) : Prop :=
  reason = .readFailed text ∨ ∃ field, reason = if early then .truncated field else .readFailedAt field text

theorem TraceFault.tells_brokenBy {reason : TraceFault} (h : reason.isTruncation = true) (text : String) (early : Bool) :
    (reason.brokenBy text early).Tells text early := by
  cases reason with
  | truncated field => exact .inr ⟨field, rfl⟩
  | trailingBytes count => exact .inl rfl
  | _ => cases h

/-! ### Bytes that arrive and bytes that are there -/

/-- The same bytes are left, before the failure `tail` if there is one. -/
def Arrives (tail : Option (String × Bool)) (cursor : Cursor (List Delivery)) (bytes : Cursor (List UInt8)) : Prop :=
  Delivery.received cursor.source = bytes.source ∧ Delivery.failure? cursor.source = tail ∧ cursor.offset = bytes.offset

theorem arrives_matches (tail : Option (String × Bool)) :
    Matches (Arrives tail) (fun fault => some (fault.brokenBy tail)) := by
  constructor
  · rintro s t value left ⟨hsource, htail, hoffset⟩ hp
    rw [← hsource] at hp
    obtain ⟨rest, hpull, hreceived, hfailure⟩ := Delivery.pullWord_of_word hp
    refine ⟨rest, hpull, hreceived, hfailure.trans htail, ?_⟩
    show s.offset + 8 = t.offset + 8
    rw [hoffset]
  · rintro s t count name other ⟨hsource, htail, hoffset⟩ hp hbecome
    rw [← hsource] at hp
    have hpull : WordSource.pull s.source = Delivery.endOf tail count := htail ▸ Delivery.pullWord_of_short hp
    rw [← Option.some.inj hbecome, ← hoffset]
    unfold readField
    rw [hpull]
    cases tail with
    | none => rfl
    | some failure => rfl
  · rintro decoder t count other ⟨hsource, htail, hoffset⟩ hd hp hbecome
    rw [← hsource] at hp
    have hpull : WordSource.pull decoder.source = Delivery.endOf tail (count + 1) :=
      htail ▸ Delivery.pullWord_of_short hp
    rw [← Option.some.inj hbecome, ← hoffset]
    unfold Decoder.next
    rw [hd, hpull]
    cases tail with
    | none => rfl
    | some failure => rfl
  · rintro s t reason other ⟨-, -, hoffset⟩ hrefusal hbecome
    rw [← Option.some.inj hbecome, Fault.brokenBy_of_isRefusal hrefusal, hoffset]
  · intro uid code other hbecome
    rw [← Option.some.inj hbecome, Fault.brokenBy_of_isRefusal rfl]

namespace Decoder

section
variable {tail : Option (String × Bool)} {decoder : Decoder (List Delivery)} {bytes after : Decoder (List UInt8)}
  (h : Arrives tail decoder.toCursor bytes.toCursor) (hd : decoder.failed = false) (hb : bytes.failed = false)
include h hd hb

theorem next_arrives_end (hnext : bytes.next = (none, after)) : decoder.next =
    match tail with
    | none => (none, decoder)
    | some (text, _) => (some (.error (.trace decoder.offset (.readFailed text))), { decoder with failed := true }) := by
  obtain ⟨hsource, htail, -⟩ := h
  have hempty : Delivery.received decoder.source = [] := hsource.trans (next_end hb hnext)
  have hshort : pullBytes (Delivery.received decoder.source) = .short 0 := by
    rw [hempty]
    rfl
  have hpull : WordSource.pull decoder.source = Delivery.endOf tail 0 := htail ▸ Delivery.pullWord_of_short hshort
  unfold next
  rw [hd, hpull]
  cases tail with
  | none => rfl
  | some failure => rfl

end

section
variable {decoder : Decoder (List Delivery)} {bytes : Decoder (List UInt8)}

/-- A delivery that does not fail is asked like the bytes. -/
theorem next_arrives (h : Arrives none decoder.toCursor bytes.toCursor) (hfailed : decoder.failed = bytes.failed) :
    decoder.next.1 = bytes.next.1 ∧ Arrives none decoder.next.2.toCursor bytes.next.2.toCursor ∧
      decoder.next.2.failed = bytes.next.2.failed := by
  cases hb : bytes.failed with
  | true =>
    rw [next_failed hb, next_failed (hfailed.trans hb)]
    exact ⟨rfl, h, hfailed⟩
  | false =>
    have hd := hfailed.trans hb
    cases hnext : bytes.next with
    | mk item after =>
      rcases item with _ | fault | record
      · have hsame := eq_of_next_none hnext
        subst hsame
        rw [next_arrives_end h hd hb hnext]
        exact ⟨rfl, h, hfailed⟩
      · obtain ⟨-, hafter, -, hother⟩ := next_follows_fault (arrives_matches none) h hd hb hnext
        obtain ⟨behind, hbehind, harrives, hstop⟩ := hother fault rfl
        rw [hbehind]
        exact ⟨rfl, harrives, hstop.trans hafter.symm⟩
      · obtain ⟨-, hafter, behind, hbehind, harrives, hgoes⟩ :=
          next_follows_record (arrives_matches none) h hd hb hnext
        rw [hbehind]
        exact ⟨rfl, harrives, hgoes.trans hafter.symm⟩

theorem answer_arrives (h : Arrives none decoder.toCursor bytes.toCursor) (hfailed : decoder.failed = bytes.failed)
    (call : Nat) : decoder.answer call = bytes.answer call := by
  induction call generalizing decoder bytes with
  | zero =>
    obtain ⟨hitem, ⟨-, -, hoffset⟩, -⟩ := next_arrives h hfailed
    exact Prod.ext hitem hoffset
  | succ call ih =>
    obtain ⟨-, hrest, hstop⟩ := next_arrives h hfailed
    exact ih hrest hstop

/-- The answers of a delivery that fails: records as long as the bytes have some, then the fault that it ends with. -/
structure Breaks (text : String) (early : Bool) (decoder : Decoder (List Delivery)) (bytes : Decoder (List UInt8))
    (last : Nat) (fault : Fault) (offset : Nat) : Prop where
  bounded : last ≤ bytes.source.length
  records : ∀ call < last, ∃ record behind, decoder.answer call = (some (.ok record), behind) ∧
    bytes.answer call = (some (.ok record), behind)
  done : ∀ call ≥ last, ∀ record behind, bytes.answer call ≠ (some (.ok record), behind)
  ends : decoder.answer last = (some (.error fault), offset)
  silent : ∀ call > last, decoder.answer call = (none, offset)
  cause : fault.isRefusal = true ∧ bytes.answer last = (some (.error fault), offset) ∨
    offset = 8 * ((bytes.offset + bytes.source.length) / 8) ∧
      ∃ reason : TraceFault, reason.Tells text early ∧ fault = .trace offset reason

namespace Breaks

variable {text : String} {early : Bool} {after : Decoder (List UInt8)} {behind : Decoder (List Delivery)} {fault : Fault}

theorem first (hnext : decoder.next = (some (.error fault), behind)) (hfailed : behind.failed = true)
    (hdone : ∀ call record behind, bytes.answer call ≠ (some (.ok record), behind))
    (hcause : fault.isRefusal = true ∧ bytes.answer 0 = (some (.error fault), behind.offset) ∨
      behind.offset = 8 * ((bytes.offset + bytes.source.length) / 8) ∧
        ∃ reason : TraceFault, reason.Tells text early ∧ fault = .trace behind.offset reason) :
    Breaks text early decoder bytes 0 fault behind.offset := by
  obtain ⟨hfirst, hlater⟩ := answer_error hnext hfailed
  constructor
  · exact Nat.zero_le _
  · intro call hcall
    omega
  · intro call _
    exact hdone call
  · exact hfirst
  · intro call hcall
    obtain ⟨later, rfl⟩ := Nat.exists_eq_add_of_lt hcall
    rw [Nat.zero_add]
    exact hlater later
  · exact hcause

theorem cons {record : Record} {last offset : Nat} (hnext : decoder.next = (some (.ok record), behind))
    (hnext' : bytes.next = (some (.ok record), after)) (hoffset : behind.offset = after.offset)
    (hspans : Spans bytes.toCursor after.toCursor) (hrest : Breaks text early behind after last fault offset) :
    Breaks text early decoder bytes (last + 1) fault offset := by
  have hlength := next_record_length hnext'
  obtain ⟨hbounded, hrecords, hdone, hends, hsilent, hcause⟩ := hrest
  constructor
  · omega
  · intro call hcall
    cases call with
    | zero =>
      refine ⟨record, after.offset, ?_, ?_⟩
      · simp only [answer, hnext, hoffset]
      · simp only [answer, hnext']
    | succ call =>
      simp only [answer, hnext, hnext']
      exact hrecords call (Nat.lt_of_succ_lt_succ hcall)
  · intro call hcall
    cases call with
    | zero => omega
    | succ call =>
      simp only [answer, hnext']
      exact hdone call (Nat.le_of_succ_le_succ hcall)
  · simp only [answer, hnext]
    exact hends
  · intro call hcall
    cases call with
    | zero => omega
    | succ call =>
      simp only [answer, hnext]
      exact hsilent call (Nat.lt_of_succ_lt_succ hcall)
  · simp only [answer, hnext']
    rw [hspans.total] at hcause
    exact hcause

end Breaks

theorem exists_breaks {text : String} {early : Bool} (h : Arrives (some (text, early)) decoder.toCursor bytes.toCursor)
    (hd : decoder.failed = false) (hb : bytes.failed = false) (hwhole : bytes.offset % 8 = 0) :
    ∃ last fault offset, Breaks text early decoder bytes last fault offset := by
  -- By induction on the bytes that are left: every record takes some of them.
  induction hn : bytes.source.length using Nat.strong_induction_on generalizing decoder bytes with
  | _ n ih =>
    cases hnext : bytes.next with
    | mk item after =>
      rcases item with _ | fault | record
      · -- The bytes end cleanly, and the delivery does not.
        have hsame := eq_of_next_none hnext
        have hempty := next_end hb hnext
        have hbroken := next_arrives_end h hd hb hnext
        subst hsame
        refine ⟨0, _, _, Breaks.first hbroken rfl ?_ (.inr ⟨?_, _, .inl rfl, rfl⟩)⟩
        · intro call record behind
          rw [answer_none hnext]
          exact fun hnone => by cases hnone
        · show decoder.offset = _
          rw [h.2.2, hempty, List.length_nil]
          omega
      · -- A field of the bytes is refused, or they end within one and the delivery fails there.
        obtain ⟨hspans, hafter, hkind, hother⟩ := next_follows_fault (arrives_matches _) h hd hb hnext
        obtain ⟨behind, hbehind, ⟨-, -, hoffset⟩, hstop⟩ := hother _ rfl
        obtain ⟨hfirst, hlater⟩ := answer_error hnext hafter
        refine ⟨0, _, _, Breaks.first hbehind hstop ?_ ?_⟩
        · intro call record behind
          cases call with
          | zero =>
            rw [hfirst]
            exact fun hok => by cases hok
          | succ call =>
            rw [hlater]
            exact fun hok => by cases hok
        · rcases hkind with hrefusal | ⟨hshort, reason, hreason, rfl⟩
          · left
            rw [Fault.brokenBy_of_isRefusal hrefusal, hoffset]
            exact ⟨hrefusal, hfirst⟩
          · right
            have hend : after.offset = 8 * ((bytes.offset + bytes.source.length) / 8) := hspans.offset_eq hwhole hshort
            have hbehind' : behind.offset = after.offset := hoffset
            refine ⟨hbehind'.trans hend, _, TraceFault.tells_brokenBy hreason text early, ?_⟩
            rw [hbehind']
            rfl
      · obtain ⟨hspans, hafter, behind, hbehind, harrives, hgoes⟩ :=
          next_follows_record (arrives_matches _) h hd hb hnext
        have hlength := next_record_length hnext
        have hstart : after.offset % 8 = 0 := hspans.whole.trans hwhole
        obtain ⟨last, fault, offset, hrest⟩ := ih after.source.length (by omega) harrives hgoes hafter hstart rfl
        exact ⟨last + 1, fault, offset, hrest.cons hbehind hnext harrives.2.2 hspans⟩

end

end Decoder

/-! ### Traces that arrive -/

/-- A trace that arrives in pieces is read like one that is there at once. If the delivery fails, reading it ends with a
fault behind the last whole word, unless a field was refused before. -/
theorem trace_delivered (deliveries : List Delivery) :
    (Delivery.failure? deliveries = none →
      (∀ call, (Decoder.start deliveries).answer call =
        (Decoder.start (Delivery.received deliveries)).answer call) ∧
      decodeSource deliveries = decode (Delivery.received deliveries)) ∧
    ∀ text early, Delivery.failure? deliveries = some (text, early) → ∃ last fault offset,
      Decoder.Breaks text early (Decoder.start deliveries) (Decoder.start (Delivery.received deliveries))
        last fault offset ∧
      decodeSource deliveries = .error fault := by
  have harrives : Arrives (Delivery.failure? deliveries) (Decoder.start deliveries).toCursor
      (Decoder.start (Delivery.received deliveries)).toCursor := ⟨rfl, rfl, rfl⟩
  constructor
  · intro hnone
    rw [hnone] at harrives
    have hanswers := Decoder.answer_arrives harrives rfl
    have hitems : (Decoder.start deliveries).items = (Decoder.start (Delivery.received deliveries)).items :=
      Decoder.itemsWithin_congr rfl hanswers
    exact ⟨hanswers, congrArg (fun items => items.1.mapM (·.1)) hitems⟩
  · intro text early hsome
    rw [hsome] at harrives
    obtain ⟨last, fault, offset, hbreaks⟩ := Decoder.exists_breaks harrives rfl rfl rfl
    refine ⟨last, fault, offset, hbreaks, ?_⟩
    refine Decoder.mapM_itemsWithin_error (Nat.lt_succ_of_le hbreaks.bounded) ?_ hbreaks.ends
    intro call hcall
    obtain ⟨record, behind, hanswer, -⟩ := hbreaks.records call hcall
    exact ⟨record, behind, hanswer⟩

theorem trace_delivered_two_records :
    let first : Record := ⟨1, 0, 0, .normal, 0, 1, false, [5], [⟨1, 9, 9, 9, 100, 100, 0, 0, 0, 0⟩]⟩
    let second : Record := ⟨5, 3, 7, .sink, 4, 2, true, [], []⟩
    let bytes := encode [first, second]
    let pieces : List Delivery := [.interrupted, .piece (bytes.take 3), .piece ((bytes.drop 3).take 60), .interrupted,
      .interrupted, .piece (bytes.drop 63)]
    let broken : List Delivery := [.piece (bytes.take 100), .interrupted, .piece ((bytes.drop 100).take 52),
      .failure "device gone", .piece (bytes.drop 152)]
    decodeSource pieces = .ok [first, second] ∧
    ∃ last fault offset, Decoder.Breaks "device gone" false (Decoder.start broken) (Decoder.start (bytes.take 152))
      last fault offset := by
  intro first second bytes pieces broken
  have hpieces : Delivery.received pieces = bytes := by decide +kernel
  have hbroken : Delivery.received broken = bytes.take 152 := by decide +kernel
  constructor
  · rw [((trace_delivered pieces).1 rfl).2, hpieces]
    cbv
  · obtain ⟨last, fault, offset, hbreaks, -⟩ := (trace_delivered broken).2 "device gone" false rfl
    rw [hbroken] at hbreaks
    exact ⟨last, fault, offset, hbreaks⟩

end RegionPlanner
