import Mathlib.Data.List.Basic
import Mathlib.Data.List.Induction
import MetaExchange.Proofs.Exchange.Rules
import MetaExchange.Proofs.Stream.Delivery

/-!
Which pieces were received, by the frames that were handed on and what came of them. Of the pieces sent
for one index, the last that was stored counts; the table of an exchange holds exactly those
(`collects_step`).
-/

namespace MetaExchange.Exchange

variable {delivery : Stream.Delivery Action} {history : List (Stream.Delivery Action)}
  {index : Nat} {data : Bytes} {content : Nat → Option Bytes}

/-- A piece came with a frame, and was reported as stored. -/
def Stored (delivery : Stream.Delivery Action) (index : Nat) (data : Bytes) : Prop :=
  ∃ number payload message received pieceCount,
    delivery.frame = Message.Kind.extended.toByte :: number :: payload ∧
    Extension.MetadataMessage.decode payload = .ok message ∧ message.data = data ∧
    .report (.pieceReceived index received pieceCount) ∈ delivery.outputs

/-- The piece was stored, and none was stored for its index after it. -/
def LastStored (history : List (Stream.Delivery Action)) (index : Nat) (data : Bytes) : Prop :=
  ∃ earlier delivery later, history = earlier ++ delivery :: later ∧ Stored delivery index data ∧
    ∀ other ∈ later, ∀ piece, ¬ Stored other index piece

/-- The data are the pieces that were stored last, in the order of their indices. -/
def Assembled (history : List (Stream.Delivery Action)) (pieceCount : Nat) (data : Bytes) : Prop :=
  ∃ piece : Nat → Bytes, (∀ index < pieceCount, LastStored history index (piece index)) ∧
    data = (List.range pieceCount).flatMap piece

theorem not_lastStored_nil : ¬ LastStored [] index data := by
  intro given
  obtain ⟨earlier, delivery, later, parts, _⟩ := given
  simp at parts

/-- What was stored last, after one more frame: what came with this frame, or what was stored last
before it, if nothing came for the index. -/
theorem lastStored_append_iff :
    LastStored (history ++ [delivery]) index data ↔
      Stored delivery index data ∨
        (∀ piece, ¬ Stored delivery index piece) ∧ LastStored history index data := by
  constructor
  · intro given
    obtain ⟨earlier, found, later, parts, stored, last⟩ := given
    rcases List.eq_nil_or_concat later with rfl | ⟨front, final, rfl⟩
    · obtain ⟨_, same⟩ := List.append_inj' parts rfl
      cases same
      exact .inl stored
    · have shifted : history ++ [delivery] = (earlier ++ found :: front) ++ [final] := by
        simpa using parts
      obtain ⟨before, same⟩ := List.append_inj' shifted rfl
      cases same
      refine .inr ⟨last delivery (by simp), earlier, found, front, before, stored, ?_⟩
      intro other member
      exact last other (by simp [member])
  · intro given
    rcases given with stored | ⟨nothing, earlier, found, later, rfl, stored, last⟩
    · exact ⟨history, delivery, [], rfl, stored, by simp⟩
    · refine ⟨earlier, found, later ++ [delivery], by simp, stored, ?_⟩
      intro other member
      rcases List.mem_append.mp member with before | final
      · exact last other before
      · rw [List.mem_singleton.mp final]
        exact nothing

theorem Stored.unique {other : Bytes} (one : Stored delivery index data)
    (another : Stored delivery index other) : data = other := by
  obtain ⟨_, _, _, _, _, frame, decoded, rfl, _⟩ := one
  obtain ⟨_, _, _, _, _, same, redecoded, rfl, _⟩ := another
  rw [frame] at same
  cases same
  rw [decoded] at redecoded
  cases redecoded
  rfl

theorem LastStored.unique {other : Bytes} (one : LastStored history index data)
    (another : LastStored history index other) : data = other := by
  induction history using List.reverseRecOn with
  | nil => exact absurd one not_lastStored_nil
  | append_singleton history delivery ih =>
      rcases lastStored_append_iff.mp one with now | ⟨nothing, before⟩
      · rcases lastStored_append_iff.mp another with stored | ⟨nothing, _⟩
        · exact now.unique stored
        · exact absurd now (nothing data)
      · rcases lastStored_append_iff.mp another with stored | ⟨_, earlier⟩
        · exact absurd stored (nothing other)
        · exact ih before earlier

theorem Assembled.unique {pieceCount : Nat} {other : Bytes} (one : Assembled history pieceCount data)
    (another : Assembled history pieceCount other) : data = other := by
  obtain ⟨piece, last, rfl⟩ := one
  obtain ⟨piece', last', rfl⟩ := another
  apply List.flatMap_congr
  intro index member
  have within := List.mem_range.mp member
  exact (last index within).unique (last' index within)

/-- The pieces that were stored last, as a function of their indices. -/
def Records (history : List (Stream.Delivery Action)) (content : Nat → Option Bytes) : Prop :=
  ∀ index data, content index = some data ↔ LastStored history index data

theorem records_nil : Records [] fun _ => none := by
  intro index data
  simp [not_lastStored_nil]

namespace Records

theorem keep (records : Records history content)
    (nothing : ∀ index data, ¬ Stored delivery index data) :
    Records (history ++ [delivery]) content := by
  intro index data
  rw [lastStored_append_iff, records index data]
  simp [nothing]

theorem update (records : Records history content)
    (only : ∀ other piece, Stored delivery other piece ↔ other = index ∧ piece = data) :
    Records (history ++ [delivery]) (Function.update content index (some data)) := by
  intro other piece
  rw [lastStored_append_iff]
  simp only [only]
  by_cases same : other = index
  · rw [same, Function.update_self]
    simp [eq_comm]
  · rw [Function.update_of_ne same, records other piece]
    simp [same]

theorem assembled_iff (records : Records history content) {pieceCount : Nat} :
    Assembled history pieceCount data ↔
      (∀ index < pieceCount, (content index).isSome = true) ∧
        data = (List.range pieceCount).flatMap fun index => (content index).getD [] := by
  constructor
  · intro given
    obtain ⟨piece, last, rfl⟩ := given
    have known : ∀ index < pieceCount, content index = some (piece index) :=
      fun index within => (records index _).mpr (last index within)
    refine ⟨fun index within => by simp [known index within], ?_⟩
    apply List.flatMap_congr
    intro index member
    rw [known index (List.mem_range.mp member), Option.getD_some]
  · intro given
    obtain ⟨filled, rfl⟩ := given
    refine ⟨fun index => (content index).getD [], ?_, rfl⟩
    intro index within
    obtain ⟨piece, held⟩ := Option.isSome_iff_exists.mp (filled index within)
    have last := (records index piece).mp held
    simpa [held] using last

end Records

variable {exchange next : Exchange} {frame : Bytes} {actions : List Action}

theorem not_stored_of_forall_ne
    (unreported : ∀ index received pieceCount,
      .report (.pieceReceived index received pieceCount) ∉ delivery.outputs) (index : Nat)
    (data : Bytes) : ¬ Stored delivery index data := by
  intro given
  obtain ⟨_, _, _, received, pieceCount, _, _, _, reported⟩ := given
  exact unreported index received pieceCount reported

theorem stored_iff {payload : Bytes} {before after : Piece.Table}
    (stores : store before payload = .ok (index, after)) (number : UInt8) (received pieceCount : Nat)
    (others : List Action) (unreported : ∀ index received pieceCount,
      .report (.pieceReceived index received pieceCount) ∉ others) :
    ∃ data status, before.insert index data = .ok (status, after) ∧
      ∀ other piece,
        Stored ⟨Message.Kind.extended.toByte :: number :: payload,
            .report (.pieceReceived index received pieceCount) :: others⟩ other piece ↔
          other = index ∧ piece = data := by
  obtain ⟨message, status, decoded, _, _, _, inserted⟩ := store_eq_ok_iff.mp stores
  refine ⟨message.data, status, inserted, ?_⟩
  intro other piece
  constructor
  · intro given
    obtain ⟨_, _, _, _, _, same, redecoded, rfl, reported⟩ := given
    cases same
    rw [decoded] at redecoded
    cases redecoded
    rcases List.mem_cons.mp reported with this | elsewhere
    · cases this
      exact ⟨rfl, rfl⟩
    · exact absurd elsewhere (unreported _ _ _)
  · intro given
    obtain ⟨rfl, rfl⟩ := given
    exact ⟨number, payload, message, received, pieceCount, rfl, decoded, rfl, by simp⟩

/-- An exchange that goes on holds the pieces that were stored last, and none before the terms are
agreed on. -/
structure Collects (history : List (Stream.Delivery Action)) (exchange : Exchange)
    (content : Nat → Option Bytes) : Prop where
  records : Records history content
  nothing : exchange.table = none → content = fun _ => none
  held : ∀ table, exchange.table = some table → table.Holds table.metadataSize content

theorem collects_fresh (infoHash : InfoHash) (verify : Bool) :
    Collects [] (fresh infoHash verify) fun _ => none where
  records := records_nil
  nothing _ := rfl
  held table held := by cases held

theorem Collects.keep (collects : Collects history exchange content)
    (nothing : ∀ index data, ¬ Stored delivery index data) (same : next.table = exchange.table) :
    Collects (history ++ [delivery]) next content where
  records := collects.records.keep nothing
  nothing tableless := collects.nothing (same.symm.trans tableless)
  held table held := collects.held table (same.symm.trans held)

/-- Every step keeps the table in line with what was stored, unless it ends the exchange. -/
theorem collects_step (collects : Collects history exchange content)
    (step : exchange.Step frame next actions) :
    next.isFinished = true ∨ ∃ content, Collects (history ++ [⟨frame, actions⟩]) next content := by
  cases step with
  | protocolLength awaited =>
      exact .inr ⟨content, collects.keep (not_stored_of_forall_ne (by simp)) rfl⟩
  | greeted awaited parsed =>
      exact .inr ⟨content, collects.keep (not_stored_of_forall_ne (by simp)) rfl⟩
  | keptAlive awaited announced =>
      exact .inr ⟨content, collects.keep (not_stored_of_forall_ne (by simp)) rfl⟩
  | messageLength awaited announced positive short =>
      exact .inr ⟨content, collects.keep (not_stored_of_forall_ne (by simp)) rfl⟩
  | ignored awaited ignores =>
      exact .inr ⟨content, collects.keep (not_stored_of_forall_ne (by simp)) rfl⟩
  | @agreed size payload terms table awaited tableless negotiated =>
      obtain ⟨_, _, _, holds⟩ := valid_of_negotiate negotiated
      refine .inr ⟨content, collects.records.keep (not_stored_of_forall_ne ?_), ?_, ?_⟩
      · simp [requests]
      · intro absent
        cases absent
      · intro table same
        cases same
        rw [holds.size, collects.nothing tableless]
        exact holds
  | @stored size number payload before after index awaited held numbered stores incomplete =>
      obtain ⟨data, status, inserted, only⟩ :=
        stored_iff stores number after.received after.pieceCount [] (by simp)
      obtain ⟨_, _, holds⟩ := (collects.held before held).insert inserted
      refine .inr ⟨_, collects.records.update only, ?_, ?_⟩
      · intro absent
        cases absent
      · intro table same
        cases same
        rw [holds.size]
        exact holds
  | completed awaited held numbered stores complete => exact .inl rfl
  | refused refuses => exact .inl rfl

end MetaExchange.Exchange
