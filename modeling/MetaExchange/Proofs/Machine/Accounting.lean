import MetaExchange.Proofs.Machine.Integrity

/-!
What the reports of pieces say, over whole runs. The number in a report is that of the distinct indices
reported so far, whatever came twice; the exchange closes right behind the report that names the last of
them, and until then its table has a slot that is not filled.
-/

namespace MetaExchange

namespace Exchange

def Action.pieceIndex? : Action → Option Nat
  | .report (.pieceReceived index _ _) => some index
  | _ => none

/-- The indices that were reported, each of them once. -/
def reportedPieces (actions : List Action) : Finset Nat :=
  (actions.filterMap Action.pieceIndex?).toFinset

variable {exchange next : Exchange} {frame : Bytes} {told actions : List Action}
  {index received pieceCount : Nat}

@[simp] theorem Action.pieceIndex?_eq_some_iff {action : Action} :
    action.pieceIndex? = some index ↔
      ∃ received pieceCount, action = .report (.pieceReceived index received pieceCount) := by
  cases action with
  | send message => simp [pieceIndex?]
  | report event => cases event <;> simp [pieceIndex?]

@[simp] theorem mem_reportedPieces :
    index ∈ reportedPieces actions ↔
      ∃ received pieceCount, .report (.pieceReceived index received pieceCount) ∈ actions := by
  simp only [reportedPieces, List.mem_toFinset, List.mem_filterMap, Action.pieceIndex?_eq_some_iff]
  constructor
  · intro given
    obtain ⟨_, member, received, pieceCount, rfl⟩ := given
    exact ⟨received, pieceCount, member⟩
  · intro given
    obtain ⟨received, pieceCount, member⟩ := given
    exact ⟨_, member, received, pieceCount, rfl⟩

theorem reportedPieces_append (first second : List Action) :
    reportedPieces (first ++ second) = reportedPieces first ∪ reportedPieces second := by
  simp [reportedPieces]

theorem reportedPieces_closing (actions : List Action) (verdict : Except Fault Metadata) :
    reportedPieces (actions ++ [.report (closingEvent verdict)]) = reportedPieces actions := by
  have nothing : reportedPieces [.report (closingEvent verdict)] = ∅ := by cases verdict <;> rfl
  rw [reportedPieces_append, nothing, Finset.union_empty]

/-- Behind the last report of a piece, nothing changes the indices. -/
theorem exists_last_report (some : (reportedPieces actions).Nonempty) :
    ∃ before index received pieceCount behind,
      actions = before ++ .report (.pieceReceived index received pieceCount) :: behind ∧
      reportedPieces (before ++ [.report (.pieceReceived index received pieceCount)]) =
        reportedPieces actions := by
  induction actions using List.reverseRecOn with
  | nil => simp [reportedPieces] at some
  | append_singleton actions last ih =>
      cases reported : last.pieceIndex? with
      | some index =>
          obtain ⟨received, pieceCount, rfl⟩ := Action.pieceIndex?_eq_some_iff.mp reported
          exact ⟨actions, index, received, pieceCount, [], rfl, rfl⟩
      | none =>
          have same : reportedPieces (actions ++ [last]) = reportedPieces actions := by
            simp [reportedPieces, reported]
          rw [same] at some ⊢
          obtain ⟨before, index, received, pieceCount, behind, rfl, whole⟩ := ih some
          exact ⟨before, index, received, pieceCount, behind ++ [last], by simp, whole⟩

/-! ### What one step reports -/

/-- A step that reports a piece stores it. It goes on while the table is not complete, and closes the
exchange when it is. -/
theorem Step.piece_cases (step : exchange.Step frame next actions)
    (reported : .report (.pieceReceived index received pieceCount) ∈ actions) :
    ∃ number payload before after, frame = Message.Kind.extended.toByte :: number :: payload ∧
      exchange.table = some before ∧ store before payload = .ok (index, after) ∧
      received = after.received ∧ pieceCount = after.pieceCount ∧
      ((next.table = some after ∧ actions = [.report (.pieceReceived index received pieceCount)]) ∨
        (after.isComplete = true ∧ next.isFinished = true ∧
          actions = [.report (.pieceReceived index received pieceCount),
            .report (closingEvent (exchange.verdict after))])) := by
  cases step with
  | stored awaited held numbered stores incomplete =>
      cases List.mem_singleton.mp reported
      exact ⟨_, _, _, _, rfl, held, stores, rfl, rfl, .inl ⟨rfl, rfl⟩⟩
  | completed awaited held numbered stores complete =>
      rcases List.mem_cons.mp reported with same | last
      · cases same
        exact ⟨_, _, _, _, rfl, held, stores, rfl, rfl, .inr ⟨complete, rfl, rfl⟩⟩
      · have closing := Action.report.inj (List.mem_singleton.mp last)
        exact absurd closing.symm (closingEvent_ne_pieceReceived _ _ _ _)
  | agreed awaited tableless negotiated => simp at reported
  | greeted awaited parsed => simp at reported
  | refused refuses => simp at reported
  | _ => cases reported

theorem Step.exists_stored (step : exchange.Step frame next actions)
    (reported : .report (.pieceReceived index received pieceCount) ∈ actions) :
    ∃ data, Stored ⟨frame, actions⟩ index data := by
  obtain ⟨number, payload, before, after, rfl, _, stores, _⟩ := step.piece_cases reported
  obtain ⟨message, _, decoded, _⟩ := store_eq_ok_iff.mp stores
  exact ⟨message.data, number, payload, message, received, pieceCount, rfl, decoded, rfl, reported⟩

theorem Account.pieceCount_pos (account : Account told exchange) {size : Nat}
    (agreed : .report (.extendedOk size pieceCount) ∈ told) : 0 < pieceCount := by
  obtain ⟨stage, valid, _, back⟩ := account.exists_stage_of_told
  obtain ⟨_, _, _, rfl, _, rfl⟩ := stage.eq_collecting_of_mem_actions (back _ agreed rfl)
  exact valid.2.2.1.1

theorem Account.lt_of_mem_reportedPieces (account : Account told exchange) {size : Nat}
    (agreed : .report (.extendedOk size pieceCount) ∈ told) (reported : index ∈ reportedPieces told) :
    index < pieceCount := by
  obtain ⟨received, count, member⟩ := mem_reportedPieces.mp reported
  obtain ⟨inside, _, same⟩ := account.piece_of_mem member
  rw [account.agreed_unique agreed same]
  exact inside

end Exchange

namespace Machine

open Exchange (Account Action Collects LastStored Stage Stored closingEvent frameHandler reportedPieces)

variable {infoHash : InfoHash} {verify : Bool} {last : Exchange}
  {history : List (Stream.Delivery Action)} {delivery : Stream.Delivery Action}
  {before behind : List Action} {index received pieceCount : Nat}

/-! ### What a run reports -/

/-- The reports name the indices for which a piece was stored. -/
theorem mem_reportedPieces_of_run (run : frameHandler.Run (.fresh infoHash verify) history last) :
    index ∈ reportedPieces (history.flatMap (·.outputs)) ↔ ∃ data, LastStored history index data := by
  constructor
  · apply invariant_of_step
      (motive := fun past _ => index ∈ reportedPieces (past.flatMap (·.outputs)) →
        ∃ data, LastStored past index data) run (by simp)
    intro past exchange frame next actions known step reported
    rw [List.flatMap_append, Exchange.reportedPieces_append, Finset.mem_union] at reported
    by_cases now : ∃ data, Stored ⟨frame, actions⟩ index data
    · obtain ⟨data, stored⟩ := now
      exact ⟨data, Exchange.lastStored_append_iff.mpr (.inl stored)⟩
    rcases reported with earlier | here
    · obtain ⟨data, stored⟩ := known earlier
      exact ⟨data, Exchange.lastStored_append_iff.mpr (.inr ⟨not_exists.mp now, stored⟩)⟩
    · obtain ⟨received, pieceCount, here⟩ := Exchange.mem_reportedPieces.mp here
      exact absurd (step.exists_stored (by simpa using here)) now
  · intro given
    obtain ⟨data, earlier, delivery, later, rfl, stored, _⟩ := given
    obtain ⟨_, _, _, received, pieceCount, _, _, _, reported⟩ := stored
    simp only [Exchange.mem_reportedPieces, List.mem_flatMap]
    exact ⟨received, pieceCount, delivery, by simp, reported⟩

/-- While an exchange holds a table, the counter of the table is the number of indices reported, and
there is a slot that is not filled. -/
theorem counted_of_run (run : frameHandler.Run (.fresh infoHash verify) history last)
    {table : Piece.Table} (held : last.table = some table) :
    (∃ size, .report (.extendedOk size table.pieceCount) ∈ history.flatMap (·.outputs)) ∧
      table.received = (reportedPieces (history.flatMap (·.outputs))).card ∧
      table.received < table.pieceCount := by
  have account := account_of_run run
  have ongoing := account.isFinished_eq_false held
  obtain ⟨content, collects⟩ := collects_of_run run ongoing
  have holds := collects.held table held
  obtain ⟨stage, _, fits, told⟩ := account.exists_stage ongoing
  obtain ⟨peerId, terms, receipts, _, rfl, _, sized, incomplete⟩ := fits.eq_collecting held
  have agreed : .report (.extendedOk terms.metadataSize table.pieceCount) ∈
      history.flatMap (·.outputs) := by
    rw [told, sized.pieceCount]
    exact Stage.agreed_mem_actions
  have same : ((Finset.range (Piece.count table.metadataSize)).filter
      fun index => (content index).isSome = true) = reportedPieces (history.flatMap (·.outputs)) := by
    ext index
    rw [Finset.mem_filter, Finset.mem_range, Option.isSome_iff_exists, mem_reportedPieces_of_run run,
      ← holds.pieceCount]
    simp only [collects.records index, and_iff_right_iff_imp]
    intro stored
    exact account.lt_of_mem_reportedPieces agreed ((mem_reportedPieces_of_run run).mpr stored)
  have counted := holds.received_eq_card
  refine ⟨⟨_, agreed⟩, by rw [counted, same], ?_⟩
  have different : table.received ≠ table.pieceCount := by
    simpa [Piece.Table.isComplete] using incomplete
  have atMost := Finset.card_filter_le (Finset.range (Piece.count table.metadataSize))
    fun index => (content index).isSome = true
  rw [← counted, Finset.card_range, ← holds.pieceCount] at atMost
  omega

/-- A frame that stores a piece is right about the number of pieces: either there is one missing, or it
completes them and the exchange closes. -/
theorem report_of_run {earlier : List (Stream.Delivery Action)}
    (run : frameHandler.Run (.fresh infoHash verify) (earlier ++ [delivery]) last)
    (reported : .report (.pieceReceived index received pieceCount) ∈ delivery.outputs) :
    (∃ size, .report (.extendedOk size pieceCount) ∈ earlier.flatMap (·.outputs)) ∧
      received = (reportedPieces ((earlier ++ [delivery]).flatMap (·.outputs))).card ∧
      ((received < pieceCount ∧
          delivery.outputs = [.report (.pieceReceived index received pieceCount)]) ∨
        (received = pieceCount ∧ last.isFinished = true ∧ ∃ verdict,
          delivery.outputs = [.report (.pieceReceived index received pieceCount),
            .report (closingEvent verdict)])) := by
  obtain ⟨exchange, next, before, step, onward⟩ := exists_step_of_run run
  cases onward
  obtain ⟨number, payload, table, after, frame, held, stores, rfl, rfl, goesOn | closes⟩ :=
    step.piece_cases reported
  · obtain ⟨heldNow, only⟩ := goesOn
    obtain ⟨⟨size, agreed⟩, counted, less⟩ := counted_of_run run heldNow
    exact ⟨⟨size, by simpa [only] using agreed⟩, counted, .inl ⟨less, only⟩⟩
  · obtain ⟨complete, finished, both⟩ := closes
    have ongoing := step.isFinished_eq_false
    obtain ⟨content, collects⟩ := collects_of_run before ongoing
    obtain ⟨peerId, terms, receipts, told, filled, pieces, _, _, assembled⟩ :=
      assembled_of_stores (account_of_run before) ongoing collects held stores complete number
        (exchange.verdict after)
    rw [← frame, ← both] at assembled
    have agreed : .report (.extendedOk terms.metadataSize after.pieceCount) ∈
        earlier.flatMap (·.outputs) := by
      rw [told, pieces]
      exact Stage.agreed_mem_actions
    have agreedNow : .report (.extendedOk terms.metadataSize after.pieceCount) ∈
        (earlier ++ [delivery]).flatMap (·.outputs) := by
      rw [List.flatMap_append]
      exact List.mem_append_left _ agreed
    have all : reportedPieces ((earlier ++ [delivery]).flatMap (·.outputs)) =
        Finset.range after.pieceCount := by
      ext other
      rw [Finset.mem_range]
      refine ⟨(account_of_run run).lt_of_mem_reportedPieces agreedNow, fun inside => ?_⟩
      obtain ⟨piece, stored, _⟩ := assembled
      exact (mem_reportedPieces_of_run run).mpr ⟨_, stored other (pieces ▸ inside)⟩
    have full : after.received = after.pieceCount := filled.trans pieces.symm
    exact ⟨⟨_, agreed⟩, by rw [all, Finset.card_range, full], .inr ⟨full, finished, _, both⟩⟩

/-- What a report of a piece says of the reports before it, and what follows it. -/
structure Accurate (before : List Action) (index received pieceCount : Nat) (behind : List Action) :
    Prop where
  agreed : ∃ size, .report (.extendedOk size pieceCount) ∈ before
  inside : index < pieceCount
  counted : received =
    (reportedPieces (before ++ [.report (.pieceReceived index received pieceCount)])).card
  closes : received < pieceCount ∨
    received = pieceCount ∧ ∃ verdict, behind = [.report (closingEvent verdict)]

theorem accurate_of_run (run : frameHandler.Run (.fresh infoHash verify) history last)
    (parts : history.flatMap (·.outputs) =
      before ++ .report (.pieceReceived index received pieceCount) :: behind) :
    Accurate before index received pieceCount behind := by
  have member : .report (.pieceReceived index received pieceCount) ∈ history.flatMap (·.outputs) := by
    simp [parts]
  obtain ⟨inside, _⟩ := (account_of_run run).piece_of_mem member
  obtain ⟨earlier, delivery, later, front, back, rfl, shape, rfl, rfl⟩ :=
    Stream.exists_delivery_of_outputs parts
  rw [List.append_cons] at run
  obtain ⟨middle, upTo, onward⟩ := run.split
  have here : .report (.pieceReceived index received pieceCount) ∈ delivery.outputs := by simp [shape]
  obtain ⟨agreed, counted, goesOn⟩ := report_of_run upTo here
  -- Nothing stands before the piece in what came of its frame, as there is no other piece in it.
  have first : ∀ rest,
      delivery.outputs = .report (.pieceReceived index received pieceCount) :: rest →
      .report (.pieceReceived index received pieceCount) ∉ rest → front = [] ∧ back = rest := by
    intro rest starts others
    rw [starts, List.cons_eq_append_iff] at shape
    rcases shape with ⟨nothing, same⟩ | ⟨more, _, same⟩
    · exact ⟨nothing, (List.cons.inj same).2⟩
    · exact absurd (by simp [same]) others
  rw [List.flatMap_append, List.flatMap_singleton] at counted
  rcases goesOn with ⟨less, only⟩ | ⟨full, finished, verdict, both⟩
  · obtain ⟨rfl, rfl⟩ := first [] only List.not_mem_nil
    rw [only] at counted
    exact ⟨by simpa using agreed, inside, by simpa using counted, .inl less⟩
  · have unreported : .report (.pieceReceived index received pieceCount) ∉
        [Action.report (closingEvent verdict)] := by
      cases verdict <;> simp [closingEvent]
    obtain ⟨rfl, rfl⟩ := first _ both unreported
    obtain ⟨rfl, _⟩ := onward.nil_of_finished (demand_eq_none_iff.mpr finished)
    rw [both, List.append_cons, Exchange.reportedPieces_closing] at counted
    exact ⟨by simpa using agreed, inside, by simpa using counted, .inr ⟨full, verdict, by simp⟩⟩

/-- The exchange closes with the report of all pieces exactly when all indices were reported. -/
theorem closes_iff_of_run (run : frameHandler.Run (.fresh infoHash verify) history last) {size : Nat}
    (agreed : .report (.extendedOk size pieceCount) ∈ history.flatMap (·.outputs)) :
    (reportedPieces (history.flatMap (·.outputs))).card = pieceCount ↔
      ∃ before index verdict, history.flatMap (·.outputs) =
        before ++ [.report (.pieceReceived index pieceCount pieceCount),
          .report (closingEvent verdict)] := by
  have account := account_of_run run
  constructor
  · intro all
    have some : (reportedPieces (history.flatMap (·.outputs))).Nonempty := by
      rw [← Finset.card_pos, all]
      exact account.pieceCount_pos agreed
    obtain ⟨before, index, received, count, behind, parts, same⟩ := Exchange.exists_last_report some
    have accurate := accurate_of_run run parts
    have sameCount : count = pieceCount := by
      obtain ⟨size, told⟩ := accurate.agreed
      have told := List.mem_append_left (.report (.pieceReceived index received count) :: behind) told
      rw [← parts] at told
      exact account.agreed_unique told agreed
    have full : received = count := by rw [accurate.counted, same, all, sameCount]
    rcases accurate.closes with less | ⟨_, verdict, rfl⟩
    · exact absurd full (Nat.ne_of_lt less)
    · rw [full, sameCount] at parts
      exact ⟨before, index, verdict, parts⟩
  · intro given
    obtain ⟨before, index, verdict, parts⟩ := given
    have counted := (accurate_of_run run parts).counted
    rw [parts, List.append_cons, Exchange.reportedPieces_closing]
    exact counted.symm

/-- Metadata are reported only right behind the last piece. -/
theorem closes_of_done (run : frameHandler.Run (.fresh infoHash verify) history last)
    {metadata : Metadata} (reported : .report (.done metadata) ∈ history.flatMap (·.outputs)) :
    ∃ before index pieceCount, history.flatMap (·.outputs) =
      before ++ [.report (.pieceReceived index pieceCount pieceCount), .report (.done metadata)] := by
  obtain ⟨earlier, delivery, exchange, next, _, rfl, reportedNow, _, _, _, _, step, finished⟩ :=
    exists_ending_of_run run reported rfl
  rcases step.end_cases finished with ⟨fault, failed⟩ | ⟨_, _, _, after, index, _, _, _, complete, ending⟩
  · simp [failed] at reportedNow
  · have full : after.received = after.pieceCount := by simpa [Piece.Table.isComplete] using complete
    have done : closingEvent (exchange.verdict after) = .done metadata := by
      simpa [ending, eq_comm] using reportedNow
    exact ⟨earlier.flatMap (·.outputs), index, after.pieceCount, by simp [ending, done, full]⟩

/-- Whatever is fed to a machine, its reports of pieces are right: each names a piece of the metadata that
were agreed on, and counts the distinct indices reported so far, itself included, so that no later count
is lower. Behind a count of all pieces, the verdict follows at once. A machine that holds a table has a
piece missing. So the pieces are complete exactly when all indices were reported, and there are metadata
only then. -/
theorem feedAll_accurate (infoHash : InfoHash) (peerId : PeerId) (verify : Bool) (reads : List Bytes) :
    let after := ((fresh infoHash peerId verify).feedAll reads).1
    let actions := ((fresh infoHash peerId verify).feedAll reads).2
    (∀ before index received pieceCount behind,
      actions = before ++ .report (.pieceReceived index received pieceCount) :: behind →
      Accurate before index received pieceCount behind ∧
      (∀ size agreed, .report (.extendedOk size agreed) ∈ actions → pieceCount = agreed) ∧
      ∀ other fewer count, .report (.pieceReceived other fewer count) ∈ before → fewer ≤ received) ∧
    (∀ table, after.exchange.table = some table →
      (∃ size, .report (.extendedOk size table.pieceCount) ∈ actions) ∧
      table.received = (reportedPieces actions).card ∧ table.received < table.pieceCount) ∧
    (∀ size pieceCount, .report (.extendedOk size pieceCount) ∈ actions →
      ((reportedPieces actions).card = pieceCount ↔
        ∃ before index verdict, actions =
          before ++ [.report (.pieceReceived index pieceCount pieceCount),
            .report (closingEvent verdict)])) ∧
    ∀ metadata, .report (.done metadata) ∈ actions →
      ∃ before index pieceCount, actions =
        before ++ [.report (.pieceReceived index pieceCount pieceCount),
          .report (.done metadata)] := by
  intro after actions
  obtain ⟨history, recorded⟩ := exists_history (settled_fresh infoHash peerId verify) reads
  have run : frameHandler.Run (.fresh infoHash verify) history after.exchange := recorded.run
  have told : actions = history.flatMap (·.outputs) := recorded.actions
  rw [told]
  refine ⟨?_, fun table => counted_of_run run, fun size pieceCount => closes_iff_of_run run,
    fun metadata => closes_of_done run⟩
  intro before index received pieceCount behind parts
  have accurate := accurate_of_run run parts
  refine ⟨accurate, ?_, ?_⟩
  · intro size agreed member
    obtain ⟨_, before⟩ := accurate.agreed
    exact (account_of_run run).agreed_unique (by rw [parts]; exact List.mem_append_left _ before) member
  · intro other fewer count member
    obtain ⟨front, between, rfl⟩ := List.append_of_mem member
    have earlier := accurate_of_run run (parts.trans (List.append_assoc _ _ _))
    have more : reportedPieces (front ++ [.report (.pieceReceived other fewer count)]) ⊆
        reportedPieces (front ++ .report (.pieceReceived other fewer count) :: between ++
          [.report (.pieceReceived index received pieceCount)]) := by
      rw [List.append_cons front _ between, List.append_assoc, Exchange.reportedPieces_append (front ++ _)]
      exact Finset.subset_union_left
    have counted := Finset.card_le_card more
    rwa [← earlier.counted, ← accurate.counted] at counted

end Machine

end MetaExchange
