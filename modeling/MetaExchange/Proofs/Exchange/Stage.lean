import MetaExchange.Proofs.Exchange.Rules

/-!
How far an exchange has come, and what it has told by then. The actions of an exchange are always those
of a stage, and behind them at most one event that ends the exchange (`Account`); every step keeps it so
(`account_step`).
-/

namespace MetaExchange.Exchange

/-- What comes of a greeting: it is reported, and answered with our announcement. -/
def greeting (peerId : PeerId) : List Action :=
  [.report (.handshakeOk peerId), .send Extension.ourAnnouncement]

/-- What comes of an announcement: the terms are reported, and every piece is asked for, in order. -/
def agreement (terms : Extension.Terms) : List Action :=
  .report (.extendedOk terms.metadataSize (Piece.count terms.metadataSize)) ::
    requests terms.metadataId (Piece.count terms.metadataSize)

@[simp] theorem report_mem_greeting {event : Event} {peerId : PeerId} :
    .report event ∈ greeting peerId ↔ event = .handshakeOk peerId := by
  simp [greeting]

@[simp] theorem report_not_mem_requests {event : Event} {metadataId : UInt8} {pieceCount : Nat} :
    .report event ∉ requests metadataId pieceCount := by
  simp [requests]

@[simp] theorem report_mem_agreement {event : Event} {terms : Extension.Terms} :
    .report event ∈ agreement terms ↔
      event = .extendedOk terms.metadataSize (Piece.count terms.metadataSize) := by
  simp [agreement]

/-- A piece was stored, and so many slots were filled then. -/
structure Receipt where
  index : Nat
  received : Nat

def Receipt.action (pieceCount : Nat) (receipt : Receipt) : Action :=
  .report (.pieceReceived receipt.index receipt.received pieceCount)

inductive Stage where
  | silent
  | greeted (peerId : PeerId)
  | collecting (peerId : PeerId) (terms : Extension.Terms) (receipts : List Receipt)

def Awaiting.inHandshake : Awaiting → Bool
  | .handshakeLength | .handshakeBody _ => true
  | _ => false

def Awaiting.inMessages : Awaiting → Bool
  | .messageLength | .messageBody _ => true
  | _ => false

theorem Awaiting.inMessages_of_inHandshake {awaiting : Awaiting}
    (handshake : awaiting.inHandshake = true) : awaiting.inMessages = false := by
  cases awaiting with
  | handshakeLength => rfl
  | handshakeBody protocolLength => rfl
  | _ => cases handshake

namespace Stage

def actions : Stage → List Action
  | .silent => []
  | .greeted peerId => greeting peerId
  | .collecting peerId terms receipts =>
    greeting peerId ++ agreement terms ++
      receipts.map (Receipt.action (Piece.count terms.metadataSize))

def metadataId : Stage → Option UInt8
  | .collecting _ terms _ => some terms.metadataId
  | _ => none

def receipts : Stage → List Receipt
  | .collecting _ _ receipts => receipts
  | _ => []

/-- The terms are within the limits, and the pieces are pieces of the metadata. -/
def Valid : Stage → Prop
  | .collecting _ terms receipts =>
    terms.metadataId ≠ 0 ∧ (0 < terms.metadataSize ∧ terms.metadataSize ≤ Piece.maxMetadataSize) ∧
      (1 ≤ Piece.count terms.metadataSize ∧ Piece.count terms.metadataSize ≤ 64) ∧
      ∀ receipt ∈ receipts, receipt.index < Piece.count terms.metadataSize
  | _ => True

/-- The state of an exchange that goes on, at each stage. A table that is held is never complete. -/
def Fits : Stage → Exchange → Prop
  | .silent, exchange =>
    exchange.awaiting.inHandshake = true ∧ exchange.table = none ∧ exchange.peerMetadataId = none
  | .greeted _, exchange =>
    exchange.awaiting.inMessages = true ∧ exchange.table = none ∧ exchange.peerMetadataId = none
  | .collecting _ terms _, exchange =>
    exchange.awaiting.inMessages = true ∧ exchange.peerMetadataId = some terms.metadataId ∧
      ∃ table content, exchange.table = some table ∧
        table.Holds terms.metadataSize content ∧ table.isComplete = false

theorem report_mem_collecting {peerId : PeerId} {terms : Extension.Terms} {receipts : List Receipt}
    {event : Event} :
    .report event ∈ (collecting peerId terms receipts).actions ↔
      event = .handshakeOk peerId ∨
      event = .extendedOk terms.metadataSize (Piece.count terms.metadataSize) ∨
      ∃ receipt ∈ receipts, event =
        .pieceReceived receipt.index receipt.received (Piece.count terms.metadataSize) := by
  simp [actions, Receipt.action, eq_comm]

theorem agreed_mem_actions {peerId : PeerId} {terms : Extension.Terms} {receipts : List Receipt} :
    .report (.extendedOk terms.metadataSize (Piece.count terms.metadataSize)) ∈
      (collecting peerId terms receipts).actions :=
  report_mem_collecting.mpr (.inr (.inl rfl))

theorem isTerminal_of_mem_actions (stage : Stage) {event : Event}
    (member : .report event ∈ stage.actions) : event.isTerminal = false := by
  cases stage with
  | silent => cases member
  | greeted peerId =>
      rw [report_mem_greeting.mp member]
      rfl
  | collecting peerId terms receipts =>
      rcases report_mem_collecting.mp member with rfl | rfl | ⟨_, _, rfl⟩ <;> rfl

/-- Terms are told at one stage only, together with the number of pieces. -/
theorem eq_collecting_of_mem_actions (stage : Stage) {size pieceCount : Nat}
    (member : .report (.extendedOk size pieceCount) ∈ stage.actions) :
    ∃ peerId terms receipts, stage = .collecting peerId terms receipts ∧
      size = terms.metadataSize ∧ pieceCount = Piece.count terms.metadataSize := by
  cases stage with
  | silent => cases member
  | greeted peerId => cases report_mem_greeting.mp member
  | collecting peerId terms receipts =>
      refine ⟨peerId, terms, receipts, rfl, ?_⟩
      simpa [report_mem_collecting] using member

/-- A piece is told only behind the terms, and it is one of their pieces. -/
theorem Valid.piece_of_mem_actions {stage : Stage} (valid : stage.Valid)
    {index received pieceCount : Nat}
    (reported : .report (.pieceReceived index received pieceCount) ∈ stage.actions) :
    index < pieceCount ∧ ∃ size, .report (.extendedOk size pieceCount) ∈ stage.actions := by
  cases stage with
  | silent => cases reported
  | greeted peerId => cases report_mem_greeting.mp reported
  | collecting peerId terms receipts =>
      rcases report_mem_collecting.mp reported with same | same | ⟨receipt, member, same⟩
      · cases same
      · cases same
      · cases same
        exact ⟨valid.2.2.2 receipt member, terms.metadataSize, agreed_mem_actions⟩

end Stage

/-- What an exchange has told, and the state it is in: it goes on at a stage, or it ended behind one.
It succeeds only right behind a piece. -/
inductive Account : List Action → Exchange → Prop where
  | ongoing {exchange : Exchange} (stage : Stage) (valid : stage.Valid) (fits : stage.Fits exchange) :
      Account stage.actions exchange
  | ended {exchange : Exchange} (stage : Stage) (verdict : Except Fault Metadata)
      (valid : stage.Valid) (behindPiece : verdict.isOk = true → stage.receipts ≠ [])
      (numbered : exchange.peerMetadataId = stage.metadataId)
      (finished : exchange.awaiting = .finished) (tableless : exchange.table = none) :
      Account (stage.actions ++ [.report (closingEvent verdict)]) exchange

variable {exchange next : Exchange} {frame : Bytes} {told : List Action}

theorem account_fresh (infoHash : InfoHash) (verify : Bool) : Account [] (fresh infoHash verify) :=
  .ongoing .silent trivial ⟨rfl, rfl, rfl⟩

theorem Stage.Fits.unfinished {stage : Stage} (fits : stage.Fits exchange) :
    exchange.isFinished = false := by
  unfold isFinished
  cases stage <;> cases awaited : exchange.awaiting <;>
    simp_all [Stage.Fits, Awaiting.inHandshake, Awaiting.inMessages]

theorem Stage.Fits.numbered {stage : Stage} (fits : stage.Fits exchange) :
    exchange.peerMetadataId = stage.metadataId := by
  cases stage with
  | silent => exact fits.2.2
  | greeted peerId => exact fits.2.2
  | collecting peerId terms receipts => exact fits.2.1

/-- Among messages, a stage does not depend on which part of a message is awaited. -/
theorem Stage.Fits.awaiting {stage : Stage} (fits : stage.Fits exchange)
    (now : exchange.awaiting.inMessages = true) {awaiting : Awaiting}
    (later : awaiting.inMessages = true) : stage.Fits { exchange with awaiting } := by
  cases stage with
  | silent =>
      rw [Awaiting.inMessages_of_inHandshake fits.1] at now
      cases now
  | greeted peerId => exact ⟨later, fits.2⟩
  | collecting peerId terms receipts => exact ⟨later, fits.2⟩

theorem Stage.Fits.eq_greeted {stage : Stage} (fits : stage.Fits exchange)
    (now : exchange.awaiting.inMessages = true) (tableless : exchange.table = none) :
    ∃ peerId, stage = .greeted peerId := by
  cases stage with
  | silent =>
      rw [Awaiting.inMessages_of_inHandshake fits.1] at now
      cases now
  | greeted peerId => exact ⟨peerId, rfl⟩
  | collecting peerId terms receipts =>
      obtain ⟨_, _, table, _, held, _⟩ := fits
      rw [tableless] at held
      cases held

theorem Stage.Fits.eq_collecting {stage : Stage} (fits : stage.Fits exchange) {table : Piece.Table}
    (held : exchange.table = some table) :
    ∃ peerId terms receipts content, stage = .collecting peerId terms receipts ∧
      exchange.peerMetadataId = some terms.metadataId ∧
      table.Holds terms.metadataSize content ∧ table.isComplete = false := by
  cases stage with
  | silent =>
      rw [fits.2.1] at held
      cases held
  | greeted peerId =>
      rw [fits.2.1] at held
      cases held
  | collecting peerId terms receipts =>
      obtain ⟨_, numbered, other, content, same, holds, incomplete⟩ := fits
      rw [held] at same
      cases same
      exact ⟨peerId, terms, receipts, content, rfl, numbered, holds, incomplete⟩

namespace Account

theorem exists_stage (account : Account told exchange) (ongoing : exchange.isFinished = false) :
    ∃ stage : Stage, stage.Valid ∧ stage.Fits exchange ∧ told = stage.actions := by
  cases account with
  | ongoing stage valid fits => exact ⟨stage, valid, fits, rfl⟩
  | ended stage verdict valid behindPiece numbered finished tableless =>
      simp [isFinished, finished] at ongoing

/-- All that was told belongs to a stage, apart from the end. -/
theorem exists_stage_of_told (account : Account told exchange) :
    ∃ stage : Stage, stage.Valid ∧ (∀ action ∈ stage.actions, action ∈ told) ∧
      ∀ event, .report event ∈ told → event.isTerminal = false → .report event ∈ stage.actions := by
  cases account with
  | ongoing stage valid fits => exact ⟨stage, valid, fun _ member => member, fun _ member _ => member⟩
  | ended stage verdict valid behindPiece numbered finished tableless =>
      refine ⟨stage, valid, fun _ member => List.mem_append_left _ member, ?_⟩
      intro event member unending
      rcases List.mem_append.mp member with earlier | last
      · exact earlier
      · cases verdict <;> cases List.mem_singleton.mp last <;> cases unending

theorem piece_of_mem (account : Account told exchange) {index received pieceCount : Nat}
    (reported : .report (.pieceReceived index received pieceCount) ∈ told) :
    index < pieceCount ∧ ∃ size, .report (.extendedOk size pieceCount) ∈ told := by
  obtain ⟨stage, valid, all, back⟩ := account.exists_stage_of_told
  obtain ⟨inside, size, agreed⟩ := valid.piece_of_mem_actions (back _ reported rfl)
  exact ⟨inside, size, all _ agreed⟩

theorem agreed_unique (account : Account told exchange) {size pieceCount other otherCount : Nat}
    (agreed : .report (.extendedOk size pieceCount) ∈ told)
    (again : .report (.extendedOk other otherCount) ∈ told) : pieceCount = otherCount := by
  obtain ⟨stage, _, _, back⟩ := account.exists_stage_of_told
  obtain ⟨_, terms, _, rfl, _, rfl⟩ := stage.eq_collecting_of_mem_actions (back _ agreed rfl)
  obtain ⟨_, _, _, same, _, rfl⟩ := Stage.eq_collecting_of_mem_actions _ (back _ again rfl)
  cases same
  rfl

theorem isFinished_eq_false (account : Account told exchange) {table : Piece.Table}
    (held : exchange.table = some table) : exchange.isFinished = false := by
  cases account with
  | ongoing stage valid fits => exact fits.unfinished
  | ended stage verdict valid behindPiece numbered finished tableless =>
      rw [tableless] at held
      cases held

theorem isFinished_iff (account : Account told exchange) :
    exchange.isFinished = true ↔ ∃ event, .report event ∈ told ∧ event.isTerminal = true := by
  cases account with
  | ongoing stage valid fits =>
      rw [fits.unfinished]
      constructor
      · intro impossible
        cases impossible
      · intro given
        obtain ⟨event, member, terminal⟩ := given
        rw [stage.isTerminal_of_mem_actions member] at terminal
        cases terminal
  | ended stage verdict valid behindPiece numbered finished tableless =>
      have terminal : (closingEvent verdict).isTerminal = true := by cases verdict <;> rfl
      simp only [isFinished, finished, decide_true, true_iff]
      exact ⟨closingEvent verdict, by simp, terminal⟩

theorem eq_nil_of_isTerminal (account : Account told exchange) {before behind : List Action}
    {event : Event} (parts : told = before ++ .report event :: behind)
    (terminal : event.isTerminal = true) : behind = [] := by
  cases account with
  | ongoing stage valid fits =>
      rw [stage.isTerminal_of_mem_actions (by simp [parts])] at terminal
      cases terminal
  | ended stage verdict valid behindPiece numbered finished tableless =>
      rcases List.eq_nil_or_concat behind with rfl | ⟨front, last, rfl⟩
      · rfl
      · have shifted : stage.actions ++ [.report (closingEvent verdict)] =
            (before ++ .report event :: front) ++ [last] := by simpa using parts
        have earlier : stage.actions = before ++ .report event :: front :=
          List.append_inj_left' shifted rfl
        rw [stage.isTerminal_of_mem_actions (by simp [earlier])] at terminal
        cases terminal

end Account

theorem account_finish {stage : Stage} (valid : stage.Valid) (fits : stage.Fits exchange)
    (fault : Fault) : Account (stage.actions ++ [.report (.error fault)]) exchange.finish :=
  .ended stage (.error fault) valid (by intro impossible; cases impossible) fits.numbered rfl rfl

theorem account_greeted {stage : Stage} {protocolLength : Nat} (fits : stage.Fits exchange)
    (awaited : exchange.awaiting = .handshakeBody protocolLength) (peerId : PeerId) :
    Account (stage.actions ++ greeting peerId) { exchange with awaiting := .messageLength } := by
  cases stage with
  | silent => exact .ongoing (.greeted peerId) trivial ⟨rfl, fits.2⟩
  | greeted other => simp [Stage.Fits, awaited, Awaiting.inMessages] at fits
  | collecting other terms receipts => simp [Stage.Fits, awaited, Awaiting.inMessages] at fits

theorem account_agreed {payload : Bytes} {terms : Extension.Terms} {table : Piece.Table}
    {peerId : PeerId} (negotiated : negotiate payload = .ok (terms, table)) :
    Account (Stage.actions (.greeted peerId) ++
        .report (.extendedOk terms.metadataSize table.pieceCount) ::
          requests terms.metadataId table.pieceCount)
      { exchange with
        awaiting := .messageLength, table := some table, peerMetadataId := some terms.metadataId } := by
  obtain ⟨numbered, positive, within, holds⟩ := valid_of_negotiate negotiated
  have pieces := Piece.count_pos positive
  have incomplete : table.isComplete = false := by
    rw [← Bool.not_eq_true, holds.isComplete_iff]
    intro complete
    cases complete 0 pieces
  have valid : (Stage.collecting peerId terms []).Valid :=
    ⟨numbered, ⟨positive, within⟩, ⟨pieces, Piece.count_le within⟩, by simp⟩
  have told : Stage.actions (.greeted peerId) ++
        .report (.extendedOk terms.metadataSize table.pieceCount) ::
          requests terms.metadataId table.pieceCount =
      (Stage.collecting peerId terms []).actions := by
    simp [Stage.actions, agreement, holds.pieceCount]
  rw [told]
  exact .ongoing _ valid ⟨rfl, rfl, table, _, rfl, holds, incomplete⟩

/-- A piece that is stored adds its receipt to those of the stage. -/
theorem collect {peerId : PeerId} {terms : Extension.Terms} {receipts : List Receipt}
    {content : Nat → Option Bytes} {before after : Piece.Table} {payload : Bytes} {index : Nat}
    (valid : (Stage.collecting peerId terms receipts).Valid)
    (holds : before.Holds terms.metadataSize content)
    (stores : store before payload = .ok (index, after)) :
    let collected := Stage.collecting peerId terms (receipts ++ [⟨index, after.received⟩])
    collected.Valid ∧
      collected.actions = (Stage.collecting peerId terms receipts).actions ++
        [.report (.pieceReceived index after.received after.pieceCount)] ∧
      ∃ content, after.Holds terms.metadataSize content := by
  obtain ⟨message, status, _, _, _, _, inserted⟩ := store_eq_ok_iff.mp stores
  obtain ⟨inside, _, holdsAfter⟩ := holds.insert inserted
  obtain ⟨numbered, sized, counted, indices⟩ := valid
  refine ⟨⟨numbered, sized, counted, ?_⟩, ?_, _, holdsAfter⟩
  · intro receipt member
    rcases List.mem_append.mp member with earlier | last
    · exact indices receipt earlier
    · rw [List.mem_singleton.mp last]
      exact inside
  · simp [Stage.actions, Receipt.action, holdsAfter.pieceCount]

/-- Every step keeps the account: it adds to what was told what belongs to the next stage, or ends. -/
theorem account_step (account : Account told exchange) {actions : List Action}
    (step : exchange.Step frame next actions) : Account (told ++ actions) next := by
  cases account with
  | ended stage verdict valid behindPiece numbered finished tableless =>
      exact absurd finished step.awaiting_ne_finished
  | ongoing stage valid fits =>
      cases step with
      | protocolLength awaited =>
          rw [List.append_nil]
          cases stage with
          | silent => exact .ongoing .silent valid ⟨rfl, fits.2⟩
          | greeted peerId => simp [Stage.Fits, awaited, Awaiting.inMessages] at fits
          | collecting peerId terms receipts =>
              simp [Stage.Fits, awaited, Awaiting.inMessages] at fits
      | greeted awaited parsed => exact account_greeted fits awaited _
      | keptAlive awaited announced =>
          rw [List.append_nil]
          exact .ongoing stage valid fits
      | messageLength awaited announced positive short =>
          rw [List.append_nil]
          exact .ongoing stage valid (fits.awaiting (by rw [awaited]; rfl) rfl)
      | ignored awaited ignores =>
          rw [List.append_nil]
          exact .ongoing stage valid (fits.awaiting (by rw [awaited]; rfl) rfl)
      | agreed awaited tableless negotiated =>
          obtain ⟨peerId, rfl⟩ := fits.eq_greeted (by rw [awaited]; rfl) tableless
          exact account_agreed negotiated
      | stored awaited held numbered stores incomplete =>
          obtain ⟨peerId, terms, receipts, content, rfl, number, holds, _⟩ := fits.eq_collecting held
          obtain ⟨collected, told, _, holdsAfter⟩ := collect valid holds stores
          rw [← told]
          exact .ongoing _ collected ⟨rfl, number, _, _, rfl, holdsAfter, incomplete⟩
      | completed awaited held numbered stores complete =>
          obtain ⟨peerId, terms, receipts, content, rfl, number, holds, _⟩ := fits.eq_collecting held
          obtain ⟨collected, told, _⟩ := collect valid holds stores
          rw [List.append_cons, ← told]
          exact .ended _ _ collected (by simp [Stage.receipts]) number rfl rfl
      | refused refuses => exact account_finish valid fits _

end MetaExchange.Exchange
