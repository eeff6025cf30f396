import MetaExchange.Proofs.Machine.History

namespace MetaExchange.Machine

open Exchange (Account Action Event Stage closingEvent)

variable {machine : Machine}

theorem feedAll_of_finished (finished : machine.isFinished = true) (reads : List Bytes) :
    (machine.feedAll reads).2 = [] := by
  induction reads generalizing machine with
  | nil => rfl
  | cons bytes rest ih =>
      rw [feedAll_cons, feed_of_finished finished]
      exact ih finished

/-- Whatever is fed to a machine, it asks for the actions of a stage, in order and in whole blocks, and
behind them for the report of one verdict at most. The verdict is there exactly when the exchange has
ended; it is favourable only right behind a piece; and nothing comes of any further read.

A stage is one of: nothing; the greeting with our answer; both, the terms with a request for each of the
`Piece.count` pieces, and any number of pieces received. -/
theorem exists_stage_feedAll (infoHash : InfoHash) (peerId : PeerId) (verify : Bool)
    (reads : List Bytes) :
    let after := ((fresh infoHash peerId verify).feedAll reads).1
    let actions := ((fresh infoHash peerId verify).feedAll reads).2
    (∃ (stage : Stage) (verdict : Option (Except Exchange.Fault Metadata)),
      actions = stage.actions ++ verdict.toList.map (fun known => .report (closingEvent known)) ∧
      stage.Valid ∧ after.exchange.peerMetadataId = stage.metadataId ∧
      after.isFinished = verdict.isSome ∧
      ∀ metadata, verdict = some (.ok metadata) → stage.receipts ≠ []) ∧
    (∀ before event behind, actions = before ++ .report event :: behind →
      event.isTerminal = true → behind = []) ∧
    (after.isFinished = true ↔ ∃ event, .report event ∈ actions ∧ event.isTerminal = true) ∧
    (after.isFinished = true → ∀ further, (after.feedAll further).2 = []) := by
  intro after actions
  obtain ⟨history, recorded⟩ := exists_history (settled_fresh infoHash peerId verify) reads
  have account : Account actions after.exchange := by
    have kept := account_of_run recorded.run
    rwa [← recorded.actions] at kept
  refine ⟨?_, fun before event behind => account.eq_nil_of_isTerminal, account.isFinished_iff,
    fun finished further => feedAll_of_finished finished further⟩
  generalize actions = told at account
  cases account with
  | ongoing stage valid fits =>
      refine ⟨stage, none, by simp, valid, fits.numbered, fits.unfinished, ?_⟩
      intro metadata impossible
      cases impossible
  | ended stage verdict valid behindPiece numbered finished tableless =>
      refine ⟨stage, some verdict, rfl, valid, numbered, ?_, ?_⟩
      · simp [isFinished, Exchange.isFinished, finished]
      · intro metadata same
        cases same
        exact behindPiece rfl

end MetaExchange.Machine
