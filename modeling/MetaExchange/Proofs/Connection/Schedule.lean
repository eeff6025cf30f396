import MetaExchange.Proofs.Connection.Progress

namespace MetaExchange.Connection

open Exchange (Action Concludes)

namespace System

theorem concludes_feedAll (infoHash : InfoHash) (peerId : PeerId) (verify : Bool) (reads : List Bytes) :
    let fed := (Machine.fresh infoHash peerId verify).feedAll reads
    Concludes fed.2 fed.1.exchange := by
  rw [Machine.feedAll_fresh]
  exact Machine.concludes_feed rfl reads.flatten

theorem finalOutcome_fresh (infoHash : InfoHash) (peerId : PeerId) (verify : Bool) (reads : List Bytes)
    (ending : Trouble) :
    finalOutcome (.fresh infoHash peerId verify) reads ending =
      (exchangeOutcome? (.fresh infoHash peerId verify) reads.flatten).getD
        (.error (.trouble ending)) := by
  have concludes := concludes_feedAll infoHash peerId verify reads
  rw [finalOutcome, firstOutcome?, exchangeOutcome?, ← Machine.feedAll_fresh, concludes.lastOutcome?_eq]

theorem outcome_of_reaches {start state : State} {expected : Outcome}
    (coherent : start.Coherent expected) (undelivered : start.outcome = none)
    (reached : Reaches Move.Proceeds start state) :
    ∀ outcome, state.outcome = some outcome → outcome = expected := by
  induction reached with
  | refl => simp [undelivered]
  | step move before proceeds moved ih =>
      exact (coherent.reached before).outcome_step (step?_eq_some_iff.mp moved) proceeds ih

/-- What the two loops deliver is what the attempt comes to by its definition, which leaves them out. -/
theorem attempt_eq_of_reaches {settings : Settings} {infoHash : InfoHash} {peerId : PeerId}
    {verify : Bool} {reads : List Bytes} {ending : Ending} {state : State} {outcome : Outcome}
    (valid : settings.check = .ok ()) (writes : ∀ cause, ending ≠ .writeFails cause)
    (reached : Reaches Move.Proceeds
      (State.initial (.fresh infoHash peerId verify) reads (ending.trouble settings)) state)
    (delivered : state.outcome = some outcome) :
    attempt settings (.fresh infoHash peerId verify) (.sends reads.flatten ending) = outcome := by
  have coherent : State.Coherent (.initial (.fresh infoHash peerId verify) reads _) _ :=
    coherent_initial rfl reads (ending.trouble settings)
  rw [outcome_of_reaches coherent rfl reached outcome delivered, finalOutcome_fresh]
  cases ending with
  | writeFails cause => exact absurd rfl (writes cause)
  | _ => simp only [attempt, valid]

end System

end MetaExchange.Connection
