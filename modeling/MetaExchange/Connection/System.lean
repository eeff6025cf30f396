import MetaExchange.Connection.Attempt

/-!
The two loops that run an attempt on an open connection, as a system of steps.

The reader takes what the peer sends, feeds the machine, and hands on what is to be done: messages in
one channel, events in another. The writer takes from both channels: it writes messages to the
connection, and the first event that ends the exchange, or the first write that fails, gives the
outcome. Each channel holds one item at most. A loop that has stopped drops its ends of the channels.

Which step is next is left open: `State.step?` says what a move does in a state where it is possible.
-/

namespace MetaExchange.Connection

open Exchange (Action)

inductive Notice where
  | event (event : Exchange.Event)
  | trouble (trouble : Trouble)
  deriving DecidableEq

def Notice.outcome? : Notice → Option Outcome
  | .event reported => reported.outcome?.map Outcome.ofExchange
  | .trouble met => some (.error (.trouble met))

inductive ReadLoop where
  | reading
  | forwarding (actions : List Action)
  | reporting (trouble : Trouble)
  | stopped
  deriving DecidableEq

inductive WriteLoop where
  | selecting
  | writing (message : Bytes)
  | stopped
  deriving DecidableEq

namespace System

structure State where
  machine : Machine
  reader : ReadLoop
  writer : WriteLoop
  outbound : Option Bytes
  notice : Option Notice
  /-- The reads to come, none of them empty. -/
  reads : List Bytes
  ending : Trouble
  received : Bytes
  /-- The messages whose writing was begun, in order. -/
  written : List Bytes
  outcome : Option Outcome

/-- The state in which our greeting waits to be written, and nothing has been read. -/
def State.initial (machine : Machine) (reads : List Bytes) (ending : Trouble) : State where
  machine
  reader := .reading
  writer := .selecting
  outbound := some machine.start
  notice := none
  reads
  ending
  received := []
  written := []
  outcome := none

inductive Move where
  | read
  | forward
  | report
  | takeMessage
  | takeNotice
  | finishWrite
  | failWrite (cause : SystemError)
  | giveUp
  deriving DecidableEq

namespace State

def readerGone (state : State) : Bool := state.reader = .stopped

def writerGone (state : State) : Bool := state.writer = .stopped

def read? (state : State) : Option State :=
  match state.reader, state.reads with
  | .reading, bytes :: reads =>
    let (machine, actions) := state.machine.feed bytes
    some { state with
      machine, reads, reader := .forwarding actions, received := state.received ++ bytes }
  | .reading, [] => some { state with reader := .reporting state.ending }
  | _, _ => none

/-- The reader hands on the next action, where its channel has room. Where there is none to hand on, it
reads again, unless the exchange has ended. It stops where nobody takes what it hands on. -/
def forward? (state : State) : Option State :=
  match state.reader with
  | .forwarding [] =>
    some { state with reader := if state.machine.isFinished then .stopped else .reading }
  | .forwarding (.send message :: rest) =>
    if state.writerGone then some { state with reader := .stopped }
    else if state.outbound.isNone then
      some { state with outbound := some message, reader := .forwarding rest }
    else none
  | .forwarding (.report event :: rest) =>
    if state.writerGone then some { state with reader := .stopped }
    else if state.notice.isNone then
      some { state with notice := some (.event event), reader := .forwarding rest }
    else none
  | _ => none

/-- The reader tells why nothing more can be read, where the channel has room, and stops. -/
def report? (state : State) : Option State :=
  match state.reader with
  | .reporting trouble =>
    if state.writerGone then some { state with reader := .stopped }
    else if state.notice.isNone then
      some { state with notice := some (.trouble trouble), reader := .stopped }
    else none
  | _ => none

def takeMessage? (state : State) : Option State :=
  match state.writer, state.outbound with
  | .selecting, some message =>
    some { state with
      outbound := none, writer := .writing message, written := state.written ++ [message] }
  | _, _ => none

def takeNotice? (state : State) : Option State :=
  match state.writer, state.notice with
  | .selecting, some notice =>
    match notice.outcome? with
    | none => some { state with notice := none }
    | some outcome =>
      some { state with notice := none, writer := .stopped, outcome := some outcome }
  | _, _ => none

def finishWrite? (state : State) : Option State :=
  match state.writer with
  | .writing _ => some { state with writer := .selecting }
  | _ => none

def failWrite? (state : State) (cause : SystemError) : Option State :=
  match state.writer with
  | .writing _ =>
    some { state with
      writer := .stopped, outcome := some (.error (.trouble (.writeFailed cause))) }
  | _ => none

def giveUp? (state : State) : Option State :=
  match state.writer, state.outbound, state.notice with
  | .selecting, none, none =>
    if state.readerGone then some { state with writer := .stopped } else none
  | _, _, _ => none

def step? (state : State) : Move → Option State
  | .read => state.read?
  | .forward => state.forward?
  | .report => state.report?
  | .takeMessage => state.takeMessage?
  | .takeNotice => state.takeNotice?
  | .finishWrite => state.finishWrite?
  | .failWrite cause => state.failWrite? cause
  | .giveUp => state.giveUp?

end State

inductive Reaches (allowed : Move → Prop) (start : State) : State → Prop where
  | refl : Reaches allowed start start
  | step {state next : State} (move : Move) :
      Reaches allowed start state → allowed move → state.step? move = some next →
        Reaches allowed start next

end System

end MetaExchange.Connection
