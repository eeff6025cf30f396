/-!
Failures as they are told to the user: a kind, a message, and what it is about. Every part of the
library has errors of its own that name a cause; a failure is the common form they are shown in.
-/

namespace MetaExchange

inductive Failure where
  | network (message : String) (address source : Option String)
  | protocol (message : String) (source : Option String)
  /-- A payload is not bencode, or not of the form required. -/
  | decode (message : String) (source : Option String)
  /-- A payload can be read, but breaks the rules of the exchange. -/
  | metadata (message : String) (source : Option String)
  | peer (message : String) (name source : Option String)
  | config (message : String) (field : Option String)
  | validation (message : String) (field : Option String)
  deriving DecidableEq

namespace Failure

/-- What is known beside the message, in parentheses, with a label each; nothing if nothing is. -/
def details (parts : List (String × Option String)) : String :=
  match parts.filterMap fun (label, value) => value.map fun text => label ++ ": " ++ text with
  | [] => ""
  | known => " (" ++ ", ".intercalate known ++ ")"

def render : Failure → String
  | .network message address source =>
    "Network error: " ++ message ++ details [("address", address), ("source", source)]
  | .protocol message source => "Protocol error: " ++ message ++ details [("source", source)]
  | .decode message source => "Decode error: " ++ message ++ details [("source", source)]
  | .metadata message source => "Metadata error: " ++ message ++ details [("source", source)]
  | .peer message name source =>
    "Peer error: " ++ message ++ details [("peer", name), ("source", source)]
  | .config message field => "Config error: " ++ message ++ details [("field", field)]
  | .validation message field => "Validation error: " ++ message ++ details [("field", field)]

def appendContext (context : String) : Option String → Option String
  | none => some context
  | some source => some (source ++ ": " ++ context)

/-- Tells where a failure arose. Settings and requests have no source to add it to. -/
def withContext (context : String) : Failure → Failure
  | .network message address source => .network message address (appendContext context source)
  | .protocol message source => .protocol message (appendContext context source)
  | .decode message source => .decode message (appendContext context source)
  | .metadata message source => .metadata message (appendContext context source)
  | .peer message name source => .peer message name (appendContext context source)
  | .config message field => .config message field
  | .validation message field => .validation message field

/-- Whether a failure comes from the connection, and not from what the peer said over it. -/
def isNetwork : Failure → Bool
  | .network .. | .peer .. => true
  | _ => false

end Failure

end MetaExchange
