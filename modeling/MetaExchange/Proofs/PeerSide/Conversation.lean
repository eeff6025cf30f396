import Mathlib.Data.List.Induction
import MetaExchange.PeerSide

namespace MetaExchange.PeerSide

/-- A message that does not matter to an exchange. -/
inductive Noise where
  | keepAlive
  | other (kind : UInt8) (content : Bytes) (unrelated : kind ≠ Message.Kind.extended.toByte)
      (short : content.length < Message.maxLength)

def Noise.bytes : Noise → Bytes
  | .keepAlive => PeerSide.keepAlive
  | .other kind content _ _ => Message.frame (kind :: content)

/-- What a peer says after its announcement, if the metadata have so many pieces. -/
inductive Utterance (pieceCount : Nat) where
  | noise (said : Noise)
  | piece (index : Nat) (inside : index < pieceCount)

variable {pieceCount : Nat}

def Utterance.bytes (metadata : Bytes) : Utterance pieceCount → Bytes
  | .noise said => said.bytes
  | .piece index _ => dataPiece metadata index

def Utterance.index? : Utterance pieceCount → Option Nat
  | .noise _ => none
  | .piece index _ => some index

def indices (utterances : List (Utterance pieceCount)) : List Nat := utterances.filterMap (·.index?)

def speech (metadata : Bytes) (utterances : List (Utterance pieceCount)) : Bytes :=
  utterances.flatMap (·.bytes metadata)

/-- The greeting and the announcement, with noise between them. -/
def opening (echoed : InfoHash) (metadataId : UInt8) (metadata : Bytes) (noise : List Noise) : Bytes :=
  handshake echoed ++ noise.flatMap Noise.bytes ++
    announcement (Int64.ofNat metadataId.toNat) (Int64.ofNat metadata.length)

@[simp] theorem indices_append (first second : List (Utterance pieceCount)) :
    indices (first ++ second) = indices first ++ indices second :=
  List.filterMap_append

@[simp] theorem indices_nil : indices ([] : List (Utterance pieceCount)) = [] := rfl

@[simp] theorem indices_noise (said : Noise) (rest : List (Utterance pieceCount)) :
    indices (.noise said :: rest) = indices rest := rfl

@[simp] theorem indices_piece (index : Nat) (inside : index < pieceCount)
    (rest : List (Utterance pieceCount)) :
    indices (.piece index inside :: rest) = index :: indices rest := rfl

theorem speech_append (metadata : Bytes) (first second : List (Utterance pieceCount)) :
    speech metadata (first ++ second) = speech metadata first ++ speech metadata second :=
  List.flatMap_append

/-- Where all pieces are sent, one of them is the last that was missing. -/
theorem exists_last_missing (positive : 0 < pieceCount) (utterances : List (Utterance pieceCount))
    (complete : ∀ index < pieceCount, index ∈ indices utterances) :
    ∃ early index inside late, utterances = early ++ .piece index inside :: late ∧
      index ∉ indices early ∧ ∀ other < pieceCount, other ∈ indices early ∨ other = index := by
  induction utterances using List.reverseRecOn with
  | nil => cases complete 0 positive
  | append_singleton front last ih =>
      by_cases whole : ∀ index < pieceCount, index ∈ indices front
      · obtain ⟨early, index, inside, late, rfl, missing, others⟩ := ih whole
        exact ⟨early, index, inside, late ++ [last], by simp, missing, others⟩
      · simp only [not_forall] at whole
        obtain ⟨index, within, missing⟩ := whole
        have sent := complete index within
        cases last with
        | noise said =>
            rw [indices_append, indices_noise] at sent
            exact absurd (by simpa using sent) missing
        | piece found inside =>
            rw [indices_append, indices_piece] at sent
            rcases List.mem_append.mp sent with before | now
            · exact absurd before missing
            · cases List.mem_singleton.mp now
              refine ⟨front, index, inside, [], rfl, missing, ?_⟩
              intro other within
              have sentOther := complete other within
              rw [indices_append, indices_piece] at sentOther
              simpa using sentOther

end MetaExchange.PeerSide
