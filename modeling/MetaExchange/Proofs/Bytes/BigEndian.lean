import Mathlib.Algebra.Group.Nat.Defs
import MetaExchange.Bytes.BigEndian

namespace MetaExchange.BigEndian

variable {width value : Nat}

theorem encode_succ (width value : Nat) :
    encode (width + 1) value = encode width (value / 256) ++ [UInt8.ofNat value] := by
  simp only [encode, List.range_succ, List.map_append, List.map_cons, List.map_nil]
  congr 1
  · apply List.map_congr_left
    intro lane member
    have within := List.mem_range.mp member
    have shift : 8 * (width + 1 - 1 - lane) = 8 + 8 * (width - 1 - lane) := by omega
    rw [shift, Nat.shiftRight_add, Nat.shiftRight_eq_div_pow value 8]
  · simp

theorem decode_append_singleton (bytes : Bytes) (byte : UInt8) :
    decode (bytes ++ [byte]) = decode bytes * 256 + byte.toNat := by
  simp [decode, List.foldl_append]

theorem decode_encode (width value : Nat) : decode (encode width value) = value % 256 ^ width := by
  induction width generalizing value with
  | zero => simp [encode, decode, Nat.mod_one]
  | succ width ih =>
      have digits : value % 256 ^ (width + 1) = value % 256 + 256 * (value / 256 % 256 ^ width) := by
        rw [Nat.pow_succ', Nat.mod_mul]
      rw [encode_succ, decode_append_singleton, ih, digits, UInt8.toNat_ofNat']
      omega

theorem length_encode32 (value : Nat) : (encode32 value).length = 4 := length_encode 4 value

theorem decode32?_encode32 (fits : value < UInt32.size) :
    decode32? (encode32 value) = some value := by
  have whole : value % 256 ^ 4 = value := Nat.mod_eq_of_lt fits
  unfold decode32? encode32
  rw [if_pos (length_encode 4 value), decode_encode, whole]

end MetaExchange.BigEndian
