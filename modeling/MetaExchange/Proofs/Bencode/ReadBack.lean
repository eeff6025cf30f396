import MetaExchange.Proofs.Bencode.Grammar

/-!
A value that is written is read back, whatever follows it, if it is nested in few enough containers and
its dictionaries are in order: the grammar derives what is written (`derives_encode`).
-/

namespace MetaExchange.Bencode

variable {around levels : Nat}

/-- A value that can be read back where so many levels are left to it: lengths fit 64 bits, and
dictionaries are written by ascending key, each key once. -/
inductive Value.Writable : (levels : Nat) → Value → Prop where
  | int {levels : Nat} (number : Int64) : Writable (levels + 1) (.int number)
  | bytes {levels : Nat} {content : Bytes} (short : content.length ≤ Numeral.maxUInt64) :
      Writable (levels + 1) (.bytes content)
  | list {levels : Nat} {items : List Value} (writable : ∀ item ∈ items, Writable levels item) :
      Writable (levels + 1) (.list items)
  | dict {levels : Nat} {entries : List (Bytes × Value)}
      (short : ∀ entry ∈ entries, entry.1.length ≤ Numeral.maxUInt64)
      (writable : ∀ entry ∈ entries, Writable levels entry.2)
      (ascending : entries.Pairwise fun entry later => entry.1 < later.1) :
      Writable (levels + 1) (.dict entries)

/-- A dictionary with known keys: what is asked of the keys does not depend on the values. -/
theorem Value.Writable.of_keys {entries : List (Bytes × Value)} {keys : List Bytes}
    (named : entries.map Prod.fst = keys) (short : ∀ key ∈ keys, key.length ≤ Numeral.maxUInt64)
    (ascending : keys.Pairwise (· < ·)) (writable : ∀ entry ∈ entries, entry.2.Writable levels) :
    (Value.dict entries).Writable (levels + 1) := by
  subst named
  refine .dict ?_ writable (List.pairwise_map.mp ascending)
  intro entry member
  exact short entry.1 (List.mem_map_of_mem member)

theorem Value.Writable.exists_succ {written : Value} (writable : written.Writable levels) :
    ∃ below, levels = below + 1 := by
  cases writable <;> exact ⟨_, rfl⟩

theorem Value.Writable.ascending {entries : List (Bytes × Value)}
    (writable : (Value.dict entries).Writable levels) : Ascending entries := by
  cases writable with
  | dict short held ascending => exact ascending

theorem derives_encodeBytes {content : Bytes} (shallow : around ≤ maxDepth)
    (short : content.length ≤ Numeral.maxUInt64) :
    Derives around (encodeBytes content) (.bytes content) := by
  obtain ⟨isDecimal, measured, _⟩ := Numeral.natural?_eq_some_iff.mp (Numeral.natural?_ofNat short)
  exact .bytes shallow isDecimal measured short

theorem derives_encode_int (number : Int64) (shallow : around ≤ maxDepth) :
    Derives around (Value.int number).encode (.int number) := by
  obtain ⟨sign, digits, parts, isDecimal, same⟩ :=
    Numeral.int64?_eq_some_iff.mp (Numeral.int64?_ofInt number)
  rw [Value.encode, parts]
  exact .int shallow isDecimal same

theorem encodeItems_eq_flatMap (items : List Value) : encodeItems items = items.flatMap Value.encode := by
  induction items with
  | nil => simp [encodeItems]
  | cons item items ih => simp [encodeItems, ih]

theorem encodeEntries_eq_flatMap (entries : List (Bytes × Value)) :
    encodeEntries entries = entries.flatMap fun entry => encodeBytes entry.1 ++ entry.2.encode := by
  induction entries with
  | nil => simp [encodeEntries]
  | cons entry entries ih => simp [encodeEntries, ih]

theorem derives_encode_list {items : List Value} (shallow : around ≤ maxDepth)
    (each : ∀ item ∈ items, Derives (around + 1) item.encode item) :
    Derives around (Value.list items).encode (.list items) := by
  have parts : ∀ part ∈ items.map fun item => (item.encode, item),
      Derives (around + 1) part.1 part.2 := by
    simpa using each
  simpa [Value.encode, encodeItems_eq_flatMap, List.flatMap_map, Function.comp_def] using
    Derives.list shallow parts

def writtenEntry (entry : Bytes × Value) : WrittenEntry :=
  ⟨encodeBytes entry.1, entry.1, entry.2.encode, entry.2⟩

theorem derives_encode_dict {entries : List (Bytes × Value)} (shallow : around ≤ maxDepth)
    (short : ∀ entry ∈ entries, entry.1.length ≤ Numeral.maxUInt64)
    (deeper : ∀ entry ∈ entries, around + 1 ≤ maxDepth)
    (each : ∀ entry ∈ entries, Derives (around + 1) entry.2.encode entry.2)
    (ascending : Ascending entries) :
    Derives around (Value.dict entries).encode (.dict entries) := by
  have keys : ∀ entry ∈ entries.map writtenEntry,
      Derives (around + 1) entry.keyText (.bytes entry.key) := by
    intro entry member
    obtain ⟨pair, inside, rfl⟩ := List.mem_map.mp member
    exact derives_encodeBytes (deeper pair inside) (short pair inside)
  have values : ∀ entry ∈ entries.map writtenEntry,
      Derives (around + 1) entry.valueText entry.value := by
    intro entry member
    obtain ⟨pair, inside, rfl⟩ := List.mem_map.mp member
    exact each pair inside
  have pairs : (entries.map writtenEntry).map WrittenEntry.pair = entries := by
    simp [writtenEntry, WrittenEntry.pair, Function.comp_def]
  have last : ∀ key, entries.lookup key =
      ((entries.map writtenEntry).map WrittenEntry.pair).reverse.lookup key := by
    intro key
    rw [pairs, ← lookup_entriesOf, entriesOf_of_ascending ascending]
  simpa [Value.encode, encodeEntries_eq_flatMap, List.flatMap_map, writtenEntry, WrittenEntry.text,
    Function.comp_def] using Derives.dict shallow keys values ascending last

theorem derives_encode {written : Value} (writable : written.Writable levels)
    (left : around + levels = maxDepth + 1) : Derives around written.encode written := by
  induction writable generalizing around with
  | int number => exact derives_encode_int number (by omega)
  | bytes short =>
      rw [Value.encode]
      exact derives_encodeBytes (by omega) short
  | @list levels items writable ih =>
      exact derives_encode_list (by omega) fun item member => ih item member (by omega)
  | @dict levels entries short writable ascending ih =>
      refine derives_encode_dict (by omega) short ?_ (fun entry member => ih entry member (by omega))
        ascending
      intro entry member
      -- A value is written at this level, so there is one left for its key.
      obtain ⟨below, rfl⟩ := (writable entry member).exists_succ
      omega

/-- What is written is decoded, and what follows it is left. -/
theorem decode_encode {written : Value} (writable : written.Writable (maxDepth + 1)) (rest : Bytes) :
    decode (written.encode ++ rest) = .ok (written, rest) :=
  decode_of_derives (derives_encode writable (Nat.zero_add _)) rest

theorem decodeDict_encode {entries : List (Bytes × Value)}
    (writable : (Value.dict entries).Writable (maxDepth + 1)) (rest : Bytes) :
    decodeDict ((Value.dict entries).encode ++ rest) = .ok (.dict entries, rest) := by
  unfold decodeDict
  rw [decode_encode writable rest]
  simp [Value.asDict?]

theorem length_encodeBytes_le {content : Bytes} (short : content.length ≤ Numeral.maxUInt64) :
    (encodeBytes content).length ≤ content.length + 21 := by
  have digits : (Numeral.ofNat content.length).length ≤ 19 + 1 :=
    Numeral.length_ofNat_le (Nat.lt_of_le_of_lt short (by decide))
  simp only [encodeBytes, List.length_append, List.length_cons]
  omega

theorem length_encode_int_le (number : Int64) : (Value.int number).encode.length ≤ 22 := by
  have digits := Numeral.length_ofInt_le number
  simp only [Value.encode, List.length_append, List.length_cons, List.length_nil]
  omega

mutual

/-- As many bytes as writing a value takes at most, whatever numbers are in it. -/
def Value.room : Value → Nat
  | .int _ => 22
  | .bytes content => content.length + 21
  | .list items => roomOfItems items + 2
  | .dict entries => roomOfEntries entries + 2

def roomOfItems : List Value → Nat
  | [] => 0
  | item :: rest => item.room + roomOfItems rest

def roomOfEntries : List (Bytes × Value) → Nat
  | [] => 0
  | (key, held) :: rest => key.length + 21 + held.room + roomOfEntries rest

end

theorem length_encode_le_room {written : Value} (writable : written.Writable levels) :
    written.encode.length ≤ written.room := by
  induction writable with
  | int number => exact length_encode_int_le number
  | bytes short =>
      rw [Value.encode, Value.room]
      exact length_encodeBytes_le short
  | @list levels items writable ih =>
      have parts : (encodeItems items).length ≤ roomOfItems items := by
        clear writable
        induction items with
        | nil => exact Nat.le_refl 0
        | cons item items further =>
            have first := ih item (by simp)
            have rest := further fun other member => ih other (by simp [member])
            rw [encodeItems, roomOfItems, List.length_append]
            omega
      simp only [Value.encode, Value.room, List.length_append, List.length_cons, List.length_nil]
      omega
  | @dict levels entries short writable ascending ih =>
      have parts : (encodeEntries entries).length ≤ roomOfEntries entries := by
        clear writable ascending
        induction entries with
        | nil => exact Nat.le_refl 0
        | cons entry entries further =>
            have key := length_encodeBytes_le (short entry (by simp))
            have held := ih entry (by simp)
            have rest := further (fun other member => short other (by simp [member]))
              fun other member => ih other (by simp [member])
            rw [encodeEntries, roomOfEntries, List.length_append, List.length_append]
            omega
      simp only [Value.encode, Value.room, List.length_append, List.length_cons, List.length_nil]
      omega

end MetaExchange.Bencode
