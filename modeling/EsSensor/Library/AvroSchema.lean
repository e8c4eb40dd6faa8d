import EsSensor.Library.AvroBinary
import EsSensor.Library.ByteOrder

/-!
Avro schemas: which values a schema describes, how a reader that has the schema
takes a value from the front of a stream, and how a value is built field by field.
-/
namespace EsSensor.AvroBinary

/-- A schema. The fields of a record have names; the names stand apart. -/
inductive Schema
  | null
  | boolean
  | int
  | long
  | float
  | string
  | fixed (size : ℕ)
  | union (branches : List Schema)
  | record (names : List String) (fields : List Schema)
  | array (items : Schema)
  | map (values : Schema)

/-- A record with the name beside each field. -/
def Schema.recordOf (fields : List (String × Schema)) : Schema :=
  .record (fields.map Prod.fst) (fields.map Prod.snd)

/-- Takes a value from the front of a stream. -/
abbrev Reader := List UInt8 → Option (Value × List UInt8)

def readVarint : List UInt8 → Option (ℕ × List UInt8)
  | [] => none
  | b :: stream =>
    if b.toNat < 128 then some (b.toNat, stream)
    else do
      let (n, stream) ← readVarint stream
      some (b.toNat - 128 + 128 * n, stream)

def unzigzag (n : ℕ) : ℤ := if n % 2 = 0 then n / 2 else -((n + 1) / 2)

def readLong (stream : List UInt8) : Option (ℤ × List UInt8) := do
  let (n, stream) ← readVarint stream
  some (unzigzag n, stream)

def readFloat (stream : List UInt8) : Option (UInt32 × List UInt8) := do
  let (bytes, stream) ← ByteOrder.readBytes 4 stream
  some (UInt32.ofNat (ByteOrder.ofLittleEndian bytes), stream)

def readItems (read : Reader) : ℕ → List UInt8 → Option (List Value × List UInt8)
  | 0, stream => some ([], stream)
  | n + 1, stream => do
    let (item, stream) ← read stream
    let (items, stream) ← readItems read n stream
    some (item :: items, stream)

/-- The blocks of an array up to the empty one. A count below zero is followed by
the length of the block in bytes. -/
def readBlocks (read : Reader) : ℕ → List UInt8 → Option (List Value × List UInt8)
  | 0, _ => none
  | fuel + 1, stream => do
    let (count, stream) ← readLong stream
    if count = 0 then some ([], stream)
    else do
      let (_, stream) ← if count < 0 then readLong stream else some (0, stream)
      let (items, stream) ← readItems read count.natAbs stream
      let (rest, stream) ← readBlocks read fuel stream
      some (items ++ rest, stream)

mutual

/-- A reader for the values that `Value` has. -/
def Schema.read : Schema → List UInt8 → Option (Value × List UInt8)
  | .null, stream => some (.null, stream)
  | .int, stream => do
    let (z, stream) ← readLong stream
    some (.int z, stream)
  | .long, stream => do
    let (z, stream) ← readLong stream
    some (.long z, stream)
  | .float, stream => do
    let (bits, stream) ← readFloat stream
    some (.float bits, stream)
  | .union branches, stream => do
    let (branch, stream) ← readLong stream
    let (value, stream) ← readBranch branches branch.toNat stream
    some (.union branch.toNat value, stream)
  | .record _ fields, stream => do
    let (values, stream) ← readFields fields stream
    some (.record values, stream)
  | .array items, stream => do
    let (values, stream) ← readBlocks items.read stream.length stream
    some (.array values, stream)
  | _, _ => none

def readBranch : List Schema → ℕ → List UInt8 → Option (Value × List UInt8)
  | [], _, _ => none
  | s :: _, 0, stream => s.read stream
  | _ :: branches, k + 1, stream => readBranch branches k stream

def readFields : List Schema → List UInt8 → Option (List Value × List UInt8)
  | [], stream => some ([], stream)
  | s :: fields, stream => do
    let (value, stream) ← s.read stream
    let (values, stream) ← readFields fields stream
    some (value :: values, stream)

end

mutual

/-- The values that a schema describes. -/
def Schema.Describes : Schema → Value → Prop
  | .null, .null => True
  | .int, .int z => -2 ^ 31 ≤ z ∧ z < 2 ^ 31
  | .long, .long z => -2 ^ 63 ≤ z ∧ z < 2 ^ 63
  | .float, .float _ => True
  | .union branches, .union branch value => BranchDescribes branches branch value
  | .record _ fields, .record values => FieldsDescribe fields values
  | .array items, .array values => ∀ value ∈ values, items.Describes value
  | _, _ => False

def BranchDescribes : List Schema → ℕ → Value → Prop
  | [], _, _ => False
  | s :: _, 0, value => s.Describes value
  | _ :: branches, k + 1, value => BranchDescribes branches k value

def FieldsDescribe : List Schema → List Value → Prop
  | [], [] => True
  | s :: fields, value :: values => s.Describes value ∧ FieldsDescribe fields values
  | _, _ => False

end

mutual

/-- The names that lead to the fields of a value, records aside. -/
def Schema.paths : Schema → List (List String)
  | .record names fields => fieldPaths names fields
  | _ => [[]]

def fieldPaths : List String → List Schema → List (List String)
  | name :: names, s :: fields => s.paths.map (name :: ·) ++ fieldPaths names fields
  | _, _ => []

end

mutual

/-- The value whose fields are those given at their paths. -/
def Schema.build : Schema → (List String → Option Value) → Option Value
  | .record names fields, given => do
    let values ← buildFields names fields given
    some (.record values)
  | _, given => given []

def buildFields : List String → List Schema → (List String → Option Value) → Option (List Value)
  | [], [], _ => some []
  | name :: names, s :: fields, given => do
    let value ← s.build (fun path => given (name :: path))
    let values ← buildFields names fields given
    some (value :: values)
  | _, _, _ => none

end

/-- A value that is set field by field, in any order. Each field of the schema must be
set, and nothing else. -/
def Schema.fill (s : Schema) (calls : List (List String × Value)) : Option Value :=
  if (calls.map Prod.fst).Perm s.paths then
    s.build (fun path => (calls.find? (fun call => call.1 = path)).map Prod.snd)
  else none

theorem readVarint_varint (n : ℕ) (rest : List UInt8) :
    readVarint (varint n ++ rest) = some (n, rest) := by
  induction n using Nat.strongRecOn with
  | ind n ih =>
    rw [varint]
    split
    · rename_i hlt
      have hbyte : (UInt8.ofNat n).toNat = n := by
        rw [UInt8.toNat_ofNat']
        omega
      rw [List.singleton_append, readVarint, hbyte, if_pos hlt]
    · have hbyte : (UInt8.ofNat (128 + n % 128)).toNat = 128 + n % 128 := by
        rw [UInt8.toNat_ofNat']
        omega
      rw [List.cons_append, readVarint, hbyte, if_neg (by omega), ih (n / 128) (by omega)]
      show some (128 + n % 128 - 128 + 128 * (n / 128), rest) = some (n, rest)
      rw [Nat.add_sub_cancel_left, Nat.mod_add_div]

theorem unzigzag_zigzag (z : ℤ) : unzigzag (zigzag z) = z := by
  unfold unzigzag zigzag
  split <;> split <;> omega

theorem readLong_encodeLong (z : ℤ) (rest : List UInt8) :
    readLong (encodeLong z ++ rest) = some (z, rest) := by
  rw [readLong, encodeLong, readVarint_varint]
  show some (unzigzag (zigzag z), rest) = some (z, rest)
  rw [unzigzag_zigzag]

theorem encodeFloat_eq (bits : UInt32) :
    encodeFloat bits = ByteOrder.littleEndian 4 bits.toNat := by
  have hbyte : ∀ (x : UInt32) (n : ℕ), x.toNat = n → x.toUInt8 = UInt8.ofNat n := by
    intro x n hx
    rw [← hx]
    rfl
  have h₁ : (bits >>> 8).toNat = bits.toNat / 256 := Nat.shiftRight_eq_div_pow _ 8
  have h₂ : (bits >>> 16).toNat = bits.toNat / (256 * 256) := Nat.shiftRight_eq_div_pow _ 16
  have h₃ : (bits >>> 24).toNat = bits.toNat / (256 * 256 * 256) :=
    Nat.shiftRight_eq_div_pow _ 24
  simp only [encodeFloat, ByteOrder.littleEndian, Nat.div_div_eq_div_mul]
  rw [hbyte bits _ rfl, hbyte _ _ h₁, hbyte _ _ h₂, hbyte _ _ h₃]

theorem readFloat_encodeFloat (bits : UInt32) (rest : List UInt8) :
    readFloat (encodeFloat bits ++ rest) = some (bits, rest) := by
  have hword : ByteOrder.ofLittleEndian (ByteOrder.littleEndian 4 bits.toNat) = bits.toNat :=
    ByteOrder.ofLittleEndian_littleEndian bits.toNat_lt
  rw [readFloat, encodeFloat_eq, ByteOrder.readBytes_append (ByteOrder.littleEndian_length 4 _)]
  show some (UInt32.ofNat _, rest) = some (bits, rest)
  rw [hword, UInt32.ofNat_toNat]

variable {read : Reader}

theorem readItems_encode (items : List Value)
    (hitems : ∀ item ∈ items, ∀ rest, read (encode item ++ rest) = some (item, rest))
    (rest : List UInt8) :
    readItems read items.length (encodeAll items ++ rest) = some (items, rest) := by
  induction items with
  | nil => rfl
  | cons item items ih =>
    have hrest := ih (fun x hx => hitems x (List.mem_cons_of_mem _ hx))
    rw [List.length_cons, readItems, encodeAll, List.append_assoc,
      hitems item List.mem_cons_self]
    show (readItems read items.length (encodeAll items ++ rest)).bind _ = _
    rw [hrest]
    rfl

/-- An array is written as one block and the empty one. -/
theorem readBlocks_encode (items : List Value)
    (hitems : ∀ item ∈ items, ∀ rest, read (encode item ++ rest) = some (item, rest))
    (rest : List UInt8) {fuel : ℕ} (hfuel : (encode (.array items) ++ rest).length ≤ fuel) :
    readBlocks read fuel (encode (.array items) ++ rest) = some (items, rest) := by
  have hend := encodeLong_length_pos 0
  have hstop : ∀ fuel, readBlocks read (fuel + 1) (encodeLong 0 ++ rest) = some ([], rest) := by
    intro fuel
    rw [readBlocks, readLong_encodeLong]
    rfl
  cases items with
  | nil =>
    have hencode : encode (.array []) = encodeLong 0 := by simp [encode]
    rw [hencode] at hfuel ⊢
    rw [List.length_append] at hfuel
    obtain ⟨k, rfl⟩ : ∃ k, fuel = k + 1 := ⟨fuel - 1, by omega⟩
    exact hstop k
  | cons item items =>
    have hencode : encode (.array (item :: items)) =
        encodeLong (item :: items).length ++ (encodeAll (item :: items) ++ encodeLong 0) := by
      simp [encode]
    have hcount := encodeLong_length_pos (item :: items).length
    rw [hencode] at hfuel ⊢
    simp only [List.length_append] at hfuel
    obtain ⟨k, rfl⟩ : ∃ k, fuel = k + 1 + 1 := ⟨fuel - 2, by omega⟩
    have hne : ((item :: items).length : ℤ) ≠ 0 := by simp; omega
    have hnonneg : ¬ ((item :: items).length : ℤ) < 0 := by omega
    rw [readBlocks, List.append_assoc, readLong_encodeLong]
    simp only [Option.bind_eq_bind, Option.bind_some, if_neg hne, if_neg hnonneg,
      Int.natAbs_natCast, List.append_assoc]
    rw [readItems_encode _ hitems, Option.bind_some, hstop k]
    simp

mutual

/-- Whatever follows it, a value that the schema describes is read back. -/
theorem read_encode : (s : Schema) → (value : Value) → s.Describes value → (rest : List UInt8) →
    s.read (encode value ++ rest) = some (value, rest)
  | .null, .null, _, rest => rfl
  | .int, .int z, _, rest => by
    rw [Schema.read, encode, readLong_encodeLong]
    rfl
  | .long, .long z, _, rest => by
    rw [Schema.read, encode, readLong_encodeLong]
    rfl
  | .float, .float bits, _, rest => by
    rw [Schema.read, encode, readFloat_encodeFloat]
    rfl
  | .union branches, .union branch value, h, rest => by
    have hbranch := readBranch_encode branches branch value h rest
    rw [Schema.read, encode, List.append_assoc, readLong_encodeLong]
    show (readBranch branches branch (encode value ++ rest)).bind _ = _
    rw [hbranch]
    rfl
  | .record names fields, .record values, h, rest => by
    have hfields := readFields_encode fields values h rest
    rw [Schema.read, encode, hfields]
    rfl
  | .array items, .array values, h, rest => by
    have hitems : ∀ item ∈ values, ∀ rest, items.read (encode item ++ rest) = some (item, rest) :=
      fun item hitem rest => read_encode items item (h item hitem) rest
    rw [Schema.read, readBlocks_encode values hitems rest (Nat.le_refl _)]
    rfl

theorem readBranch_encode : (branches : List Schema) → (branch : ℕ) → (value : Value) →
    BranchDescribes branches branch value → (rest : List UInt8) →
    readBranch branches branch (encode value ++ rest) = some (value, rest)
  | s :: _, 0, value, h, rest => read_encode s value h rest
  | _ :: branches, k + 1, value, h, rest => readBranch_encode branches k value h rest

theorem readFields_encode : (fields : List Schema) → (values : List Value) →
    FieldsDescribe fields values → (rest : List UInt8) →
    readFields fields (encodeAll values ++ rest) = some (values, rest)
  | [], [], _, rest => rfl
  | s :: fields, value :: values, h, rest => by
    have hfirst := read_encode s value h.1 (encodeAll values ++ rest)
    have hrest := readFields_encode fields values h.2 rest
    rw [readFields, encodeAll, List.append_assoc, hfirst]
    show (readFields fields (encodeAll values ++ rest)).bind _ = _
    rw [hrest]
    rfl

end

end EsSensor.AvroBinary
