import CifApi.Exec.Decoding
import CifApi.Value.Numb

/-! Values as the bytes the database keeps of lists and tables. -/
namespace CifApi

open Exec

/-- A write buffer: the bytes written, and the capacity it was made with, which no write changes. -/
structure WriteBuffer where
  bytes : List UInt8
  capacity : Nat

/-- The capacity a round of `cif_buf_write`'s growth loop proposes. -/
def proposedCapacity (capacity needed : Nat) : Nat :=
  let proposed := capacity * 3 % 2 ^ 64 / 2
  if proposed < capacity then needed else proposed

/-- `cif_buf_write`. -/
def bufWrite (src : List UInt8) : Exec Int WriteBuffer PUnit := fun buf =>
  let needed := (buf.bytes.length + src.length) % 2 ^ 64
  if needed < buf.bytes.length then some (.error Code.error, buf)
  else if buf.capacity < needed && proposedCapacity buf.capacity needed < needed then
    -- every round of the growth loop proposes the same, and it goes on until that is enough
    none
  else some (.ok ⟨⟩, { buf with bytes := buf.bytes ++ src })

/-- The growth of a buffer to this many bytes succeeds. -/
def WriteBuffer.Grows (buf : WriteBuffer) (size : Nat) : Prop :=
  size < 2 ^ 64 ∧ (size ≤ buf.capacity ∨ size ≤ proposedCapacity buf.capacity size)

instance (buf : WriteBuffer) (size : Nat) : Decidable (buf.Grows size) := by
  unfold WriteBuffer.Grows
  exact inferInstance

namespace Kind

abbrev char : Nat := 0
abbrev numb : Nat := 1
abbrev list : Nat := 2
abbrev table : Nat := 3
abbrev na : Nat := 4
abbrev unk : Nat := 5

end Kind

section Write

/-- `SERIALIZE_USTRING`. -/
def serializeUstring (string : UStr) : Exec Int WriteBuffer PUnit := do
  bufWrite (lowBytes 8 string.length)
  bufWrite (string.flatMap (lowBytes 2))

/-- `SERIALIZE_QUOTED_FLAG`. -/
def serializeQuotedFlag (quoted : Bool) : Exec Int WriteBuffer PUnit :=
  bufWrite (lowBytes 4 quoted.toNat)

namespace Value

mutual

/-- `SERIALIZE`. -/
def serialize : Value → Exec Int WriteBuffer PUnit
  | .char text quoted => do
    bufWrite (lowBytes 4 Kind.char)
    serializeUstring text
    serializeQuotedFlag quoted
  | .numb number quoted => do
    bufWrite (lowBytes 4 Kind.numb)
    serializeUstring number.text
    serializeQuotedFlag quoted
  | .list elements => do
    bufWrite (lowBytes 4 Kind.list)
    -- a failure to write the size passes for success
    match ← attempt (bufWrite (lowBytes 8 elements.length)) with
    | .ok _ => listSerialize elements
    | .error _ => pure ⟨⟩
  | .table entries => do
    bufWrite (lowBytes 4 Kind.table)
    tableSerialize entries
  | .na => bufWrite (lowBytes 4 Kind.na)
  | .unk => bufWrite (lowBytes 4 Kind.unk)

/-- The elements `cif_list_serialize` writes. -/
def listSerialize : List Value → Exec Int WriteBuffer PUnit
  | [] => pure ⟨⟩
  | element :: rest => do
    serialize element
    listSerialize rest

/-- `cif_table_serialize`, for entries that have keys of their own. -/
def tableSerialize : List (UStr × UStr × Value) → Exec Int WriteBuffer PUnit
  | [] => bufWrite (lowBytes 4 (2 ^ 32 - 1))
  | (key, keyOrig, value) :: rest => do
    bufWrite (lowBytes 4 0)
    serializeUstring key
    serializeUstring keyOrig
    serialize value
    tableSerialize rest

end

end Value

end Write

section Read

/-- The two-byte units of a string. -/
def unitsOfBytes : List UInt8 → UStr
  | b :: b' :: bytes => ofBytes [b, b'] :: unitsOfBytes bytes
  | _ => []

/-- `DESERIALIZE_USTRING`; a null string fails like a truncated one. -/
def deserializeUstring : Exec Int (List UInt8) UStr := do
  let size ← takeNat 8 Code.error
  if 2 ^ 63 ≤ size then stop Code.error
  else unitsOfBytes <$> takeUnits (size * 2) Code.error

/-- `DESERIALIZE_QUOTED_FLAG`. -/
def deserializeQuotedFlag : Exec Int (List UInt8) Bool := do
  let quoted ← takeNat 4 Code.error
  if quoted = 1 then pure true else if quoted = 0 then pure false else stop Code.error

section

variable (self : PUnit → Exec Int (List UInt8) Value)

/-- The elements `cif_list_deserialize` reads. -/
def listDeserialize : Nat → Exec Int (List UInt8) (List Value)
  | 0 => pure []
  | count + 1 => do
    let element ← self ⟨⟩
    let rest ← listDeserialize count
    pure (element :: rest)

/-- One round of `cif_table_deserialize`. -/
def tableEntry (entries : List (UStr × UStr × Value)) :
    Exec Int (List UInt8) (List (UStr × UStr × Value) ⊕ List (UStr × UStr × Value)) := do
  let flag ← takeNat 4 Code.error
  if flag = 2 ^ 32 - 1 then pure (.inr entries)
  else if flag = 0 then do
    let key ← deserializeUstring
    let keyOrig ← deserializeUstring
    let value ← self ⟨⟩
    pure (.inl (entries ++ [(key, keyOrig, value)]))
  else stop Code.internalError

/-- `DESERIALIZE`, up to the values within. -/
def deserializeStep (_ : PUnit) : Exec Int (List UInt8) Value := do
  let kind ← takeNat 4 Code.error
  if kind = Kind.char then do
    let text ← deserializeUstring
    let quoted ← deserializeQuotedFlag
    pure (.char text quoted)
  else if kind = Kind.numb then do
    let text ← deserializeUstring
    match parseNumb text with
    | .error e => stop e
    | .ok number => do
      let quoted ← deserializeQuotedFlag
      pure (.numb number quoted)
  else if kind = Kind.list then do
    let count ← takeNat 8 Code.error
    Value.list <$> listDeserialize self count
  else if kind = Kind.table then
    Value.table <$> loop (fun input => input.length + 1) (tableEntry self) []
  else if kind = Kind.na then pure .na
  else if kind = Kind.unk then pure .unk
  -- the code gives the value any other number for its kind; no value here has such a kind
  else stop Code.internalError

end

namespace Value

/-- `DESERIALIZE`. -/
def deserialize : Exec Int (List UInt8) Value :=
  fix (fun input => input.length + 1) deserializeStep ⟨⟩

/-- `cif_value_deserialize`. -/
def valueDeserialize (src : List UInt8) : Option (Except Int Value) :=
  (deserialize src).map (·.1)

end Value

end Read

/-- A string of UTF-16 code units, no longer than its length can be told. -/
def Storable (string : UStr) : Prop := string.length < 2 ^ 31 ∧ ∀ c ∈ string, c < 2 ^ 16

instance (string : UStr) : Decidable (Storable string) := by
  unfold Storable
  exact inferInstance

namespace Value

/-- The values the library builds: a number's fields are those its text denotes, and table entries
have keys of their own. -/
inductive Built : Value → Prop where
  | char {text : UStr} {quoted : Bool} (htext : Storable text) : Built (.char text quoted)
  | numb {number : Numb} {quoted : Bool} (htext : Storable number.text)
      (hparse : parseNumb number.text = .ok number) : Built (.numb number quoted)
  | list {elements : List Value} (hsize : elements.length < 2 ^ 64)
      (hbuilt : ∀ element ∈ elements, Built element) : Built (.list elements)
  | table {entries : List (UStr × UStr × Value)}
      (hkeys : ∀ entry ∈ entries, Storable entry.1 ∧ Storable entry.2.1)
      (hbuilt : ∀ entry ∈ entries, Built entry.2.2) : Built (.table entries)
  | na : Built .na
  | unk : Built .unk

end Value

/-- The bytes of a string. -/
def ustringBytes (string : UStr) : List UInt8 :=
  lowBytes 8 string.length ++ string.flatMap (lowBytes 2)

namespace Value

mutual

/-- The bytes of a value. -/
def bytes : Value → List UInt8
  | .char text quoted => lowBytes 4 Kind.char ++ (ustringBytes text ++ lowBytes 4 quoted.toNat)
  | .numb number quoted =>
    lowBytes 4 Kind.numb ++ (ustringBytes number.text ++ lowBytes 4 quoted.toNat)
  | .list elements =>
    lowBytes 4 Kind.list ++ (lowBytes 8 elements.length ++ elementsBytes elements)
  | .table entries => lowBytes 4 Kind.table ++ entriesBytes entries
  | .na => lowBytes 4 Kind.na
  | .unk => lowBytes 4 Kind.unk

def elementsBytes : List Value → List UInt8
  | [] => []
  | element :: rest => bytes element ++ elementsBytes rest

def entriesBytes : List (UStr × UStr × Value) → List UInt8
  | [] => lowBytes 4 (2 ^ 32 - 1)
  | (key, keyOrig, value) :: rest =>
    lowBytes 4 0 ++ (ustringBytes key ++ (ustringBytes keyOrig ++ bytes value)) ++ entriesBytes rest

end

end Value

section Writing

/-- Where a buffer can grow enough, `m` appends exactly `enc`. -/
def Appends (m : Exec Int WriteBuffer PUnit) (enc : List UInt8) : Prop :=
  ∀ buf : WriteBuffer, buf.Grows (buf.bytes.length + enc.length) →
    m buf = some (.ok ⟨⟩, { buf with bytes := buf.bytes ++ enc })

theorem WriteBuffer.Grows.mono {buf : WriteBuffer} {size size' : Nat} (h : buf.Grows size)
    (hle : size' ≤ size) : buf.Grows size' := by
  obtain ⟨hlt, hcap | hprop⟩ := h
  · exact ⟨by omega, .inl (by omega)⟩
  · refine ⟨by omega, .inr ?_⟩
    unfold proposedCapacity at hprop ⊢
    by_cases hover : buf.capacity * 3 % 2 ^ 64 / 2 < buf.capacity
    · simp only [if_pos hover, Nat.le_refl]
    · simp only [if_neg hover] at hprop ⊢
      omega

variable {m m' : Exec Int WriteBuffer PUnit} {enc enc' : List UInt8}

theorem appends_bufWrite (src : List UInt8) : Appends (bufWrite src) src := by
  intro buf hgrows
  obtain ⟨hlt, hcap⟩ := hgrows
  have hneeded : (buf.bytes.length + src.length) % 2 ^ 64 = buf.bytes.length + src.length :=
    Nat.mod_eq_of_lt hlt
  have hroom : ¬ (buf.capacity < buf.bytes.length + src.length
      ∧ proposedCapacity buf.capacity (buf.bytes.length + src.length)
        < buf.bytes.length + src.length) := by omega
  simp only [bufWrite, hneeded]
  rw [if_neg (by omega), if_neg (by simpa using hroom)]

theorem Appends.bind (h : Appends m enc) (h' : Appends m' enc') :
    Appends (m >>= fun _ => m') (enc ++ enc') := by
  intro buf hgrows
  rw [List.length_append] at hgrows
  rw [bind_apply, h buf (hgrows.mono (by omega))]
  have hrest := h' { buf with bytes := buf.bytes ++ enc } (by
    refine hgrows.mono ?_
    simp only [List.length_append]
    omega)
  simpa using hrest

theorem Appends.attempt (h : Appends m enc) (h' : Appends m' enc') :
    Appends (attempt m >>= fun
      | .ok _ => m'
      | .error _ => pure ⟨⟩) (enc ++ enc') := by
  intro buf hgrows
  have hgo := h.bind h' buf hgrows
  have hfirst := h buf (hgrows.mono (by simp only [List.length_append]; omega))
  rw [bind_apply, hfirst] at hgo
  rw [bind_apply, attempt_apply, hfirst]
  exact hgo

theorem appends_serializeUstring (string : UStr) :
    Appends (serializeUstring string) (ustringBytes string) :=
  (appends_bufWrite _).bind (appends_bufWrite _)

namespace Value

mutual

theorem appends_serialize (value : Value) : Appends value.serialize value.bytes := by
  cases value with
  | char text quoted =>
    rw [serialize, bytes]
    exact (appends_bufWrite _).bind ((appends_serializeUstring _).bind (appends_bufWrite _))
  | numb number quoted =>
    rw [serialize, bytes]
    exact (appends_bufWrite _).bind ((appends_serializeUstring _).bind (appends_bufWrite _))
  | list elements =>
    rw [serialize, bytes]
    exact (appends_bufWrite _).bind
      ((appends_bufWrite _).attempt (appends_listSerialize elements))
  | table entries =>
    rw [serialize, bytes]
    exact (appends_bufWrite _).bind (appends_tableSerialize entries)
  | na =>
    rw [serialize, bytes]
    exact appends_bufWrite _
  | unk =>
    rw [serialize, bytes]
    exact appends_bufWrite _

theorem appends_listSerialize (elements : List Value) :
    Appends (listSerialize elements) (elementsBytes elements) := by
  cases elements with
  | nil =>
    intro buf _
    simp [listSerialize, elementsBytes]
  | cons element rest =>
    rw [listSerialize, elementsBytes]
    exact (appends_serialize element).bind (appends_listSerialize rest)

theorem appends_tableSerialize (entries : List (UStr × UStr × Value)) :
    Appends (tableSerialize entries) (entriesBytes entries) := by
  match entries with
  | [] =>
    rw [tableSerialize, entriesBytes]
    exact appends_bufWrite _
  | (key, keyOrig, value) :: rest =>
    rw [tableSerialize, entriesBytes, List.append_assoc, List.append_assoc, List.append_assoc]
    exact (appends_bufWrite _).bind ((appends_serializeUstring key).bind
      ((appends_serializeUstring keyOrig).bind
        ((appends_serialize value).bind (appends_tableSerialize rest))))

end

end Value

end Writing

section Reading

variable {k : Nat}

theorem unitsOfBytes_lowBytes_append (c : UChar) (bytes : List UInt8) :
    unitsOfBytes (lowBytes 2 c ++ bytes) = ofBytes (lowBytes 2 c) :: unitsOfBytes bytes := rfl

theorem unitsOfBytes_flatMap {string : UStr} (h : ∀ c ∈ string, c < 2 ^ 16) :
    unitsOfBytes (string.flatMap (lowBytes 2)) = string := by
  induction string with
  | nil => rfl
  | cons c rest ih =>
    have hc : ofBytes (lowBytes 2 c) = c := ofBytes_lowBytes (by simpa using h c (by simp))
    have hrest := ih fun c' hc' => h c' (by simp [hc'])
    rw [List.flatMap_cons, unitsOfBytes_lowBytes_append, hc, hrest]

theorem length_flatMap_lowBytes (string : UStr) :
    (string.flatMap (lowBytes 2)).length = string.length * 2 := by
  induction string with
  | nil => rfl
  | cons c rest ih =>
    rw [List.flatMap_cons, List.length_append, ih, length_lowBytes, List.length_cons]
    omega

theorem decodes_ustring {string : UStr} (h : Storable string) :
    Decodes k deserializeUstring (ustringBytes string) string := by
  obtain ⟨hlen, hunits⟩ := h
  refine (Decodes.takeNat (n := string.length) (by omega)).bind ?_
  rw [if_neg (by omega)]
  have htext := (Decodes.takeUnits (k := k) (e := Code.error)
    (length_flatMap_lowBytes string)).map (g := unitsOfBytes)
  rwa [unitsOfBytes_flatMap hunits] at htext

theorem decodes_quotedFlag (quoted : Bool) :
    Decodes k deserializeQuotedFlag (lowBytes 4 quoted.toNat) quoted := by
  cases quoted with
  | false => exact (Decodes.takeNat (n := 0) (by omega)).bind_pure rfl
  | true => exact (Decodes.takeNat (n := 1) (by omega)).bind_pure rfl

variable {self : PUnit → Exec Int (List UInt8) Value}

theorem decodes_listDeserialize {elements : List Value}
    (hself : ∀ element ∈ elements, Decodes k (self ⟨⟩) element.bytes element) :
    Decodes k (listDeserialize self elements.length) (Value.elementsBytes elements) elements := by
  induction elements with
  | nil =>
    rw [Value.elementsBytes]
    exact Decodes.pure []
  | cons element rest ih =>
    rw [Value.elementsBytes]
    have hrest := ih fun e he => hself e (by simp [he])
    exact (hself element (by simp)).bind (hrest.bind_pure rfl)

theorem decodes_tableEntry {acc : List (UStr × UStr × Value)} {key keyOrig : UStr} {value : Value}
    (hkey : Storable key) (horig : Storable keyOrig)
    (hself : Decodes k (self ⟨⟩) value.bytes value) :
    Decodes k (tableEntry self acc)
      (lowBytes 4 0 ++ (ustringBytes key ++ (ustringBytes keyOrig ++ value.bytes)))
      (.inl (acc ++ [(key, keyOrig, value)])) :=
  (Decodes.takeNat (n := 0) (by omega)).bind
    ((decodes_ustring hkey).bind ((decodes_ustring horig).bind (hself.bind_pure rfl)))

theorem decodes_tableRounds {entries : List (UStr × UStr × Value)}
    (hkeys : ∀ entry ∈ entries, Storable entry.1 ∧ Storable entry.2.1)
    (hself : ∀ entry ∈ entries, Decodes k (self ⟨⟩) entry.2.2.bytes entry.2.2)
    (acc : List (UStr × UStr × Value)) (j : Nat) (hj : j ≤ k) :
    Decodes j (rounds (tableEntry self) j acc) (Value.entriesBytes entries) (acc ++ entries) := by
  induction entries generalizing acc j with
  | nil =>
    rw [Value.entriesBytes, List.append_nil]
    cases j with
    | zero => exact Decodes.zero _ _ _
    | succ j =>
      have hlast : Decodes (j + 1) (tableEntry self acc) (lowBytes 4 (2 ^ 32 - 1)) (.inr acc) :=
        (Decodes.takeNat (n := 2 ^ 32 - 1) (by omega)).bind_pure rfl
      exact hlast.bind_pure rfl
  | cons entry rest ih =>
    obtain ⟨key, keyOrig, value⟩ := entry
    rw [Value.entriesBytes]
    cases j with
    | zero => exact Decodes.zero _ _ _
    | succ j =>
      obtain ⟨hkey, horig⟩ := hkeys (key, keyOrig, value) (by simp)
      have hvalue := (hself (key, keyOrig, value) (by simp)).mono hj
      have hrest := ih (fun e he => hkeys e (by simp [he])) (fun e he => hself e (by simp [he]))
        (acc ++ [(key, keyOrig, value)]) j (by omega)
      rw [List.append_assoc, List.singleton_append] at hrest
      exact (decodes_tableEntry hkey horig hvalue).rounds
        (by simp only [List.length_append, length_lowBytes]; omega) hrest

/-- The kind takes up input, so that what it announces may be read to a smaller depth. -/
theorem decodes_step {kind : Nat} {enc : List UInt8} {value : Value}
    {f : Nat → Exec Int (List UInt8) Value} (hkind : kind < 2 ^ 32)
    (h : Decodes k (f kind) enc value) :
    Decodes (k + 1) (takeNat 4 Code.error >>= f) (lowBytes 4 kind ++ enc) value :=
  (Decodes.takeNat (by omega)).bind_of_lt h (by rw [length_lowBytes]; omega)

namespace Value

theorem decodes_unroll {value : Value} (hv : value.Built) (k : Nat) :
    Decodes k (unroll deserializeStep k ⟨⟩) value.bytes value := by
  induction hv generalizing k with
  | char htext =>
    cases k with
    | zero => exact Decodes.zero _ _ _
    | succ k =>
      rw [bytes]
      exact decodes_step (by decide)
        ((decodes_ustring htext).bind ((decodes_quotedFlag _).bind_pure rfl))
  | numb htext hparse =>
    cases k with
    | zero => exact Decodes.zero _ _ _
    | succ k =>
      rw [bytes]
      refine decodes_step (by decide) ((decodes_ustring htext).bind ?_)
      rw [hparse]
      exact (decodes_quotedFlag _).bind_pure rfl
  | list hsize _ ih =>
    cases k with
    | zero => exact Decodes.zero _ _ _
    | succ k =>
      rw [bytes]
      exact decodes_step (by decide) ((Decodes.takeNat (by omega)).bind
        (decodes_listDeserialize fun e he => ih e he k).map)
  | table hkeys _ ih =>
    cases k with
    | zero => exact Decodes.zero _ _ _
    | succ k =>
      rw [bytes]
      exact decodes_step (by decide) (Decodes.loop
        (decodes_tableRounds hkeys (fun e he => ih e he k) [])).map
  | na =>
    cases k with
    | zero => exact Decodes.zero _ _ _
    | succ k => exact (Decodes.takeNat (n := Kind.na) (by decide)).bind_pure rfl
  | unk =>
    cases k with
    | zero => exact Decodes.zero _ _ _
    | succ k => exact (Decodes.takeNat (n := Kind.unk) (by decide)).bind_pure rfl

theorem decodes_deserialize {value : Value} (hv : value.Built) :
    Decodes k deserialize value.bytes value where
  whole := fun rest _ => (decodes_unroll hv _).whole rest (Nat.lt_succ_self _)
  cut := fun front back heq hne _ =>
    (decodes_unroll hv _).cut front back heq hne (Nat.lt_succ_self _)

/-- Serialized bytes, whatever follows them, read back as the value, and no shorter part of them
does. -/
theorem serialize_deserialize {value : Value} (hv : value.Built) {buf : WriteBuffer}
    (hgrows : buf.Grows (buf.bytes.length + value.bytes.length)) :
    ∃ enc, value.serialize buf = some (.ok ⟨⟩, { buf with bytes := buf.bytes ++ enc })
      ∧ (∀ rest, deserialize (enc ++ rest) = some (.ok value, rest))
      ∧ ∀ front back, front ++ back = enc → back ≠ [] →
          ∃ e, valueDeserialize front = some (.error e) := by
  refine ⟨value.bytes, appends_serialize value buf hgrows, ?_, ?_⟩
  · intro rest
    exact (decodes_deserialize hv).whole rest (Nat.lt_succ_self _)
  · intro front back heq hne
    obtain ⟨e, s, hcut⟩ := (decodes_deserialize hv).cut front back heq hne (Nat.lt_succ_self _)
    exact ⟨e, by rw [valueDeserialize, hcut]; rfl⟩

/-- A list of a number and a table with one entry, after one byte in the buffer. -/
theorem serialize_deserialize_list :
    let number : Numb := ⟨units "1.5(2)", 1, units "15", some (units "2"), 1⟩
    let value := Value.list [.numb number false, .table [(units "a", units "A", .unk)]]
    ∃ enc, value.serialize ⟨[7], 512⟩ = some (.ok ⟨⟩, ⟨[7] ++ enc, 512⟩)
      ∧ (∀ rest, deserialize (enc ++ rest) = some (.ok value, rest))
      ∧ ∀ front back, front ++ back = enc → back ≠ [] →
          ∃ e, valueDeserialize front = some (.error e) := by
  intro number value
  have hnumber : Built (.numb number false) := .numb (by decide +kernel) (by decide +kernel)
  have htable : Built (.table [(units "a", units "A", .unk)]) :=
    .table (by decide +kernel) (by simpa using Built.unk)
  have hvalue : Built value := .list (by decide) (by simpa using ⟨hnumber, htable⟩)
  exact @serialize_deserialize _ hvalue ⟨[7], 512⟩ (by decide +kernel)

end Value

end Reading

end CifApi
