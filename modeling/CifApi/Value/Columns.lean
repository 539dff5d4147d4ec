import CifApi.Exec.Rules
import CifApi.Value.BignumBounds
import CifApi.Value.Serialization

/-! Values as the columns of a row of the database, and what they come to when they are read
back. -/
namespace CifApi

open Exec

/-- What the library leaves to its surroundings: what a column gives back for the text bound to it,
if it can be bound, how doubles round, and `floor((log10(k) + m) / log10(2.0))`. -/
structure Platform where
  columnText : UStr → Option UStr
  rounding : RoundingMode
  floorLog2 : Nat → Int → Int
  floorLog2_spec : FloorLog2 floorLog2

/-- Texts are kept, doubles round to the nearest, and logarithms are exact. -/
def Platform.exact : Platform where
  columnText := some
  rounding := .toNearest
  floorLog2 := exactFloorLog2
  floorLog2_spec := exactFloorLog2_spec

/-- What the column `val` holds. -/
inductive ValColumn where
  | text (text : UStr)
  | double (negative : Bool) (magnitude : DoubleResult)
  | blob (bytes : List UInt8)

/-- The columns of a row that its value takes; `none` is a null. -/
structure Columns where
  kind : Nat
  quoted : Option Bool := none
  valText : Option UStr := none
  val : Option ValColumn := none
  valDigits : Option UStr := none
  suDigits : Option UStr := none
  scale : Option Int := none

namespace Columns

/-- A string of digits, as the table wants it where there is one. -/
def isDigits (digits : UStr) : Bool := digits ≠ [] && digits.all isDigit

/-- The checks of the table `item_value`. -/
def check (c : Columns) : Bool :=
  (if c.val.isNone then [Kind.na, Kind.unk] else
    [Kind.char, Kind.numb, Kind.list, Kind.table]).contains c.kind
    && c.valText.isNone == !([Kind.char, Kind.numb].contains c.kind)
    && if c.kind = Kind.numb then
      c.scale.isSome && c.valDigits.all isDigits && c.suDigits.all isDigits
    else c.valDigits.isNone && c.suDigits.isNone && c.scale.isNone

/-- `GET_VALUE_PROPS`; `none` is a run that does not end. -/
def getValueProps (c : Columns) : Option (Except Int Value) :=
  let quoted := c.quoted.getD false
  if c.kind = Kind.char then
    some (match c.valText with
      | some text => .ok (.char text quoted)
      | none => .error Code.internalError)
  else if c.kind = Kind.numb then
    some (match c.valText, c.valDigits with
      | some text, some digits =>
        if text ≠ [] && digits ≠ [] then
          let sign : Int := if charAt text 0 = UChar.minus then -1 else 1
          .ok (.numb ⟨text, sign, digits, c.suDigits, c.scale.getD 0⟩ quoted)
        else .error Code.internalError
      | _, _ => .error Code.internalError)
  else if c.kind = Kind.list || c.kind = Kind.table then
    match c.val with
    | some (.blob bytes) => (Value.valueDeserialize bytes).map fun
      | .ok value => .ok value
      | .error _ => .error Code.internalError
    | _ => some (.error Code.internalError)
  else if c.kind = Kind.na then some (.ok .na)
  else if c.kind = Kind.unk then some (.ok .unk)
  else some (.error Code.internalError)

end Columns

/-- What `SET_VALUE_PROPS` comes to: the columns of a value, or the code of a failure; `none` is a
run that does not end, or one that leaves an array. -/
abbrev ValueProps : Type := Value → Option (Except Int Columns)

/-- The value can be written to columns that pass the table's checks. -/
def Value.Writable (props : ValueProps) (value : Value) : Prop :=
  ∃ columns, props value = some (.ok columns) ∧ columns.check = true

theorem Value.writable_iff {props : ValueProps} {value : Value} {columns : Columns}
    (h : props value = some (.ok columns)) : value.Writable props ↔ columns.check = true := by
  simp [Value.Writable, h]

/-- The buffer `cif_value_serialize` begins with. -/
def serializationBuffer : WriteBuffer := ⟨[], 512⟩

namespace Value

section

variable (platform : Platform)

/-- `cif_value_get_number` for a number; there is no result where `to_double` leaves its array. -/
def getNumber (number : Numb) : Option ValColumn :=
  (toDouble platform.rounding platform.floorLog2 number.digits number.scale).map
    (.double (number.sign < 0))

/-- The columns of a list or a table. -/
def blobProps (kind : Nat) (value : Value) : Option (Except Int Columns) :=
  match (value.serialize serializationBuffer : Option (Except Int Unit × WriteBuffer)) with
  | none => none
  | some (.ok _, buf) => some (.ok { kind, val := some (.blob buf.bytes) })
  | some (.error e, _) => some (.error e)

/-- `SET_VALUE_PROPS`. -/
def setValueProps : ValueProps
  | .char text quoted => some (match platform.columnText text with
    | some text => .ok { kind := Kind.char, quoted, valText := text, val := some (.text text) }
    | none => .error Code.error)
  | .numb number quoted =>
    match platform.columnText number.text with
    | none => some (.error Code.error)
    | some text => (getNumber platform number).map fun val => .ok {
        kind := Kind.numb, quoted, valText := text, val := some val
        valDigits := number.digits, suDigits := number.suDigits, scale := number.scale }
  | .list elements => blobProps Kind.list (.list elements)
  | .table entries => blobProps Kind.table (.table entries)
  | .na => some (.ok { kind := Kind.na })
  | .unk => some (.ok { kind := Kind.unk })

end

/-- The values the library makes: a number's sign is that of its text, and its digits, of which
rounding may leave none, are digits. -/
inductive Made : Value → Prop where
  | char {text : UStr} {quoted : Bool} (htext : Storable text) : Made (.char text quoted)
  | numb {number : Numb} {quoted : Bool} (htext : Storable number.text) (hne : number.text ≠ [])
      (hsign : number.sign = if charAt number.text 0 = UChar.minus then -1 else 1)
      (hdigits : number.digits.all isDigit = true)
      (hsu : number.suDigits.all Columns.isDigits = true) : Made (.numb number quoted)
  | list {elements : List Value} (hsize : elements.length < 2 ^ 64)
      (hmade : ∀ element ∈ elements, Made element) : Made (.list elements)
  | table {entries : List (UStr × UStr × Value)}
      (hkeys : ∀ entry ∈ entries, Storable entry.1 ∧ Storable entry.2.1)
      (hmade : ∀ entry ∈ entries, Made entry.2.2) : Made (.table entries)
  | na : Made .na
  | unk : Made .unk

/-- Every number has the fields that its text denotes. -/
inductive Denoted : Value → Prop where
  | char {text : UStr} {quoted : Bool} : Denoted (.char text quoted)
  | numb {number : Numb} {quoted : Bool} (hparse : parseNumb number.text = .ok number) :
    Denoted (.numb number quoted)
  | list {elements : List Value} (hall : ∀ element ∈ elements, Denoted element) :
    Denoted (.list elements)
  | table {entries : List (UStr × UStr × Value)} (hall : ∀ entry ∈ entries, Denoted entry.2.2) :
    Denoted (.table entries)
  | na : Denoted .na
  | unk : Denoted .unk

theorem Made.built {value : Value} (h : value.Made) (hdenoted : value.Denoted) : value.Built := by
  induction h with
  | char htext => exact .char htext
  | numb htext =>
    cases hdenoted with
    | numb hparse => exact .numb htext hparse
  | list hsize _ ih =>
    cases hdenoted with
    | list hall => exact .list hsize fun element he => ih element he (hall element he)
  | table hkeys _ ih =>
    cases hdenoted with
    | table hall => exact .table hkeys fun entry he => ih entry he (hall entry he)
  | na => exact .na
  | unk => exact .unk

/-- What a value has to be for a row to give it back. -/
def Kept (platform : Platform) (value : Value) : Prop :=
  match value with
  | .char text _ => platform.columnText text = some text
  | .numb number _ => number.digits ≠ [] ∧ platform.columnText number.text = some number.text
      ∧ FitsArray platform.floorLog2 number.digits number.scale
  | .list _ | .table _ => value.bytes.length ≤ 768 ∧ value.Denoted
  | .na | .unk => True

end Value

section Reading

variable {self : PUnit → Exec Int (List UInt8) Value}

theorem ensures_listDeserialize
    (hself : ∀ input, Ensures (self ⟨⟩) input (fun value _ => value.Denoted) (fun _ _ => True))
    (count : Nat) (input : List UInt8) :
    Ensures (listDeserialize self count) input
      (fun elements _ => ∀ element ∈ elements, element.Denoted) (fun _ _ => True) := by
  induction count generalizing input with
  | zero => simp [listDeserialize]
  | succ count ih =>
    refine (hself input).bind fun element rest helement =>
      (ih rest).bind fun elements _ helements => ?_
    rw [post_pure]
    intro element' hmem
    rcases List.mem_cons.mp hmem with rfl | hmem
    · exact helement
    · exact helements element' hmem

theorem ensures_any {α : Type} (m : Exec Int (List UInt8) α) (input : List UInt8) :
    Ensures m input (fun _ _ => True) (fun _ _ => True) := by
  unfold Ensures Post
  split <;> trivial

theorem ensures_tableEntry
    (hself : ∀ input, Ensures (self ⟨⟩) input (fun value _ => value.Denoted) (fun _ _ => True))
    {entries : List (UStr × UStr × Value)} (hentries : ∀ entry ∈ entries, entry.2.2.Denoted)
    (input : List UInt8) :
    Ensures (tableEntry self entries) input
      (Round (fun entries _ => ∀ entry ∈ entries, entry.2.2.Denoted)
        (fun entries _ => ∀ entry ∈ entries, entry.2.2.Denoted)) (fun _ _ => True) := by
  refine (ensures_any _ _).bind fun flag rest _ => ?_
  rw [post_ite]
  refine ⟨fun _ => hentries, fun _ => ?_⟩
  rw [post_ite]
  refine ⟨fun _ => ?_, fun _ => trivial⟩
  refine (ensures_any _ _).bind fun key rest _ => (ensures_any _ _).bind fun keyOrig rest _ => ?_
  refine (hself rest).bind fun value _ hvalue => ?_
  rw [post_pure]
  intro entry hmem
  rcases List.mem_append.mp hmem with hold | hnew
  · exact hentries entry hold
  · obtain rfl := List.mem_singleton.mp hnew
    exact hvalue

/-- What is read has numbers as their texts denote them. -/
theorem ensures_deserialize (input : List UInt8) :
    Ensures Value.deserialize input (fun value _ => value.Denoted) (fun _ _ => True) := by
  have hstep : ∀ self : PUnit → Exec Int (List UInt8) Value,
      (∀ i s, True → Ensures (self i) s (fun value _ => value.Denoted) (fun _ _ => True)) →
      ∀ i s, True → Ensures (deserializeStep self i) s (fun value _ => value.Denoted) (fun _ _ =>
        True) := by
    intro self hself i s _
    refine (ensures_any _ _).bind fun kind rest _ => ?_
    by_cases hchar : kind = Kind.char
    · rw [if_pos hchar]
      exact (ensures_any _ _).bind fun text rest _ => (ensures_any _ _).bind fun quoted rest _ =>
        .char
    · rw [if_neg hchar]
      by_cases hnumb : kind = Kind.numb
      · rw [if_pos hnumb]
        refine (ensures_any _ _).bind fun text rest _ => ?_
        cases hparse : parseNumb text with
        | error e => trivial
        | ok number =>
          refine (ensures_any _ _).bind fun quoted rest _ => .numb ?_
          rw [parseNumb_text hparse, hparse]
      · rw [if_neg hnumb]
        by_cases hlist : kind = Kind.list
        · rw [if_pos hlist]
          refine (ensures_any _ _).bind fun count rest _ => ?_
          rw [post_map]
          exact (ensures_listDeserialize (fun input => hself ⟨⟩ input trivial) count rest).imp
            (fun _ _ hall => .list hall) (fun _ _ _ => trivial)
        · rw [if_neg hlist]
          by_cases htable : kind = Kind.table
          · rw [if_pos htable, post_map]
            refine (Ensures.loop (I := fun (entries : List (UStr × UStr × Value)) _ =>
              ∀ entry ∈ entries, entry.2.2.Denoted) (fun entries s hentries =>
                ensures_tableEntry (fun input => hself ⟨⟩ input trivial) hentries s) ?_).imp
              (fun _ _ hall => .table hall) (fun _ _ _ => trivial)
            simp
          · rw [if_neg htable]
            by_cases hna : kind = Kind.na
            · rw [if_pos hna]
              exact .na
            · rw [if_neg hna]
              by_cases hunk : kind = Kind.unk
              · rw [if_pos hunk]
                exact .unk
              · rw [if_neg hunk]
                trivial
  exact Ensures.fix hstep trivial

end Reading

section Writing

variable {m m' : Exec Int WriteBuffer Unit} {enc enc' : List UInt8}

/-- A buffer that was made with 512 bytes grows once, to 768. -/
theorem grows_iff {buf : WriteBuffer} (h : buf.capacity = 512) {size : Nat} :
    buf.Grows size ↔ size ≤ 768 := by
  have hproposed : proposedCapacity buf.capacity size = 768 := by
    rw [h]
    rfl
  rw [WriteBuffer.Grows, h, ← h, hproposed, h]
  omega

/-- Where such a buffer cannot take `enc`, writing it does not end. -/
def Outgrows (m : Exec Int WriteBuffer Unit) (enc : List UInt8) : Prop :=
  ∀ buf : WriteBuffer, buf.capacity = 512 → buf.bytes.length ≤ 768 →
    768 < buf.bytes.length + enc.length → m buf = none

theorem outgrows_bufWrite {src : List UInt8} (hsrc : src.length < 2 ^ 63) :
    Outgrows (bufWrite src) src := by
  intro buf hcap hle hlt
  have hneeded : (buf.bytes.length + src.length) % 2 ^ 64 = buf.bytes.length + src.length :=
    Nat.mod_eq_of_lt (by omega)
  have hproposed : proposedCapacity 512 (buf.bytes.length + src.length) = 768 := rfl
  simp only [bufWrite, hneeded, hcap, hproposed]
  rw [if_neg (by omega), if_pos (by simp; omega)]

theorem Outgrows.bind (happends : Appends m enc) (h : Outgrows m enc) (h' : Outgrows m' enc') :
    Outgrows (m >>= fun _ => m') (enc ++ enc') := by
  intro buf hcap hle hlt
  rw [List.length_append] at hlt
  by_cases hfirst : 768 < buf.bytes.length + enc.length
  · rw [bind_apply, h buf hcap hle hfirst]
  · have hgrows : buf.Grows (buf.bytes.length + enc.length) := (grows_iff hcap).mpr (by omega)
    rw [bind_apply, happends buf hgrows]
    refine h' _ hcap ?_ ?_
    · simp only [List.length_append]
      omega
    · simp only [List.length_append]
      omega

theorem Outgrows.attempt (happends : Appends m enc) (h : Outgrows m enc) (h' : Outgrows m' enc') :
    Outgrows (attempt m >>= fun
      | .ok _ => m'
      | .error _ => pure ⟨⟩) (enc ++ enc') := by
  intro buf hcap hle hlt
  have hboth := h.bind happends h' buf hcap hle hlt
  rw [bind_apply, attempt_apply]
  rw [bind_apply] at hboth
  by_cases hfirst : 768 < buf.bytes.length + enc.length
  · rw [h buf hcap hle hfirst]
  · have hgrows : buf.Grows (buf.bytes.length + enc.length) := (grows_iff hcap).mpr (by omega)
    rw [happends buf hgrows] at hboth ⊢
    exact hboth

theorem outgrows_lowBytes (k n : Nat) (hk : k < 2 ^ 63) :
    Outgrows (bufWrite (lowBytes k n)) (lowBytes k n) :=
  outgrows_bufWrite (by rwa [length_lowBytes])

theorem outgrows_serializeUstring {string : UStr} (h : Storable string) :
    Outgrows (serializeUstring string) (ustringBytes string) := by
  refine Outgrows.bind (appends_bufWrite _) (outgrows_lowBytes _ _ (by decide))
    (outgrows_bufWrite ?_)
  have hlen := h.1
  rw [length_flatMap_lowBytes]
  omega

namespace Value

theorem outgrows_listSerialize {elements : List Value}
    (h : ∀ element ∈ elements, Outgrows element.serialize element.bytes) :
    Outgrows (listSerialize elements) (elementsBytes elements) := by
  induction elements with
  | nil =>
    intro buf _ hle hlt
    simp only [elementsBytes, List.length_nil] at hlt
    omega
  | cons element rest ih =>
    rw [listSerialize, elementsBytes]
    exact (h element (List.mem_cons_self ..)).bind (appends_serialize element)
      (ih fun e he => h e (List.mem_cons_of_mem _ he))

theorem outgrows_tableSerialize {entries : List (UStr × UStr × Value)}
    (hkeys : ∀ entry ∈ entries, Storable entry.1 ∧ Storable entry.2.1)
    (h : ∀ entry ∈ entries, Outgrows entry.2.2.serialize entry.2.2.bytes) :
    Outgrows (tableSerialize entries) (entriesBytes entries) := by
  induction entries with
  | nil =>
    rw [tableSerialize, entriesBytes]
    exact outgrows_lowBytes _ _ (by decide)
  | cons entry rest ih =>
    obtain ⟨key, keyOrig, value⟩ := entry
    obtain ⟨hkey, horig⟩ := hkeys _ (List.mem_cons_self ..)
    rw [tableSerialize, entriesBytes, List.append_assoc, List.append_assoc, List.append_assoc]
    have hrest := ih (fun e he => hkeys e (List.mem_cons_of_mem _ he))
      fun e he => h e (List.mem_cons_of_mem _ he)
    refine (outgrows_lowBytes _ _ (by decide)).bind (appends_bufWrite _) ?_
    refine (outgrows_serializeUstring hkey).bind (appends_serializeUstring key) ?_
    refine (outgrows_serializeUstring horig).bind (appends_serializeUstring keyOrig) ?_
    exact (h _ (List.mem_cons_self ..)).bind (appends_serialize value) hrest

/-- A value whose bytes are more than a buffer comes to hold is never done with. -/
theorem Made.outgrows {value : Value} (h : value.Made) : Outgrows value.serialize value.bytes := by
  induction h with
  | char htext =>
    rw [serialize, bytes]
    exact (outgrows_lowBytes _ _ (by decide)).bind (appends_bufWrite _)
      ((outgrows_serializeUstring htext).bind (appends_serializeUstring _)
        (outgrows_lowBytes _ _ (by decide)))
  | numb htext =>
    rw [serialize, bytes]
    exact (outgrows_lowBytes _ _ (by decide)).bind (appends_bufWrite _)
      ((outgrows_serializeUstring htext).bind (appends_serializeUstring _)
        (outgrows_lowBytes _ _ (by decide)))
  | list _ _ ih =>
    rw [serialize, bytes]
    exact (outgrows_lowBytes _ _ (by decide)).bind (appends_bufWrite _)
      ((outgrows_lowBytes _ _ (by decide)).attempt (appends_bufWrite _) (outgrows_listSerialize ih))
  | table hkeys _ ih =>
    rw [serialize, bytes]
    exact (outgrows_lowBytes _ _ (by decide)).bind (appends_bufWrite _)
      (outgrows_tableSerialize hkeys ih)
  | na =>
    rw [serialize, bytes]
    exact outgrows_lowBytes _ _ (by decide)
  | unk =>
    rw [serialize, bytes]
    exact outgrows_lowBytes _ _ (by decide)

end Value

end Writing

section Keeping

namespace Value

variable {platform : Platform}

/-- What a row that a value is written to gives back; `none` is a run that does not end. -/
def reread (platform : Platform) (value : Value) : Option (Except Int Value) :=
  match value.setValueProps platform with
  | none => none
  | some (.error e) => some (.error e)
  | some (.ok columns) => columns.getValueProps

theorem blobProps_eq {value : Value} (h : value.Made) (kind : Nat) :
    blobProps kind value = if value.bytes.length ≤ 768 then
      some (.ok { kind, val := some (.blob value.bytes) }) else none := by
  have hlen : serializationBuffer.bytes.length + value.bytes.length = value.bytes.length := by
    simp [serializationBuffer]
  by_cases hfits : value.bytes.length ≤ 768
  · have hwrite := appends_serialize value serializationBuffer ((grows_iff rfl).mpr (by rwa [hlen]))
    rw [blobProps, hwrite, if_pos hfits]
    rfl
  · have hnone := h.outgrows serializationBuffer rfl (by decide) (by omega)
    rw [blobProps, hnone, if_neg hfits]

/-- A list or a table comes back from its bytes exactly if its numbers have the fields of their
texts. -/
theorem valueDeserialize_bytes_iff {value : Value} (h : value.Made) :
    valueDeserialize value.bytes = some (.ok value) ↔ value.Denoted := by
  constructor
  · intro hread
    obtain ⟨⟨r, rest⟩, hrun, hr⟩ := Option.map_eq_some_iff.mp hread
    obtain rfl : r = .ok value := hr
    exact (ensures_deserialize value.bytes).of_ok hrun
  · intro hdenoted
    have hwhole :=
      (decodes_deserialize (k := value.bytes.length + 1) (h.built hdenoted)).whole [] (by simp)
    rw [List.append_nil] at hwhole
    rw [valueDeserialize, hwhole]
    rfl

theorem char_kept_iff (text : UStr) (quoted : Bool) :
    (char text quoted).Writable (setValueProps platform)
      ∧ (char text quoted).reread platform = some (.ok (.char text quoted))
      ↔ platform.columnText text = some text := by
  constructor
  · rintro ⟨_, hread⟩
    cases htext : platform.columnText text with
    | none => simp [reread, setValueProps, htext] at hread
    | some kept =>
      simp only [reread, setValueProps, htext, Columns.getValueProps, if_true] at hread
      obtain rfl : kept = text := by simpa using hread
      rfl
  · intro htext
    have hset : (char text quoted).setValueProps platform = some (.ok
        { kind := Kind.char, quoted, valText := text, val := some (.text text) }) := by
      simp only [setValueProps, htext]
    refine ⟨⟨_, hset, rfl⟩, ?_⟩
    simp only [reread, hset]
    rfl

/-- The double of a number is there where its digits fit. -/
theorem getNumber_isSome_iff {number : Numb} (hdigits : number.digits.all isDigit = true) :
    (getNumber platform number).isSome ↔
      FitsArray platform.floorLog2 number.digits number.scale := by
  rw [getNumber, Option.isSome_map]
  exact toDouble_isSome_iff platform.floorLog2_spec (List.all_eq_true.mp hdigits) platform.rounding

theorem numb_kept_iff {number : Numb} {quoted : Bool} (h : (numb number quoted).Made) :
    (numb number quoted).Writable (setValueProps platform)
        ∧ (numb number quoted).reread platform = some (.ok (.numb number quoted))
      ↔ (numb number quoted).Kept platform := by
  cases h with
  | numb htext hne hsign hdigits hsu =>
  rw [Kept, ← getNumber_isSome_iff hdigits]
  constructor
  · rintro ⟨⟨columns, hset, hcheck⟩, hread⟩
    cases hkept : platform.columnText number.text with
    | none => simp [setValueProps, hkept] at hset
    | some kept =>
      cases hdouble : getNumber platform number with
      | none => simp [setValueProps, hkept, hdouble] at hset
      | some val =>
        simp only [setValueProps, hkept, hdouble, Option.map_some] at hset
        obtain rfl := Except.ok.inj (Option.some.inj hset)
        have hne' : number.digits ≠ [] := by
          intro hnil
          simp [Columns.check, Columns.isDigits, hnil] at hcheck
        refine ⟨hne', ?_, rfl⟩
        simp only [reread, setValueProps, hkept, hdouble, Option.map_some,
          Columns.getValueProps] at hread
        by_cases hempty : kept = []
        · simp [hempty] at hread
        · simp [hempty, hne'] at hread
          rw [← hread]
  · rintro ⟨hne', hkept, hdouble⟩
    obtain ⟨val, hval⟩ := Option.isSome_iff_exists.mp hdouble
    have hset : (numb number quoted).setValueProps platform = some (.ok {
        kind := Kind.numb, quoted, valText := number.text, val := some val
        valDigits := number.digits, suDigits := number.suDigits, scale := number.scale }) := by
      simp only [setValueProps, hkept, hval, Option.map_some]
    refine ⟨⟨_, hset, ?_⟩, ?_⟩
    · simp [Columns.check, Columns.isDigits, hne', hdigits, hsu]
    · simp only [reread, hset]
      simp [Columns.getValueProps, hne, hne', ← hsign]

/-- For the kinds that are kept as their bytes. -/
theorem blob_kept_iff {value : Value} (h : value.Made) {kind : Nat}
    (hkind : kind = Kind.list ∨ kind = Kind.table)
    (hset : value.setValueProps platform = blobProps kind value) :
    value.Writable (setValueProps platform) ∧ value.reread platform = some (.ok value)
      ↔ value.bytes.length ≤ 768 ∧ value.Denoted := by
  rw [← valueDeserialize_bytes_iff h, Writable, reread, hset, blobProps_eq h]
  by_cases hfits : value.bytes.length ≤ 768
  · rw [if_pos hfits]
    have hcheck : ({ kind, val := some (.blob value.bytes) } : Columns).check = true := by
      rcases hkind with rfl | rfl <;> rfl
    have hread : ({ kind, val := some (.blob value.bytes) } : Columns).getValueProps
        = some (.ok value)
        ↔ valueDeserialize value.bytes = some (.ok value) := by
      have heq : ({ kind, val := some (.blob value.bytes) } : Columns).getValueProps
          = (valueDeserialize value.bytes).map fun
            | .ok value => .ok value
            | .error _ => .error Code.internalError := by
        rcases hkind with rfl | rfl <;> rfl
      rw [heq]
      rcases valueDeserialize value.bytes with _ | ⟨_ | _⟩ <;> simp
    simp only [hread, hfits, true_and]
    exact ⟨fun hboth => hboth.2, fun hread => ⟨⟨_, rfl, hcheck⟩, hread⟩⟩
  · simp [hfits]

/-- A value survives being written to a row and read back if and only if it is one to be kept. -/
theorem writable_and_reread_iff {value : Value} (h : value.Made) :
    value.Writable (setValueProps platform) ∧ value.reread platform = some (.ok value) ↔
      value.Kept platform := by
  cases value with
  | char text quoted => exact char_kept_iff text quoted
  | numb number quoted => exact numb_kept_iff h
  | list elements => exact blob_kept_iff h (.inl rfl) rfl
  | table entries => exact blob_kept_iff h (.inr rfl) rfl
  | na => exact ⟨fun _ => trivial, fun _ => ⟨⟨_, rfl, rfl⟩, rfl⟩⟩
  | unk => exact ⟨fun _ => trivial, fun _ => ⟨⟨_, rfl, rfl⟩, rfl⟩⟩

end Value

end Keeping

end CifApi
