import CifApi.Exec.Rules
import CifApi.Scanner.Buffer

/-! The character source of a parse: bytes of a stream, through a converter that keeps what it
cannot convert yet. -/
namespace CifApi

open Exec

/-- How a call of the converter ends. -/
inductive ConversionStatus where
  | ok
  /-- There is more than fits the destination. -/
  | overflow
  /-- A failure, with the code that the error callback has given for it, if any. -/
  | failed (lastError : Int)
  deriving DecidableEq

/-- What a call of the converter leaves. -/
structure Conversion (κ : Type) where
  units : List UChar
  rest : List UInt8
  converter : κ
  status : ConversionStatus

/-- `ucnv_toUnicode`, for so many units, some bytes, and whether there are no more of them. -/
abbrev ToUnicode (κ : Type) := κ → Nat → List UInt8 → Bool → Conversion κ

/-- `uchar_stream_t`, with the bytes that its stream has still to give. -/
structure UcharStream (κ : Type) where
  byteStream : List UInt8
  /-- Whether the stream ends in an I/O error. -/
  broken : Bool
  bufferSize : Nat
  /-- The bytes from the buffer's position up to its limit. -/
  buffered : List UInt8
  converter : κ
  eofStatus : Int

/-- How a read may fail. -/
inductive ReadFailure where
  /-- Without an error code. -/
  | io
  | conversion (code : Int)
  deriving DecidableEq

section Reading

variable {κ : Type} (toUnicode : ToUnicode κ)

namespace UcharStream

/-- The stream after `fread`, which gives less than it is asked for only at the end. -/
def fill (u : UcharStream κ) : UcharStream κ :=
  { u with
    byteStream := u.byteStream.drop u.bufferSize
    buffered := u.byteStream.take u.bufferSize
    eofStatus := if u.byteStream.length < u.bufferSize then -1 else u.eofStatus }

def convert (count : Nat) (u : UcharStream κ) : Conversion κ :=
  toUnicode u.converter count u.buffered (u.eofStatus ≠ 0)

/-- The stream after a conversion. -/
def keep (conversion : Conversion κ) (u : UcharStream κ) : UcharStream κ :=
  { u with buffered := conversion.rest, converter := conversion.converter }

def finish (u : UcharStream κ) : UcharStream κ := { u with eofStatus := 1 }

end UcharStream

/-- Fills the byte buffer when it is empty. -/
def fillBytes : Exec ReadFailure (UcharStream κ) Unit := do
  let u ← read
  when (u.buffered = [] ∧ u.eofStatus = 0) do
    when (u.byteStream.length < u.bufferSize ∧ u.broken) (stop .io)
    modify UcharStream.fill

/-- A round of the loop of `ustream_read_chars`; only when it has no units yet is there another. -/
def readRound (count : Nat) (_ : Unit) : Exec ReadFailure (UcharStream κ) (Unit ⊕ List UChar) := do
  fillBytes
  let u ← read
  let conversion := u.convert toUnicode count
  modify (UcharStream.keep conversion)
  match conversion.status with
  | .overflow => pure (.inr conversion.units)
  | .failed lastError => stop (.conversion (if lastError = 0 then Code.error else lastError))
  | .ok =>
    if u.eofStatus ≠ 0 then do
      modify UcharStream.finish
      pure (.inr conversion.units)
    else if conversion.units = [] then pure (.inl ())
    else pure (.inr conversion.units)

/-- `ustream_read_chars`. -/
def readChars (count : Nat) : Exec ReadFailure (UcharStream κ) (List UChar) := do
  let u ← read
  if count = 0 ∨ 0 < u.eofStatus then pure []
  else loop (fun u => u.byteStream.length + 2) (readRound toUnicode count) ()

/-- Successive reads. -/
def readAll : List Nat → Exec ReadFailure (UcharStream κ) (List (List UChar))
  | [] => pure []
  | count :: counts => do
    let chunk ← readChars toUnicode count
    let chunks ← readAll counts
    pure (chunk :: chunks)

/-- What `cif_parse` sets up after it has read some bytes ahead. -/
def UcharStream.initial (bufferSize : Nat) (converter : κ) (ahead bytes : List UInt8) :
    UcharStream κ where
  byteStream := bytes
  broken := false
  bufferSize := bufferSize
  buffered := ahead
  converter := converter
  eofStatus := 0

end Reading

section Incremental

variable {κ : Type} {toUnicode : ToUnicode κ} {text : κ → List UInt8 → List UChar}

/-- What a converter documents of its incremental use, for input that it does not fail on: `text` is
what the bytes still to come convert to. -/
structure Incremental (toUnicode : ToUnicode κ) (text : κ → List UInt8 → List UChar) : Prop where
  succeeds : ∀ k n bytes flush lastError, (toUnicode k n bytes flush).status ≠ .failed lastError
  room : ∀ k n bytes flush, (toUnicode k n bytes flush).units.length ≤ n
  full : ∀ k n bytes flush, (toUnicode k n bytes flush).status = .overflow →
    (toUnicode k n bytes flush).units.length = n
  consumed : ∀ k n bytes flush, (toUnicode k n bytes flush).status = .ok →
    (toUnicode k n bytes flush).rest = []
  continues : ∀ k n bytes more, text k (bytes ++ more) = (toUnicode k n bytes false).units
    ++ text (toUnicode k n bytes false).converter ((toUnicode k n bytes false).rest ++ more)
  flushes : ∀ k n bytes, text k bytes = (toUnicode k n bytes true).units
    ++ text (toUnicode k n bytes true).converter (toUnicode k n bytes true).rest
  flushed : ∀ k n bytes, (toUnicode k n bytes true).status = .ok →
    text (toUnicode k n bytes true).converter [] = []

/-- The units that are still to be read. -/
def UcharStream.remaining (text : κ → List UInt8 → List UChar) (u : UcharStream κ) : List UChar :=
  if 0 < u.eofStatus then [] else text u.converter (u.buffered ++ u.byteStream)

/-- A stream between two reads. -/
structure UcharStream.Sound (u : UcharStream κ) : Prop where
  bufferSize_pos : 0 < u.bufferSize
  intact : u.broken = false
  ended : u.eofStatus ≠ 0 → u.byteStream = []

/-- What a read provides of the units to be read. -/
structure Provides (text : κ → List UInt8 → List UChar) (count : Nat) (u : UcharStream κ)
    (chunk : List UChar) (t : UcharStream κ) : Prop where
  sound : t.Sound
  length_le : chunk.length ≤ count
  remaining_eq : u.remaining text = chunk ++ t.remaining text
  end_of_nil : chunk = [] → u.remaining text = []

variable {u t : UcharStream κ} {count : Nat}

theorem remaining_of_ended (h : 0 < u.eofStatus) : u.remaining text = [] := if_pos h

theorem remaining_of_open (h : ¬ 0 < u.eofStatus) :
    u.remaining text = text u.converter (u.buffered ++ u.byteStream) := if_neg h

/-- What a round still has to do before the bytes are used up. -/
def UcharStream.work (u : UcharStream κ) : Nat :=
  u.byteStream.length + if u.buffered = [] then 0 else 1

/-- After the byte buffer is filled there are bytes in it, or there are none left. -/
structure BytesFilled (text : κ → List UInt8 → List UChar) (u t : UcharStream κ) : Prop where
  sound : t.Sound
  ended : ¬ 0 < t.eofStatus
  remaining_eq : t.remaining text = u.remaining text
  progress : t.eofStatus = 0 → t.byteStream.length < u.work

theorem UcharStream.Sound.fillBytes (text : κ → List UInt8 → List UChar) (h : u.Sound)
    (hopen : ¬ 0 < u.eofStatus) :
    Post False CifApi.fillBytes u (fun _ t => BytesFilled text u t) fun _ _ => False := by
  rw [CifApi.fillBytes, post_bind, post_read, post_when]
  constructor
  · rintro ⟨hbuffered, heof⟩
    rw [post_bind, post_when]
    refine ⟨fun hbroken => absurd hbroken.2 (by simp [h.intact]), fun _ => ?_⟩
    have hstill : ¬ 0 < u.fill.eofStatus := by
      change ¬ 0 < if u.byteStream.length < u.bufferSize then -1 else u.eofStatus
      split
      · decide
      · exact hopen
    refine ⟨⟨h.bufferSize_pos, h.intact, fun hended => ?_⟩, hstill, ?_, fun hgoes => ?_⟩
    · refine List.drop_eq_nil_of_le ?_
      by_contra hmore
      exact hended ((if_neg (by omega)).trans heof)
    · rw [remaining_of_open hstill, remaining_of_open hopen, hbuffered]
      exact congrArg (text u.converter) (List.take_append_drop ..)
    · have hfull : ¬ u.byteStream.length < u.bufferSize := by
        intro hshort
        change (if u.byteStream.length < u.bufferSize then (-1 : Int) else u.eofStatus) = 0 at hgoes
        rw [if_pos hshort] at hgoes
        cases hgoes
      have hpos := h.bufferSize_pos
      change (u.byteStream.drop u.bufferSize).length < _
      rw [List.length_drop, UcharStream.work, if_pos hbuffered]
      omega
  · intro hready
    refine ⟨h, hopen, rfl, fun heof => ?_⟩
    rw [UcharStream.work, if_neg fun hbuffered => hready ⟨hbuffered, heof⟩]
    exact Nat.lt_succ_self _

theorem Incremental.convert_eq (h : Incremental toUnicode text) (hu : u.Sound) (count : Nat) :
    text u.converter (u.buffered ++ u.byteStream) = (u.convert toUnicode count).units
      ++ text (u.convert toUnicode count).converter ((u.convert toUnicode count).rest
        ++ u.byteStream) := by
  by_cases heof : u.eofStatus = 0
  · rw [UcharStream.convert, decide_eq_false (by simpa using heof)]
    exact h.continues ..
  · rw [UcharStream.convert, decide_eq_true heof, hu.ended heof, List.append_nil, List.append_nil]
    exact h.flushes ..

theorem Incremental.flushed_convert (h : Incremental toUnicode text) (hended : u.eofStatus ≠ 0)
    (hok : (u.convert toUnicode count).status = .ok) :
    text (u.convert toUnicode count).converter [] = [] := by
  rw [UcharStream.convert, decide_eq_true hended] at hok ⊢
  exact h.flushed _ _ _ hok

/-- A round provides units, or uses up bytes and changes nothing else. -/
theorem Incremental.readRound (h : Incremental toUnicode text) (hu : u.Sound)
    (hopen : ¬ 0 < u.eofStatus) (hcount : 0 < count) : Post False (readRound toUnicode count ()) u
      (Round (fun _ t => (t.Sound ∧ ¬ 0 < t.eofStatus ∧ t.remaining text = u.remaining text)
        ∧ t.work < u.work) fun chunk t => Provides text count u chunk t) fun _ _ => False := by
  rw [CifApi.readRound]
  refine (hu.fillBytes text hopen).bind fun _ v hv => ?_
  obtain ⟨hsound, hvopen, hremaining, hprogress⟩ := hv
  rw [post_bind, post_read, post_bind, post_modify]
  have hflow := h.convert_eq hsound count
  have hroom : (v.convert toUnicode count).units.length ≤ count := h.room ..
  have hfull : (v.convert toUnicode count).status = .overflow →
      (v.convert toUnicode count).units.length = count :=
    h.full _ _ _ _
  have hconsumed : (v.convert toUnicode count).status = .ok →
      (v.convert toUnicode count).rest = [] :=
    h.consumed _ _ _ _
  have hsucceeds : ∀ lastError, (v.convert toUnicode count).status ≠ .failed lastError :=
    h.succeeds _ _ _ _
  have hflushed : v.eofStatus ≠ 0 → (v.convert toUnicode count).status = .ok →
      text (v.convert toUnicode count).converter [] = [] := h.flushed_convert
  have hleft : text v.converter (v.buffered ++ v.byteStream) = u.remaining text :=
    (remaining_of_open hvopen).symm.trans hremaining
  rw [hleft] at hflow
  generalize v.convert toUnicode count = conversion at *
  have hkept : (v.keep conversion).Sound := ⟨hsound.1, hsound.2, hsound.3⟩
  have hstill : ¬ 0 < (v.keep conversion).eofStatus := hvopen
  have hkeptFlow : u.remaining text = conversion.units ++ (v.keep conversion).remaining text := by
    rw [remaining_of_open hstill]
    exact hflow
  cases hstatus : conversion.status with
  | overflow =>
    refine ⟨hkept, hroom, hkeptFlow, fun hnil => ?_⟩
    have hlength := hfull hstatus
    rw [hnil] at hlength
    exact absurd hlength hcount.ne
  | failed lastError => exact absurd hstatus (hsucceeds lastError)
  | ok =>
    rw [hconsumed hstatus, List.nil_append] at hflow
    dsimp only
    rw [post_ite]
    constructor
    · intro heof
      have hdone : u.remaining text = conversion.units := by
        rw [hflow, hsound.ended heof, hflushed heof hstatus, List.append_nil]
      have hfinished : 0 < (v.keep conversion).finish.eofStatus := Int.one_pos
      refine ⟨⟨hsound.1, hsound.2, fun _ => hsound.ended heof⟩, hroom, ?_,
        fun hnil => hdone.trans hnil⟩
      rw [hdone, remaining_of_ended hfinished, List.append_nil]
    · intro hgoes
      have hgoes : v.eofStatus = 0 := by simpa using hgoes
      rw [post_ite]
      constructor
      · intro hnil
        refine ⟨⟨hkept, hvopen, ?_⟩, ?_⟩
        · rw [hkeptFlow, hnil, List.nil_append]
        · change v.byteStream.length + (if conversion.rest = [] then 0 else 1) < _
          rw [if_pos (hconsumed hstatus)]
          exact hprogress hgoes
      · exact fun hne => ⟨hkept, hroom, hkeptFlow, fun hnil => absurd hnil hne⟩

/-- A read ends; it provides nothing only at the end of the text. -/
theorem Incremental.readChars (h : Incremental toUnicode text) (hu : u.Sound) (hcount : 0 < count) :
    Post False (readChars toUnicode count) u (fun chunk t => Provides text count u chunk t)
      fun _ _ => False := by
  rw [CifApi.readChars, post_bind, post_read, post_ite]
  constructor
  · intro hended
    have hended : 0 < u.eofStatus := hended.resolve_left hcount.ne'
    have hnone : u.remaining text = [] := remaining_of_ended hended
    exact ⟨hu, Nat.zero_le _, rfl, fun _ => hnone⟩
  · intro hopen
    obtain ⟨_, hopen⟩ := not_or.mp hopen
    refine Halts.loop (I := fun _ t => t.Sound ∧ ¬ 0 < t.eofStatus
      ∧ t.remaining text = u.remaining text)
      (fun _ t => t.work) (fun _ t ht => ?_) ⟨hu, hopen, rfl⟩ ?_
    · refine (h.readRound ht.1 ht.2.1 hcount).imp ?_ fun _ _ hf => hf
      intro r v hv
      cases r with
      | inl _ => exact ⟨⟨hv.1.1, hv.1.2.1, hv.1.2.2.trans ht.2.2⟩, hv.2⟩
      | inr chunk =>
        exact ⟨hv.sound, hv.length_le, ht.2.2 ▸ hv.remaining_eq, ht.2.2 ▸ hv.end_of_nil⟩
    · rw [UcharStream.work]
      split
      · omega
      · omega

/-- The answers of the scanner's character source. -/
def sourceReads : List Nat → List (List UChar) → List (List UChar)
  | [], _ => []
  | count :: counts, source =>
    (readFunc count source).1 :: sourceReads counts (readFunc count source).2

theorem Incremental.readAll (h : Incremental toUnicode text) {counts : List Nat} (hu : u.Sound)
    (hcounts : ∀ count ∈ counts, 0 < count) : Post False (readAll toUnicode counts) u
      (fun chunks _ => ∃ source : List (List UChar), (∀ chunk ∈ source, chunk ≠ [])
        ∧ source.flatten = u.remaining text
        ∧ chunks = sourceReads counts source) fun _ _ => False := by
  induction counts generalizing u with
  | nil =>
    by_cases hnil : u.remaining text = []
    · exact ⟨[], by simp, hnil.symm, rfl⟩
    · exact ⟨[u.remaining text], by simpa using hnil, List.flatten_singleton, rfl⟩
  | cons count counts ih =>
    obtain ⟨hcount, hcounts⟩ := List.forall_mem_cons.mp hcounts
    rw [CifApi.readAll]
    refine (h.readChars hu hcount).bind fun chunk t ht => ?_
    refine (ih ht.sound hcounts).bind ?_
    rintro chunks v ⟨source, hchunks, hflatten, rfl⟩
    cases hchunk : chunk with
    | nil =>
      have hend : u.remaining text = [] := ht.end_of_nil hchunk
      have hrest : t.remaining text = [] := by
        have hflow := ht.remaining_eq
        rw [hend] at hflow
        exact (List.append_eq_nil_iff.mp hflow.symm).2
      have hsource : source = [] := by
        rw [List.eq_nil_iff_forall_not_mem]
        intro c hc
        refine hchunks c hc (List.flatten_eq_nil_iff.mp ?_ c hc)
        rw [hflatten, hrest]
      exact ⟨[], by simp, hend.symm, by rw [hsource]; rfl⟩
    | cons c cs =>
      refine ⟨chunk :: source, ?_, ?_, ?_⟩
      · rw [List.forall_mem_cons]
        exact ⟨by simp [hchunk], hchunks⟩
      · rw [List.flatten_cons, hflatten, ht.remaining_eq]
      · rw [sourceReads, readFunc, if_pos ht.length_le, hchunk]

variable {bufferSize : Nat} {counts : List Nat}

/-- However the bytes of a stream fall into buffers, and however much each read asks for, the reads
of `ustream_read_chars` are those of a source of non-empty chunks of the text that all the bytes
convert to: nothing is lost or repeated where a buffer or a read ends, and the end comes only after
all of it. -/
theorem readAll_eq_sourceReads (h : Incremental toUnicode text) (converter : κ)
    (ahead bytes : List UInt8) (hsize : 0 < bufferSize) (hcounts : ∀ count ∈ counts, 0 < count) :
    ∃ source : List (List UChar), (∀ chunk ∈ source, chunk ≠ [])
      ∧ source.flatten = text converter (ahead ++ bytes)
      ∧ ∃ t, readAll toUnicode counts (.initial bufferSize converter ahead bytes)
        = some (.ok (sourceReads counts source), t) := by
  have hinitial : (UcharStream.initial bufferSize converter ahead bytes).Sound :=
    ⟨hsize, rfl, fun hne => absurd rfl hne⟩
  have hreads := h.readAll hinitial hcounts
  obtain ⟨⟨r, t⟩, hrun⟩ := Halts.exists hreads
  cases r with
  | ok chunks =>
    obtain ⟨source, hchunks, hflatten, rfl⟩ := hreads.of_ok hrun
    exact ⟨source, hchunks, hflatten, t, hrun⟩
  | error e => exact (hreads.of_error hrun).elim

/-- A converter of an encoding with a unit for each byte. -/
def byteConverter : ToUnicode Unit := fun _ n bytes _ =>
  ⟨(bytes.take n).map (·.toNat), bytes.drop n, (), if n < bytes.length then .overflow else .ok⟩

theorem incremental_byteConverter :
    Incremental byteConverter fun _ bytes => bytes.map (·.toNat) := by
  have hsplit : ∀ (n : Nat) (bytes : List UInt8),
      (bytes.take n).map (·.toNat) ++ (bytes.drop n).map (·.toNat) = bytes.map (·.toNat) := by
    intro n bytes
    rw [← List.map_append, List.take_append_drop]
  constructor
  · intro k n bytes flush lastError hstatus
    change (if n < bytes.length then ConversionStatus.overflow else .ok) = _ at hstatus
    split at hstatus
    · cases hstatus
    · cases hstatus
  · intro k n bytes flush
    simp [byteConverter]
  · intro k n bytes flush hstatus
    change (if n < bytes.length then ConversionStatus.overflow else .ok) = _ at hstatus
    split at hstatus
    · simp [byteConverter]
      omega
    · cases hstatus
  · intro k n bytes flush hstatus
    change (if n < bytes.length then ConversionStatus.overflow else .ok) = _ at hstatus
    split at hstatus
    · cases hstatus
    · exact List.drop_eq_nil_of_le (by omega)
  · intro k n bytes more
    simp only [byteConverter, List.map_append, ← List.append_assoc, hsplit]
  · intro k n bytes
    exact (hsplit n bytes).symm
  · intro k n bytes _
    rfl

theorem readAll_eq_sourceReads_bytes :
    ∃ source : List (List UChar), (∀ chunk ∈ source, chunk ≠ [])
      ∧ source.flatten = [0x41, 0x42, 0x43, 0x44, 0x45]
      ∧ ∃ t, readAll byteConverter [1, 2048, 2048, 2048, 2048]
      (.initial 2 () [0x41] [0x42, 0x43, 0x44, 0x45])
        = some (.ok (sourceReads [1, 2048, 2048, 2048, 2048] source), t) :=
  readAll_eq_sourceReads incremental_byteConverter () [0x41] [0x42, 0x43, 0x44, 0x45] (by decide)
    (by decide)

end Incremental

end CifApi
