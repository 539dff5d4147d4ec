import CifApi.Value.Columns

/-! The memory behind a write buffer, and the loop that is to make it larger. -/
namespace CifApi

open Exec

/-- `write_buffer_tp`: the memory allocated, and what is recorded of it. -/
structure OutBuffer where
  start : List UInt8
  capacity : Nat
  limit : Nat
  position : Nat

namespace OutBuffer

/-- `cif_buf_create`. -/
def create (cap : Nat) : OutBuffer := ⟨List.replicate cap 0, cap, 0, 0⟩

/-- The growth loop of `cif_buf_write`, for some rounds: each works from the capacity recorded. -/
def growthLoop (workingCap neededCap : Nat) : Nat → Option Nat
  | 0 => none
  | rounds + 1 =>
    if proposedCapacity workingCap neededCap < neededCap then growthLoop workingCap neededCap rounds
    else some (proposedCapacity workingCap neededCap)

/-- `realloc`; the memory that it adds is read as zeroes. -/
def realloc (size : Nat) (buf : OutBuffer) : OutBuffer :=
  { buf with start := buf.start.take size ++ List.replicate (size - buf.start.length) 0 }

/-- `memcpy` to the position, which it moves. -/
def copy (src : List UInt8) (buf : OutBuffer) : OutBuffer :=
  { buf with
    start := buf.start.take buf.position ++ src ++ buf.start.drop (buf.position + src.length)
    position := buf.position + src.length
    limit := max buf.limit (buf.position + src.length) }

/-- `cif_buf_write`, where the growth loop is left after some rounds; `none` if it is not. -/
def write (rounds : Nat) (src : List UInt8) (buf : OutBuffer) : Option (Except Int OutBuffer) :=
  let neededCap := (buf.position + src.length) % 2 ^ 64
  if neededCap < buf.position then some (.error Code.error)
  else if buf.capacity < neededCap then
    (growthLoop buf.capacity neededCap rounds).map fun proposedCap =>
      .ok ((buf.realloc proposedCap).copy src)
  else some (.ok (buf.copy src))

/-- A buffer whose capacity is no more than its memory. -/
structure Sound (buf : OutBuffer) : Prop where
  position_le : buf.position ≤ buf.limit
  limit_le : buf.limit ≤ buf.capacity
  capacity_le : buf.capacity ≤ buf.start.length
  size_lt : buf.start.length < 2 ^ 64

/-- A write ends, leaves what is before the position and what was written after it, and a capacity
up to which the buffer is used. -/
def Written (src : List UInt8) (buf : OutBuffer) : Prop :=
  ∃ rounds buf', buf.write rounds src = some (.ok buf')
    ∧ buf'.start.take buf.position = buf.start.take buf.position
    ∧ (buf'.start.drop buf.position).take src.length = src
    ∧ buf'.position = buf.position + src.length
      ∧ buf'.limit = max buf.limit (buf.position + src.length)
    ∧ buf'.limit ≤ buf'.capacity

section Growth

variable {buf buf' : OutBuffer} {src : List UInt8} {workingCap neededCap rounds proposedCap : Nat}

/-- The first round decides: none proposes anything else. -/
theorem growthLoop_eq_some : growthLoop workingCap neededCap rounds = some proposedCap
    ↔ rounds ≠ 0 ∧ neededCap ≤ proposedCapacity workingCap neededCap
      ∧ proposedCap = proposedCapacity workingCap neededCap := by
  induction rounds with
  | zero => simp [growthLoop]
  | succ rounds ih =>
    rw [growthLoop]
    split
    · rename_i hless
      rw [ih]
      constructor
      · rintro ⟨-, hge, -⟩
        exact absurd hless (Nat.not_lt.mpr hge)
      · rintro ⟨-, hge, -⟩
        exact absurd hless (Nat.not_lt.mpr hge)
    · rename_i hge
      rw [Option.some.injEq]
      exact ⟨fun heq => ⟨Nat.succ_ne_zero _, Nat.not_lt.mp hge, heq.symm⟩, fun heq => heq.2.2.symm⟩

/-- The loop ends where its one proposal is enough. -/
theorem exists_growthLoop :
    (∃ rounds proposedCap, growthLoop workingCap neededCap rounds = some proposedCap)
    ↔ neededCap ≤ proposedCapacity workingCap neededCap := by
  constructor
  · rintro ⟨rounds, proposedCap, hloop⟩
    exact (growthLoop_eq_some.mp hloop).2.1
  · intro hge
    exact ⟨1, _, growthLoop_eq_some.mpr ⟨Nat.one_ne_zero, hge, rfl⟩⟩

@[simp] theorem realloc_capacity (size : Nat) : (buf.realloc size).capacity = buf.capacity := rfl

@[simp] theorem copy_capacity : (buf.copy src).capacity = buf.capacity := rfl

/-- No write changes the capacity. -/
theorem write_capacity (h : buf.write rounds src = some (.ok buf')) :
    buf'.capacity = buf.capacity := by
  unfold write at h
  dsimp only at h
  split at h
  · simp at h
  · split at h
    · obtain ⟨proposedCap, -, heq⟩ := Option.map_eq_some_iff.mp h
      obtain rfl := Except.ok.inj heq
      rfl
    · obtain rfl := Except.ok.inj (Option.some.inj h)
      rfl

/-- Up to the end of what is copied, the memory is what it was before the position, and the copy. -/
theorem take_copy_start (h : buf.position ≤ buf.start.length) :
    (buf.copy src).start.take (buf.position + src.length) = buf.start.take buf.position ++ src := by
  have hlength : (buf.start.take buf.position ++ src).length = buf.position + src.length := by
    rw [List.length_append, List.length_take, Nat.min_eq_left h]
  rw [copy, ← hlength, List.take_left]

theorem copy_start (h : buf.position ≤ buf.start.length) :
    (buf.copy src).start.take buf.position = buf.start.take buf.position
      ∧ ((buf.copy src).start.drop buf.position).take src.length = src := by
  have hboth := @take_copy_start buf src h
  have hlength : (buf.start.take buf.position).length = buf.position := by
    rw [List.length_take, Nat.min_eq_left h]
  constructor
  · have hfirst := congrArg (List.take buf.position) hboth
    rwa [List.take_take, Nat.min_eq_left (Nat.le_add_right _ _),
      List.take_append_of_le_length (Nat.le_of_eq hlength.symm),
      List.take_take, Nat.min_self] at hfirst
  · rw [List.take_drop, Nat.add_comm, Nat.add_comm src.length, hboth,
      List.drop_append_of_le_length (Nat.le_of_eq hlength.symm),
      List.drop_take_self, List.nil_append]

/-- Memory that is reallocated keeps what is in use. -/
theorem take_realloc_start {n size : Nat} (hsize : n ≤ size) (h : n ≤ buf.start.length) :
    (buf.realloc size).start.take n = buf.start.take n := by
  have hlength : n ≤ (buf.start.take size).length := by
    rw [List.length_take]
    exact Nat.le_min.mpr ⟨hsize, h⟩
  rw [realloc, List.take_append_of_le_length hlength, List.take_take, Nat.min_eq_left hsize]

theorem length_realloc_start {size : Nat} : (buf.realloc size).start.length = size := by
  simp only [realloc, List.length_append, List.length_take, List.length_replicate]
  omega

/-- A write that fits in the capacity does what it is to do, and it alone. -/
theorem written_iff (h : buf.Sound) (hsum : buf.position + src.length < 2 ^ 64) :
    buf.Written src ↔ buf.position + src.length ≤ buf.capacity := by
  have hneeded : (buf.position + src.length) % 2 ^ 64 = buf.position + src.length :=
    Nat.mod_eq_of_lt hsum
  constructor
  · rintro ⟨rounds, buf', hwrite, -, -, -, hlimit, hle⟩
    rw [hlimit, write_capacity hwrite] at hle
    exact Nat.le_trans (Nat.le_max_right _ _) hle
  · intro hfits
    have hmemory :=
      @copy_start buf src (Nat.le_trans h.position_le (Nat.le_trans h.limit_le h.capacity_le))
    refine ⟨0, buf.copy src, ?_, hmemory.1, hmemory.2, rfl, rfl, ?_⟩
    · simp only [write, hneeded]
      rw [if_neg (by omega), if_neg (by omega)]
    · exact Nat.max_le.mpr ⟨h.limit_le, hfits⟩

/-- Whether a write ends at all depends on the first proposal. -/
theorem write_ends_iff (hsum : buf.position + src.length < 2 ^ 64) :
    (∃ rounds r, buf.write rounds src = some r) ↔ buf.position + src.length ≤ buf.capacity
      ∨ buf.position + src.length ≤ proposedCapacity buf.capacity (buf.position + src.length) := by
  have hneeded : (buf.position + src.length) % 2 ^ 64 = buf.position + src.length :=
    Nat.mod_eq_of_lt hsum
  have hover : ¬ buf.position + src.length < buf.position := by omega
  simp only [write, hneeded, hover, if_false]
  by_cases hroom : buf.capacity < buf.position + src.length
  · simp only [hroom, if_true, Option.map_eq_some_iff]
    rw [or_iff_right (Nat.not_le.mpr hroom), ← exists_growthLoop]
    constructor
    · rintro ⟨rounds, r, proposedCap, hloop, -⟩
      exact ⟨rounds, proposedCap, hloop⟩
    · rintro ⟨rounds, proposedCap, hloop⟩
      exact ⟨rounds, _, proposedCap, hloop, rfl⟩
  · simp [hroom, Nat.not_lt.mp hroom]

/-- What a buffer that is only ever appended to holds. -/
def contents (buf : OutBuffer) : WriteBuffer := ⟨buf.start.take buf.position, buf.capacity⟩

/-- A buffer with its position at its limit, within its memory. -/
def Appended (buf : OutBuffer) : Prop := buf.position = buf.limit ∧ buf.position ≤ buf.start.length

/-- A copy into memory that is large enough appends to what the buffer holds. -/
theorem contents_copy (h : buf.Appended) (hroom : buf.position + src.length ≤ buf.start.length) :
    (buf.copy src).contents = { buf.contents with bytes := buf.contents.bytes ++ src }
      ∧ (buf.copy src).Appended := by
  obtain ⟨heq, hle⟩ := h
  refine ⟨?_, ?_, ?_⟩
  · exact congrArg (WriteBuffer.mk · buf.capacity) (take_copy_start hle)
  · exact (Nat.max_eq_right (heq ▸ Nat.le_add_right _ _)).symm
  · have hlength : (buf.copy src).start.length = buf.start.length := by
      simp only [copy, List.length_append, List.length_take, List.length_drop]
      omega
    exact hlength ▸ hroom

/-- A write that ends appends to what the buffer holds, as `bufWrite` has it. -/
theorem write_refines (h : buf.Appended) (hcap : buf.capacity ≤ buf.start.length)
    (hsum : buf.position + src.length < 2 ^ 64) (hwrite : buf.write rounds src = some (.ok buf')) :
    bufWrite src buf.contents = some (.ok ⟨⟩, buf'.contents) ∧ buf'.Appended := by
  have hneeded : (buf.position + src.length) % 2 ^ 64 = buf.position + src.length :=
    Nat.mod_eq_of_lt hsum
  have hover : ¬ buf.position + src.length < buf.position := by omega
  have hlength : buf.contents.bytes.length = buf.position := by
    rw [contents, List.length_take, Nat.min_eq_left h.2]
  simp only [write, hneeded, hover, if_false] at hwrite
  simp only [bufWrite, hlength, hneeded, hover, if_false]
  by_cases hroom : buf.capacity < buf.position + src.length
  · rw [if_pos hroom] at hwrite
    obtain ⟨proposedCap, hloop, heq⟩ := Option.map_eq_some_iff.mp hwrite
    obtain rfl := Except.ok.inj heq
    obtain ⟨-, hge, rfl⟩ := growthLoop_eq_some.mp hloop
    have hless : ¬ proposedCapacity buf.contents.capacity (buf.position + src.length)
        < buf.position + src.length :=
      Nat.not_lt.mpr hge
    have hkeeps :=
      @take_realloc_start buf buf.position _ (Nat.le_trans (Nat.le_add_right _ _) hge) h.2
    have hgrown :
        (buf.realloc (proposedCapacity buf.capacity (buf.position + src.length))).Appended := by
      refine ⟨h.1, ?_⟩
      rw [length_realloc_start]
      exact Nat.le_trans (Nat.le_add_right _ _) hge
    have hcopy := @contents_copy _ src hgrown (by rw [length_realloc_start]; exact hge)
    have hcontents :
        (buf.realloc (proposedCapacity buf.capacity (buf.position + src.length))).contents
        = buf.contents :=
      congrArg (WriteBuffer.mk · buf.capacity) hkeeps
    rw [if_neg (by simp [hless]), hcopy.1, hcontents]
    exact ⟨rfl, hcopy.2⟩
  · rw [if_neg hroom] at hwrite
    obtain rfl := Except.ok.inj (Option.some.inj hwrite)
    have hcopy := contents_copy h (Nat.le_trans (Nat.not_lt.mp hroom) hcap)
    have hroom' : ¬ buf.contents.capacity < buf.position + src.length := hroom
    rw [if_neg (by simp [hroom']), hcopy.1]
    exact ⟨rfl, hcopy.2⟩

/-- A write that does not end is one that `bufWrite` has not end. -/
theorem bufWrite_eq_none_iff (h : buf.Appended) (hsum : buf.position + src.length < 2 ^ 64) :
    bufWrite src buf.contents = none ↔ ∀ rounds, buf.write rounds src = none := by
  have hneeded : (buf.position + src.length) % 2 ^ 64 = buf.position + src.length :=
    Nat.mod_eq_of_lt hsum
  have hover : ¬ buf.position + src.length < buf.position := by omega
  have hlength : buf.contents.bytes.length = buf.position := by
    rw [contents, List.length_take, Nat.min_eq_left h.2]
  have hends := @write_ends_iff buf src hsum
  have hnone : (∀ rounds, buf.write rounds src = none) ↔
      ¬ ∃ rounds r, buf.write rounds src = some r := by
    simp [Option.eq_none_iff_forall_ne_some]
  rw [hnone, hends]
  have hcapacity : buf.contents.capacity = buf.capacity := rfl
  simp only [bufWrite, hlength, hneeded, hover, if_false, hcapacity]
  split
  · rename_i hgrows
    simp only [Bool.and_eq_true, decide_eq_true_eq] at hgrows
    simp only [true_iff, not_or, Nat.not_le]
    exact hgrows
  · rename_i hgrows
    simp only [Bool.and_eq_true, decide_eq_true_eq] at hgrows
    simp only [reduceCtorEq, false_iff, not_not]
    omega

end Growth

end OutBuffer

section Termination

open OutBuffer

/-- `cif_value_serialize` ends. -/
def SerializeEnds (value : Value) : Prop :=
  (value.serialize serializationBuffer : Option (Except Int Unit × WriteBuffer)) ≠ none

/-- A value is serialized where what it takes is no more than a new buffer comes to hold. -/
theorem serializeEnds_iff {value : Value} (h : value.Made) :
    SerializeEnds value ↔ value.bytes.length ≤ 768 := by
  have hlen : serializationBuffer.bytes.length + value.bytes.length = value.bytes.length := by
    simp [serializationBuffer]
  constructor
  · intro hends
    by_contra hlong
    exact hends (h.outgrows serializationBuffer rfl (by decide) (by omega))
  · intro hfits hnone
    have hwrites :=
      Value.appends_serialize value serializationBuffer ((grows_iff rfl).mpr (by rwa [hlen]))
    cases hwrites.symm.trans hnone

/-- A write is right just where it needs no more than the capacity, and a value's serialization ends
just where its bytes are no more than the first growth makes room for. -/
theorem written_and_serializeEnds_iff {buf : OutBuffer} {src : List UInt8} {value : Value}
    (hsound : buf.Sound) (hsum : buf.position + src.length < 2 ^ 64) (hmade : value.Made) :
    (buf.Written src ↔ buf.position + src.length ≤ buf.capacity)
      ∧ (SerializeEnds value ↔ value.bytes.length ≤ 768) :=
  ⟨written_iff hsound hsum, serializeEnds_iff hmade⟩

theorem sound_create {cap : Nat} (h : cap < 2 ^ 64) : (create cap).Sound :=
  ⟨Nat.le_refl 0, Nat.zero_le cap, Nat.le_of_eq List.length_replicate.symm,
    by rwa [create, List.length_replicate]⟩

/-- Three bytes go into a new buffer, and a list of two into its bytes. -/
theorem written_and_serializeEnds_small :
    (create 512).Written [1, 2, 3] ∧ SerializeEnds (.list [.na, .unk]) := by
  have hmade : (Value.list [.na, .unk]).Made := .list (by decide) fun element he => by
    rcases List.mem_cons.mp he with rfl | he
    · exact .na
    · obtain rfl := List.mem_singleton.mp he
      exact .unk
  have hiff : ((create 512).Written [1, 2, 3] ↔ _) ∧ (SerializeEnds (.list [.na, .unk]) ↔ _) :=
    written_and_serializeEnds_iff (sound_create (by decide)) (by decide) hmade
  exact ⟨hiff.1.mpr (by decide), hiff.2.mpr (by decide)⟩

/-- A list whose bytes do not fit in the buffer they are written to. -/
def longText : Value := .list [.char (List.replicate 400 (97 : UChar)) true]

/-- No number of rounds is enough to make room for 800 bytes, and none of those for a list with a
long text. -/
theorem not_written_long :
    (create 512).Sound ∧ (∀ rounds, (create 512).write rounds (List.replicate 800 0) = none)
      ∧ ¬ (create 512).Written (List.replicate 800 0) ∧ longText.Made
      ∧ ¬ SerializeEnds longText := by
  have hlength : (List.replicate 800 (0 : UInt8)).length = 800 := List.length_replicate
  have hmade : longText.Made := .list (by decide) fun element he => by
    obtain rfl := List.mem_singleton.mp he
    exact .char (by decide +kernel)
  have hnever : ∀ rounds, (create 512).write rounds (List.replicate 800 0) = none := by
    intro rounds
    refine Option.eq_none_iff_forall_ne_some.mpr fun r hr => ?_
    have hends := (write_ends_iff (by rw [hlength]; decide)).mp ⟨rounds, r, hr⟩
    rw [hlength] at hends
    exact absurd hends (by decide)
  refine ⟨sound_create (by decide), hnever, ?_, hmade, ?_⟩
  · rintro ⟨rounds, buf', hwrite, -⟩
    rw [hnever rounds] at hwrite
    cases hwrite
  · rw [serializeEnds_iff hmade]
    decide +kernel

end Termination

end CifApi
