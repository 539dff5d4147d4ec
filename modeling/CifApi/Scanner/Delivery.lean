import CifApi.Exec.Rules
import CifApi.Scanner.LineTerminators
import CifApi.Scanner.Scan

/-! What `get_first_char` and `get_more_chars` deliver into the buffer over a whole input. -/
namespace CifApi

open Exec

variable {σ : Type}

namespace Buffer

variable {b c : Buffer} {us : List UChar}

/-- Runs of `get_more_chars`, between which the scanner moves its positions, and the units they
deliver. -/
inductive Fills : Buffer → List UChar → Buffer → Prop
  | done (b : Buffer) : Fills b [] b
  | move {b c : Buffer} {us : List UChar} (text value next : Nat) (htext : text ≤ next)
      (hnext : next ≤ b.bufferLimit)
      (h : Fills { b with textStart := text, tvalueStart := value, nextChar := next } us c) :
        Fills b us c
  | more {b c : Buffer} {us : List UChar} (hok : b.getMoreChars.1 = Code.ok)
      (h : Fills b.getMoreChars.2 us c) :
      Fills b (b.getMoreChars.2.slice b.makeRoom.bufferLimit b.getMoreChars.2.bufferLimit ++ us) c

/-- The positions are in order, and the reader has no empty chunk to give and none after the end. -/
structure Sound (b : Buffer) : Prop where
  size_pos : 0 < b.bufferSize
  limit_le : b.bufferLimit ≤ b.bufferSize
  next_le : b.nextChar ≤ b.bufferLimit
  text_le : b.textStart ≤ b.nextChar
  chunks : ∀ chunk ∈ b.charSource, chunk ≠ []
  eof : b.atEof = true → b.charSource = []

theorem sound_initial {source : List (List UChar)} (h : ∀ chunk ∈ source, chunk ≠ []) :
    Sound (initial source) where
  size_pos := by simp [initial]
  limit_le := by simp [initial]
  next_le := by simp [initial]
  text_le := by simp [initial]
  chunks := h
  eof := by simp [initial]

theorem makeRoom_source (b : Buffer) :
    b.makeRoom.charSource = b.charSource ∧ b.makeRoom.atEof = b.atEof := by
  rw [makeRoom]
  split
  · exact ⟨rfl, rfl⟩
  · split <;> exact ⟨rfl, rfl⟩

/-- There is room for at least one unit once `get_more_chars` has made it. -/
theorem Sound.makeRoom (h : Sound b) :
    Sound b.makeRoom ∧ b.makeRoom.bufferLimit < b.makeRoom.bufferSize := by
  have hs := h.size_pos
  have hl := h.limit_le
  have hn := h.next_le
  have ht := h.text_le
  have hsrc := makeRoom_source b
  have hpos : 0 < b.makeRoom.bufferSize ∧ b.makeRoom.bufferLimit < b.makeRoom.bufferSize ∧
      b.makeRoom.nextChar ≤ b.makeRoom.bufferLimit
        ∧ b.makeRoom.textStart ≤ b.makeRoom.nextChar := by
    rw [Buffer.makeRoom]
    split
    · simp only
      omega
    · split
      · simp only
        split <;> omega
      · rename_i hroom
        have : bufMinFill = 2050 := rfl
        omega
  obtain ⟨h1, h2, h3, h4⟩ := hpos
  exact ⟨⟨h1, Nat.le_of_lt h2, h3, h4, by rw [hsrc.1]; exact h.chunks,
    by rw [hsrc.1, hsrc.2]; exact h.eof⟩, h2⟩

theorem slice_write (b : Buffer) (start : Nat) {units : List UChar} {n : Nat}
    (hn : n ≤ units.length) :
    Buffer.slice { b with buffer := write b.buffer start units } start (start + n)
      = units.take n := by
  apply List.ext_getElem?
  intro i
  by_cases hi : i < n
  · rw [List.getElem?_take_of_lt hi]
    simp [slice, write, hi, List.getElem?_eq_getElem (show i < units.length by omega)]
  · rw [List.getElem?_eq_none (by simp [slice]; omega), List.getElem?_eq_none (by simp; omega)]

/-- What one read takes from the source. -/
theorem readFunc_spec {count : Nat} {source : List (List UChar)} (hc : 0 < count)
    (hs : ∀ chunk ∈ source, chunk ≠ []) :
    (readFunc count source = ([], []) ∧ source = []) ∨
      ∃ chunk rest, readFunc count source = (chunk, rest) ∧ chunk ≠ [] ∧
        source.flatten = chunk ++ rest.flatten ∧ (∀ d ∈ rest, d ≠ []) ∧
        (∀ m, (∀ d ∈ source, d.length ≤ m) → chunk.length ≤ m ∧ ∀ d ∈ rest, d.length ≤ m) ∧
        chunk.length ≤ count := by
  cases source with
  | nil => exact Or.inl ⟨rfl, rfl⟩
  | cons chunk rest =>
    right
    have hne := hs chunk (by simp)
    by_cases hlen : chunk.length ≤ count
    · refine ⟨chunk, rest, by simp [readFunc, hlen], hne, by simp, ?_, ?_, hlen⟩
      · intro d hd
        exact hs d (by simp [hd])
      · intro m hm
        exact ⟨hm chunk (by simp), fun d hd => hm d (by simp [hd])⟩
    · refine ⟨chunk.take count, chunk.drop count :: rest, by simp [readFunc, hlen], ?_, ?_, ?_, ?_,
        ?_⟩
      · intro h
        have := congrArg List.length h
        simp only [List.length_take, List.length_nil] at this
        omega
      · rw [List.flatten_cons, List.flatten_cons, ← List.append_assoc, List.take_append_drop]
      · intro d hd
        rcases List.mem_cons.mp hd with rfl | hd
        · intro h
          have := congrArg List.length h
          simp only [List.length_drop, List.length_nil] at this
          omega
        · exact hs d (by simp [hd])
      · intro m hm
        have := hm chunk (by simp)
        refine ⟨by rw [List.length_take]; omega, ?_⟩
        intro d hd
        rcases List.mem_cons.mp hd with rfl | hd
        · rw [List.length_drop]
          omega
        · exact hm d (by simp [hd])
      · rw [List.length_take]
        omega

/-- A call of `get_more_chars` delivers the conversion of one chunk, or finds the input at its
end. -/
theorem Sound.getMoreChars (h : Sound b) :
    (b.getMoreChars.1 = Code.eof ∧ b.charSource = []) ∨
      ∃ chunk, b.getMoreChars.1 = Code.ok ∧ chunk ≠ [] ∧
        b.charSource.flatten = chunk ++ b.getMoreChars.2.charSource.flatten ∧
        b.getMoreChars.2.slice b.makeRoom.bufferLimit b.getMoreChars.2.bufferLimit
          = delivered chunk ∧
        (∀ m, (∀ d ∈ b.charSource, d.length ≤ m) →
          chunk.length ≤ m ∧ ∀ d ∈ b.getMoreChars.2.charSource, d.length ≤ m) ∧
        Sound b.getMoreChars.2 := by
  obtain ⟨hr, hroom⟩ := h.makeRoom
  obtain ⟨hsrc, heof⟩ := makeRoom_source b
  cases hat : b.atEof with
  | true =>
    left
    rw [hat] at heof
    exact ⟨by simp [Buffer.getMoreChars, fill, heof], h.eof hat⟩
  | false =>
    rw [hat] at heof
    rcases readFunc_spec (show 0 < b.makeRoom.bufferSize - b.makeRoom.bufferLimit by omega)
      hr.chunks with ⟨hread, hnil⟩ | ⟨chunk, rest, hread, hne, hflat, hrest, hlen, hcount⟩
    · left
      exact ⟨by simp [Buffer.getMoreChars, fill, heof, hread], by rw [← hsrc, hnil]⟩
    · right
      obtain ⟨hlenc, hle⟩ := convertTerminators_length chunk
      have hfill : b.getMoreChars = (Code.ok, { b.makeRoom with
          buffer := write b.makeRoom.buffer b.makeRoom.bufferLimit (convertTerminators chunk).1
          bufferLimit := b.makeRoom.bufferLimit + (convertTerminators chunk).2
          charSource := rest }) := by
        cases chunk with
        | nil => exact (hne rfl).elim
        | cons ch chunk => simp [Buffer.getMoreChars, fill, heof, hread]
      rw [hfill, ← hsrc]
      refine ⟨chunk, rfl, hne, hflat, ?_, hlen, ?_⟩
      · have := slice_write { b.makeRoom with
            bufferLimit := b.makeRoom.bufferLimit + (convertTerminators chunk).2
            charSource := rest } b.makeRoom.bufferLimit
          (show (convertTerminators chunk).2 ≤ (convertTerminators chunk).1.length by omega)
        exact this
      · exact ⟨hr.size_pos, by simp only; omega, by simp only; have := hr.next_le; omega,
          hr.text_le, hrest, by simp only; rw [heof]; simp⟩

/-- A run of `get_more_chars` to the end of the input delivers the conversion of successive chunks
of it. -/
theorem Fills.chunks (h : Fills b us c) (hb : Sound b) (hc : c.getMoreChars.1 = Code.eof) :
    ∃ chunks : List (List UChar), chunks.flatten = b.charSource.flatten ∧
      us = (chunks.map delivered).flatten ∧
      ∀ m, (∀ d ∈ b.charSource, d.length ≤ m) → ∀ d ∈ chunks, d.length ≤ m := by
  induction h with
  | done b =>
    rcases hb.getMoreChars with ⟨_, hnil⟩ | ⟨chunk, hok, _⟩
    · exact ⟨[], by simp [hnil], rfl, by simp⟩
    · rw [hok] at hc
      exact absurd hc (by decide)
  | move text value next htext hnext _ ih =>
    exact ih ⟨hb.size_pos, hb.limit_le, hnext, htext, hb.chunks, hb.eof⟩ hc
  | @more b c us hok _ ih =>
    rcases hb.getMoreChars with ⟨heof, _⟩ | ⟨chunk, _, _, hflat, hslice, hlen, hsound⟩
    · rw [hok] at heof
      exact absurd heof (by decide)
    · obtain ⟨chunks, hcf, hus, hm⟩ := ih hsound hc
      refine ⟨chunk :: chunks, by rw [List.flatten_cons, hcf, hflat], ?_, ?_⟩
      · rw [hslice, hus]
        rfl
      · intro m hsrc d hd
        obtain ⟨h1, h2⟩ := hlen m hsrc
        rcases List.mem_cons.mp hd with rfl | hd
        · exact h1
        · exact hm m h2 d hd

/-- Every buffer can be filled to the end of its input. -/
theorem Sound.exists_fills (hb : Sound b) :
    ∃ us c, Fills b us c ∧ c.getMoreChars.1 = Code.eof := by
  generalize hn : b.charSource.flatten.length = n
  induction n using Nat.strongRecOn generalizing b with
  | _ n ih =>
    rcases hb.getMoreChars with ⟨heof, _⟩ | ⟨chunk, hok, hne, hflat, _, _, hsound⟩
    · exact ⟨[], b, .done b, heof⟩
    · have hlt : b.getMoreChars.2.charSource.flatten.length < n := by
        have := congrArg List.length hflat
        rw [List.length_append] at this
        have := List.length_pos_iff.mpr hne
        omega
      obtain ⟨us, c, hf, hc⟩ := ih _ hlt hsound rfl
      exact ⟨_, c, .more hok hf, hc⟩

end Buffer

section Chunks

variable {chunks : List (List UChar)}

theorem delivered_flatten_of_no_crlf (h : crlfCount chunks.flatten = 0) :
    (chunks.map delivered).flatten = chunks.flatten.map lfOf := by
  induction chunks with
  | nil => rfl
  | cons chunk chunks ih =>
    rw [List.flatten_cons] at h
    have hle := crlfCount_append_le chunk chunks.flatten
    rw [List.map_cons, List.flatten_cons, List.flatten_cons, List.map_append,
      delivered_of_no_crlf (by omega), ih (by omega)]

/-- Units of the input are dropped for fewer CR LF pairs than the chunks have between them. -/
theorem length_delivered_flatten_ge (chunks : List (List UChar)) :
    ∃ lost, lost ≤ crlfCount chunks.flatten ∧ (lost = crlfCount chunks.flatten → lost = 0) ∧
      chunks.flatten.length ≤ (chunks.map delivered).flatten.length + lost := by
  induction chunks with
  | nil => exact ⟨0, by simp⟩
  | cons chunk chunks ih =>
    obtain ⟨lost, hle, heq, hlen⟩ := ih
    have hd := length_delivered_ge chunk
    have ha := crlfCount_append_le chunk chunks.flatten
    refine ⟨lost + (crlfCount chunk - 1), ?_, ?_, ?_⟩
    · rw [List.flatten_cons]
      omega
    · rw [List.flatten_cons]
      omega
    · simp only [List.map_cons, List.flatten_cons, List.length_append]
      omega

/-- What is delivered of text with a CR LF pair is longer than the text normalised. -/
theorem length_delivered_gt (chunks : List (List UChar)) (h : crlfCount chunks.flatten ≠ 0) :
    (normalizeTerminators chunks.flatten).length < (chunks.map delivered).flatten.length := by
  obtain ⟨lost, hle, heq, hlen⟩ := length_delivered_flatten_ge chunks
  have hn := length_normalizeTerminators chunks.flatten
  omega

theorem delivered_flatten_of_singletons (h : ∀ d ∈ chunks, d.length ≤ 1) :
    (chunks.map delivered).flatten = chunks.flatten.map lfOf := by
  induction chunks with
  | nil => rfl
  | cons chunk chunks ih =>
    have hc : crlfCount chunk = 0 := by
      match chunk, h chunk (by simp) with
      | [], _ => rfl
      | [c], _ => simp [crlfCount, crlfFrom]
    rw [List.map_cons, List.flatten_cons, List.flatten_cons, List.map_append,
      delivered_of_no_crlf hc, ih (fun d hd => h d (by simp [hd]))]

end Chunks

namespace Buffer

/-- The buffer `get_first_char` leaves when the source has a first unit for it. -/
def firstFilled (source : List (List UChar)) : Buffer :=
  (initial source).readFirst.2.convertFirst.acceptFirst

variable {source : List (List UChar)} {c : UChar} {rest : List UChar}

theorem readFirst_initial (h : ∀ chunk ∈ source, chunk ≠ []) (hs : source.flatten = c :: rest) :
    ∃ tail, (initial source).readFirst = (some c,
        { initial source with buffer := write (initial source).buffer 0 [c], charSource := tail }) ∧
      tail.flatten = rest ∧ (∀ d ∈ tail, d ≠ []) ∧
      ∀ m, (∀ d ∈ source, d.length ≤ m) → ∀ d ∈ tail, d.length ≤ m := by
  rcases readFunc_spec Nat.one_pos h with ⟨_, rfl⟩
    | ⟨chunk, tail, hread, hne, hflat, htail, hm, hlen⟩
  · simp at hs
  · match chunk, hne, hlen with
    | [d], _, _ =>
      rw [hs] at hflat
      simp only [List.singleton_append, List.cons.injEq] at hflat
      obtain ⟨rfl, rfl⟩ := hflat
      refine ⟨tail, ?_, rfl, htail, fun m hsrc => (hm m hsrc).2⟩
      simp only [readFirst, initial] at hread ⊢
      rw [hread]

theorem bufSizeInitial_eq : bufSizeInitial = 131200 := rfl

/-- A first unit other than a carriage return is delivered alone. -/
theorem firstFilled_of_ne_cr (h : ∀ chunk ∈ source, chunk ≠ []) (hs : source.flatten = c :: rest)
    (hc : c ≠ UChar.cr) : Sound (firstFilled source) ∧
      (firstFilled source).slice 0 (firstFilled source).bufferLimit = [c] ∧
      (firstFilled source).charSource.flatten = rest := by
  obtain ⟨tail, hread, hflat, htail, _⟩ := readFirst_initial h hs
  have hf : firstFilled source = { initial source with
      buffer := write (initial source).buffer 0 [c], charSource := tail, bufferLimit := 1 } := by
    rw [firstFilled, hread]
    simp [convertFirst, acceptFirst, write, hc, initial]
  rw [hf]
  refine ⟨⟨?_, ?_, ?_, ?_, htail, ?_⟩, ?_, hflat⟩
  · simp [initial, bufSizeInitial_eq]
  · simp [initial, bufSizeInitial_eq]
  · simp [initial, bufSizeInitial_eq]
  · simp [initial, bufSizeInitial_eq]
  · simp [initial, bufSizeInitial_eq]
  · simp [slice, write]

/-- A first carriage return is delivered as a line feed, with the first unit of one more chunk
unless that is a line feed; what else the chunk holds is lost. -/
theorem firstFilled_cr (h : ∀ chunk ∈ source, chunk ≠ []) (hs : source.flatten = UChar.cr :: rest) :
    Sound (firstFilled source) ∧ ∃ chunk : List UChar,
      (firstFilled source).slice 0 (firstFilled source).bufferLimit =
        UChar.nl :: (chunk.take 1).filter (· ≠ UChar.nl) ∧
      rest = chunk ++ (firstFilled source).charSource.flatten ∧ (chunk = [] → rest = []) ∧
      ∀ m, (∀ d ∈ source, d.length ≤ m) →
        chunk.length ≤ m ∧ ∀ d ∈ (firstFilled source).charSource, d.length ≤ m := by
  obtain ⟨tail, hread, hflat, htail, hbound⟩ := readFirst_initial h hs
  rcases readFunc_spec (show 0 < bufSizeInitial - 1 by rw [bufSizeInitial_eq]; omega) htail with
    ⟨hread', hnil⟩ | ⟨chunk, tail', hread', hne, hflat', htail', hm, hlen⟩
  · have hf : firstFilled source = { initial source with
        buffer := write (write (initial source).buffer 0 [UChar.cr]) 0 [UChar.nl]
        charSource := []
        atEof := true
        bufferLimit := 1 } := by
      rw [firstFilled, hread]
      simp only [convertFirst, acceptFirst, initial] at hread' ⊢
      rw [hread']
      simp [write]
    subst hnil
    have hrest : rest = [] := hflat.symm
    rw [hf]
    refine ⟨⟨?_, ?_, ?_, ?_, ?_, ?_⟩, [], ?_, ?_, fun _ => hrest, ?_⟩
    · simp [initial, bufSizeInitial_eq]
    · simp [initial, bufSizeInitial_eq]
    · simp [initial, bufSizeInitial_eq]
    · simp [initial, bufSizeInitial_eq]
    · simp
    · simp
    · simp [slice, write]
    · simp [hrest]
    · simp
  · match chunk, hne with
    | u :: us, _ =>
      have hf : firstFilled source = { initial source with
          buffer :=
            write (write (write (initial source).buffer 0 [UChar.cr]) 0 [UChar.nl]) 1 (u :: us)
          charSource := tail'
          bufferLimit := if u = UChar.nl then 1 else 2 } := by
        rw [firstFilled, hread]
        simp only [convertFirst, acceptFirst, initial] at hread' ⊢
        rw [hread']
        by_cases hu : u = UChar.nl <;> simp [write, hu]
      rw [hf]
      refine ⟨⟨?_, ?_, ?_, ?_, htail', ?_⟩, u :: us, ?_, ?_, ?_, ?_⟩
      · simp [initial, bufSizeInitial_eq]
      · by_cases hu : u = UChar.nl <;> simp [initial, hu, bufSizeInitial_eq]
      · simp [initial, bufSizeInitial_eq]
      · simp [initial, bufSizeInitial_eq]
      · simp [initial, bufSizeInitial_eq]
      · by_cases hu : u = UChar.nl
        · simp [hu, slice, write]
        · simp [hu, slice, write, List.range_succ]
      · rw [← hflat, hflat']
      · simp
      · intro m hsrc
        exact hm m (hbound m hsrc)

end Buffer

end CifApi
