import CifApi.Scanner.Calls
import CifApi.Scanner.LineTerminators
import CifApi.Scanner.NextToken

/-! Every scan function finishes, and none takes the scanner back over text it has passed. -/
namespace CifApi

open Exec

variable {σ τ ω : Type} {v : Int}

namespace Buffer

variable {b c d : Buffer}

/-- A token has begun, or can begin, in buffered text. -/
structure Begun (b : Buffer) : Prop where
  text_le : b.textStart ≤ b.nextChar
  text_lt : b.textStart < b.bufferLimit

/-- What a scan that goes on from `b` to `c` keeps; in CIF 2 it also stays inside the buffered
text. -/
structure Scanned (v : Int) (b c : Buffer) : Prop where
  begun : Begun c
  remaining_le : c.remaining ≤ b.remaining
  length_le : b.nextChar - b.textStart ≤ c.nextChar - c.textStart
  value : b.textStart ≤ b.tvalueStart → c.textStart ≤ c.tvalueStart
  kept : 2 ≤ v → b.nextChar ≤ b.bufferLimit → c.nextChar ≤ c.bufferLimit ∧
    c.remaining + (c.nextChar - c.textStart) ≤ b.remaining + (b.nextChar - b.textStart)

theorem Scanned.refl (h : Begun b) : Scanned v b b :=
  ⟨h, Nat.le_refl _, Nat.le_refl _, id, fun _ hk => ⟨hk, Nat.le_refl _⟩⟩

theorem Scanned.trans (h : Scanned v b c) (h' : Scanned v c d) : Scanned v b d where
  begun := h'.begun
  remaining_le := Nat.le_trans h'.remaining_le h.remaining_le
  length_le := Nat.le_trans h.length_le h'.length_le
  value := fun hb => h'.value (h.value hb)
  kept := by
    intro hv hb
    obtain ⟨hc, hle⟩ := h.kept hv hb
    obtain ⟨hd, hle'⟩ := h'.kept hv hc
    exact ⟨hd, Nat.le_trans hle' hle⟩

/-- `n` units passed, without a read. -/
structure Stepped (n : Nat) (b c : Buffer) : Prop where
  textStart : c.textStart = b.textStart
  tvalueStart : c.tvalueStart = b.tvalueStart
  bufferLimit : c.bufferLimit = b.bufferLimit
  charSource : c.charSource = b.charSource
  nextChar : c.nextChar = b.nextChar + n

theorem Stepped.unread {n : Nat} (h : Stepped n b c) : c.unread = b.unread := by
  rw [Buffer.unread, h.charSource, Buffer.unread]

theorem Scanned.stay (h : Scanned v b c) (hs : Stepped 0 c d) : Scanned v b d := by
  have h1 := hs.textStart
  have h2 := hs.bufferLimit
  have h3 := hs.nextChar
  have h4 := hs.unread
  have hb := h.begun
  refine h.trans ⟨⟨?_, ?_⟩, ?_, ?_, ?_, ?_⟩
  · have := hb.text_le
    omega
  · have := hb.text_lt
    omega
  · simp only [remaining]
    omega
  · omega
  · rw [hs.tvalueStart, h1]
    exact id
  · intro _ _
    simp only [remaining]
    omega

/-- A unit passed inside the buffered text, or beyond it in a token begun before. -/
theorem Scanned.step (h : Scanned v b c) (hs : Stepped 1 c d)
    (hn : c.nextChar < c.bufferLimit ∨ (v < 2 ∧ c.textStart < c.nextChar)) : Scanned v b d := by
  have h1 := hs.textStart
  have h2 := hs.bufferLimit
  have h3 := hs.nextChar
  have h4 := hs.unread
  have hb := h.begun
  refine h.trans ⟨⟨?_, ?_⟩, ?_, ?_, ?_, ?_⟩
  · have := hb.text_le
    omega
  · have := hb.text_lt
    omega
  · simp only [remaining]
    omega
  · omega
  · rw [hs.tvalueStart, h1]
    exact id
  · intro hv hk
    have := hb.text_le
    simp only [remaining]
    omega

theorem Stepped.remaining_lt (h : Stepped 1 b c) (hn : b.nextChar < b.bufferLimit) :
    c.remaining + 1 = b.remaining := by
  have h1 := h.bufferLimit
  have h2 := h.nextChar
  have h3 := h.unread
  simp only [remaining]
  omega

theorem readFunc_length (count : Nat) (source : List (List UChar)) :
    (readFunc count source).1.length + ((readFunc count source).2.map List.length).sum ≤
      (source.map List.length).sum := by
  cases source with
  | nil => simp [readFunc]
  | cons chunk rest =>
    rw [readFunc]
    split
    · simp
    · simp only [List.length_take, List.map_cons, List.length_drop, List.sum_cons]
      omega

/-- A read adds no more to the buffered text than it takes from the source. -/
theorem fill_spec (b : Buffer) :
    b.fill.2.textStart = b.textStart ∧ b.fill.2.tvalueStart = b.tvalueStart ∧
      b.fill.2.nextChar = b.nextChar ∧ b.bufferLimit ≤ b.fill.2.bufferLimit ∧
      b.fill.2.bufferLimit + b.fill.2.unread ≤ b.bufferLimit + b.unread ∧
      (b.fill.1 = Code.ok → b.fill.2.unread < b.unread ∧ b.bufferLimit < b.fill.2.bufferLimit) ∧
      (b.fill.1 ≠ Code.ok → b.fill.2.bufferLimit = b.bufferLimit) := by
  have hread : ∀ chunk source,
      (if b.atEof then ([], b.charSource) else
        readFunc (b.bufferSize - b.bufferLimit) b.charSource) =
        (chunk, source) → chunk.length + (source.map List.length).sum ≤ b.unread := by
    intro chunk source h
    split at h
    · simp only [Prod.mk.injEq] at h
      obtain ⟨rfl, rfl⟩ := h
      simp [unread]
    · have := readFunc_length (b.bufferSize - b.bufferLimit) b.charSource
      rw [h] at this
      exact this
  rw [fill]
  split
  · rename_i source h
    have := hread _ _ h
    refine ⟨rfl, rfl, rfl, Nat.le_refl _, ?_, ?_, fun _ => rfl⟩
    · simp only [unread] at this ⊢
      omega
    · rintro ⟨⟩
  · rename_i chunk source hne h
    have := hread _ _ h
    obtain ⟨hlen, hc⟩ := convertTerminators_length chunk
    have hpos : 0 < chunk.length := by
      cases chunk with
      | nil => exact (hne rfl).elim
      | cons u us => simp
    refine ⟨rfl, rfl, rfl, Nat.le_add_right _ _, ?_, ?_, fun hc => (hc rfl).elim⟩
    · simp only [unread] at this ⊢
      omega
    · intro _
      have hkeep := length_delivered_ge chunk
      have hpairs := length_normalizeTerminators chunk
      rw [delivered, List.length_take] at hkeep
      simp only [unread] at this ⊢
      omega

/-- Making room drops text before the current token only. -/
theorem makeRoom_spec (h : b.textStart ≤ b.nextChar) :
    b.makeRoom.unread = b.unread ∧ b.makeRoom.textStart ≤ b.textStart ∧
      b.makeRoom.textStart ≤ b.makeRoom.nextChar ∧
      (b.textStart ≤ b.tvalueStart → b.makeRoom.textStart ≤ b.makeRoom.tvalueStart) ∧
      (b.textStart < b.bufferLimit → b.makeRoom.nextChar - b.makeRoom.textStart =
        b.nextChar - b.textStart) ∧
      (b.textStart < b.bufferLimit → b.textStart < b.nextChar →
        b.makeRoom.textStart < b.makeRoom.bufferLimit) ∧
      b.makeRoom.bufferLimit - b.makeRoom.nextChar ≤ b.bufferLimit - b.nextChar ∧
      (b.nextChar ≤ b.bufferLimit → b.makeRoom.nextChar ≤ b.makeRoom.bufferLimit) ∧
      (b.nextChar = b.textStart → b.makeRoom.nextChar = b.makeRoom.textStart) := by
  rw [makeRoom]
  split
  · exact ⟨rfl, Nat.zero_le _, Nat.le_refl _, fun _ => Nat.le_refl _, by omega, by omega, by simp,
      by simp, fun _ => rfl⟩
  · split
    · refine ⟨rfl, ?_, ?_, ?_, ?_, ?_, ?_, ?_, ?_⟩ <;> simp only <;> omega
    · refine ⟨rfl, ?_, ?_, ?_, ?_, ?_, ?_, ?_, ?_⟩ <;> omega

/-- What a read that starts at `b` may do; `more` tells whether it has read anything. -/
structure ReadInto (b c : Buffer) (more : Bool) : Prop where
  textStart : c.textStart = b.textStart
  tvalueStart : c.tvalueStart = b.tvalueStart
  nextChar : c.nextChar = b.nextChar
  limit_le : b.bufferLimit ≤ c.bufferLimit
  taken : c.bufferLimit + c.unread ≤ b.bufferLimit + b.unread
  read : more = true → c.unread < b.unread ∧ b.bufferLimit < c.bufferLimit
  failed : more = false → c.bufferLimit = b.bufferLimit

/-- The source may have lost units since, and others may have been replaced. -/
structure Converted (b c : Buffer) : Prop where
  eq : c = { b with charSource := c.charSource }
  unread_le : c.unread ≤ b.unread

theorem Converted.refl (b : Buffer) : Converted b b := ⟨rfl, Nat.le_refl _⟩

theorem Converted.trans (h : Converted b c) (h' : Converted c d) : Converted b d := by
  refine ⟨?_, Nat.le_trans h'.unread_le h.unread_le⟩
  rw [h'.eq, h.eq]

theorem converted_substitute (n : Nat) (u : UChar) (b : Buffer) :
    Converted b (b.substitute n u) := by
  refine ⟨rfl, ?_⟩
  rw [substitute, unread, unread]
  cases b.charSource <;> simp

theorem converted_discard (n : Nat) (b : Buffer) : Converted b (b.discard n) := by
  refine ⟨rfl, ?_⟩
  rw [discard, unread, unread]
  cases b.charSource with
  | nil => exact Nat.le_refl _
  | cons chunk rest =>
    dsimp only
    split
    · simp only [List.map_cons, List.sum_cons, List.length_drop]
      omega
    · simp only [List.map_cons, List.sum_cons]
      omega

theorem Converted.fill (h : Converted b c) : ReadInto b c.fill.2 (decide (c.fill.1 = Code.ok)) := by
  obtain ⟨f1, f2, f3, f4, f5, f6, f7⟩ := fill_spec c
  have hle := h.unread_le
  have h1 : c.textStart = b.textStart := by rw [h.eq]
  have h2 : c.tvalueStart = b.tvalueStart := by rw [h.eq]
  have h3 : c.nextChar = b.nextChar := by rw [h.eq]
  have h4 : c.bufferLimit = b.bufferLimit := by rw [h.eq]
  refine ⟨f1.trans h1, f2.trans h2, f3.trans h3, by omega, by omega, fun hok => ?_, fun hno => ?_⟩
  · have hread := f6 (of_decide_eq_true hok)
    omega
  · exact (f7 (of_decide_eq_false hno)).trans h4

theorem Converted.failed (h : Converted b c) : ReadInto b c false := by
  have hle := h.unread_le
  have h4 : c.bufferLimit = b.bufferLimit := by rw [h.eq]
  refine ⟨by rw [h.eq], by rw [h.eq], by rw [h.eq], by omega, by omega, fun hok => ?_, fun _ => h4⟩
  cases hok

/-- A read keeps a scan going. -/
theorem Begun.readInto {more : Bool} (h : Begun b) (ht : b.textStart < b.nextChar)
    (hread : ReadInto b.makeRoom c more) :
    Scanned v b c ∧ c.textStart ≤ b.textStart ∧ (more = true → c.unread < b.unread) := by
  obtain ⟨r1, r2, r3, r4, r5, r6, r7, r8, _⟩ := makeRoom_spec h.text_le
  obtain ⟨f1, f2, f3, f4, f5, f6, f7⟩ := hread
  have hlt := h.text_lt
  have hr5 := r5 hlt
  have hr6 := r6 hlt ht
  refine ⟨⟨⟨?_, ?_⟩, ?_, ?_, ?_, ?_⟩, ?_, ?_⟩
  · omega
  · omega
  · simp only [remaining]
    omega
  · omega
  · intro hv
    have := r4 hv
    omega
  · intro _ hk
    have := r8 hk
    simp only [remaining]
    omega
  · omega
  · intro hok
    have := (f6 hok).1
    omega

end Buffer

/-- The run finishes, with `Q` if it does not stop with a code. -/
abbrev Returns {α : Type} (m : Parse σ α) (s : Scanner σ) (Q : α → Scanner σ → Prop) : Prop :=
  Post False m s Q fun _ _ => True

theorem Returns.imp {α : Type} {m : Parse σ α} {s : Scanner σ} {Q Q' : α → Scanner σ → Prop}
    (h : Returns m s Q) (hQ : ∀ a t, Q a t → Q' a t) : Returns m s Q' :=
  Post.imp h hQ fun _ _ h => h

section Reads

open Buffer

variable {cfg : Config σ} {s : Scanner σ}

theorem returns_toUnicodeCallback (kind : Malformed) :
    Returns (toUnicodeCallback cfg kind) s fun _ s' => s'.toBuffer = s.toBuffer := by
  rw [Returns, toUnicodeCallback, post_bind, post_read, post_bind, post_errorCallback, post_ite]
  exact ⟨fun _ => rfl, fun _ => post_ite.mpr ⟨fun _ => rfl, fun _ => trivial⟩⟩

theorem returns_convertUnits (repl : UChar) (n i : Nat) (s : Scanner σ) :
    Returns (convertUnits (toUnicodeCallback cfg) repl n i) s fun _ s' =>
      Converted s.toBuffer s'.toBuffer := by
  induction n generalizing i s with
  | zero => exact Converted.refl _
  | succ n ih =>
    rw [Returns, convertUnits, post_bind, post_read]
    split
    · exact ih _ _
    · rw [post_bind]
      refine (returns_toUnicodeCallback _).imp fun passes t ht => ?_
      rw [post_ite, post_bind, post_bind, post_modify, post_modify]
      refine ⟨fun _ => (ih _ _).imp fun _ u hu => ?_, fun _ => ?_⟩
      · exact Converted.trans (ht ▸ converted_substitute _ _ _) hu
      · exact ht ▸ converted_discard _ _

theorem returns_toUnicode (n : Nat) :
    Returns (toUnicode cfg n) s fun _ s' => Converted s.toBuffer s'.toBuffer :=
  returns_convertUnits _ _ _ _

/-- Getting more characters comes down to a read, after room has been made for it. -/
theorem returns_getMoreChars :
    Returns (getMoreChars cfg) s fun more s' => ReadInto s.makeRoom s'.toBuffer more := by
  rw [Returns, getMoreChars, post_bind, post_modify, post_bind, post_read, post_bind]
  refine (returns_toUnicode _).imp fun passes t ht => ?_
  rw [post_ite, post_update]
  exact ⟨fun _ => ht.fill, fun _ => ht.failed⟩

theorem returns_moreChars (h : Begun s.toBuffer) (ht : s.textStart < s.nextChar) :
    Returns (getMoreChars cfg) s fun more s' => Scanned v s.toBuffer s'.toBuffer
      ∧ s'.textStart ≤ s.textStart ∧ (more = true → s'.unread < s.unread) :=
  returns_getMoreChars.imp fun _ _ hread => h.readInto ht hread

end Reads

section Units

open Buffer

variable {cfg : Config σ} {body : τ → Parse σ (τ ⊕ ω)} {atEnd : τ → Parse σ ω}
  {I : τ → Scanner σ → Prop}
  {M : Scanner σ → Prop} {Q : ω → Scanner σ → Prop} {t : τ} {s : Scanner σ}

/-- One unit passed; in CIF 1 there may have been a read after it. -/
def Forward (v : Int) (b c : Buffer) : Prop :=
  Stepped 1 b c ∨ v < 2 ∧ c.unread < b.unread ∧ c.textStart ≤ b.textStart

/-- The rounds over the units buffered up to `top`; after a read in CIF 1 `top` is out of date. -/
theorem returns_scanBuffered (hI : ∀ t s, I t s → Begun s.toBuffer)
    (hbody : ∀ t s, I t s → (s.nextChar < s.bufferLimit ∨ v < 2 ∧ s.textStart < s.nextChar ∧ M s) →
      Returns (body t) s (Round (fun t' s' => I t' s' ∧ M s' ∧ Forward v s.toBuffer s'.toBuffer) Q))
    (h : I t s) :
    Returns (scanBuffered body s.bufferLimit t) s (Round (fun t' s' => I t' s' ∧
      s'.textStart < s'.nextChar ∧ s'.unread ≤ s.unread
        ∧ (s'.bufferLimit ≤ s'.nextChar ∨ M s')) Q) := by
  generalize htop : s.bufferLimit = top
  let J (t : τ) (s' : Scanner σ) : Prop := I t s' ∧ s'.textStart < top ∧
    (2 ≤ v → s'.bufferLimit = top) ∧ s'.unread ≤ s.unread ∧ (s'.bufferLimit = top ∨ M s')
  let μ (_ : τ) (s' : Scanner σ) : Nat := s'.unread * (top + 1) + (top - s'.nextChar)
  have hJ : J t s :=
    ⟨h, by have := (hI t s h).text_lt; omega, fun _ => htop, Nat.le_refl _, Or.inl htop⟩
  have hμ : μ t s < bufferedBound s := by
    simp only [μ, bufferedBound, htop]
    omega
  refine Halts.loop (I := J) μ ?_ hJ hμ
  rintro t s' ⟨hs, htext, hlim, hun, hm⟩
  rw [Halts, post_bind, post_read]
  have hbeg := hI t s' hs
  have ht := hbeg.text_lt
  have htn := hbeg.text_le
  split
  · rename_i hnext
    have hin : s'.nextChar < s'.bufferLimit ∨ v < 2 ∧ s'.textStart < s'.nextChar ∧ M s' := by
      by_cases hl : s'.bufferLimit = top
      · omega
      · have := hm.resolve_left hl
        by_cases hv : 2 ≤ v
        · exact (hl (hlim hv)).elim
        · by_cases hlt : s'.nextChar < s'.bufferLimit
          · exact Or.inl hlt
          · exact Or.inr ⟨by omega, by omega, this⟩
    rw [post_bind]
    refine (hbody t s' hs hin).imp ?_
    rintro (t' | w) s'' hr
    · obtain ⟨hI', hM, hf | ⟨hv, hu, hte⟩⟩ := hr
      · have e1 := hf.textStart
        have e2 := hf.bufferLimit
        have e3 := hf.nextChar
        have e4 := hf.unread
        refine ⟨⟨hI', by omega, by omega, by omega, Or.inr hM⟩, ?_⟩
        simp only [μ, e4]
        omega
      · refine ⟨⟨hI', by omega, by omega, by omega, Or.inr hM⟩, ?_⟩
        have hmul := Nat.mul_le_mul_right (top + 1) (Nat.succ_le_of_lt hu)
        rw [Nat.succ_mul] at hmul
        simp only [μ]
        omega
    · exact hr
  · refine ⟨hs, by omega, hun, ?_⟩
    rcases hm with hl | hm
    · exact Or.inl (by omega)
    · exact Or.inr hm

/-- A scan finishes when `I` survives each unit passed and each read; `M` holds once a unit is
passed. -/
theorem returns_scanUnits (hI : ∀ t s, I t s → Begun s.toBuffer)
    (hbody : ∀ t s, I t s → (s.nextChar < s.bufferLimit ∨ v < 2 ∧ s.textStart < s.nextChar ∧ M s) →
      Returns (body t) s (Round (fun t' s' => I t' s' ∧ M s' ∧ Forward v s.toBuffer s'.toBuffer) Q))
    (hmore : ∀ t s, I t s → s.textStart < s.nextChar → (s.bufferLimit ≤ s.nextChar ∨ M s) →
      Returns (getMoreChars cfg) s fun more s' => if more then I t s' else Returns (atEnd t) s' Q)
    (h : I t s) : Returns (scanUnits cfg body atEnd t) s Q := by
  refine Halts.loop (I := I) (fun _ s => s.unread) ?_ h (Nat.lt_succ_self _)
  intro t s hs
  rw [Halts, post_bind, post_read, post_bind]
  refine (returns_scanBuffered hI hbody hs).imp ?_
  rintro (t' | w) s' hr
  · obtain ⟨hI', htn, hun, hm⟩ := hr
    rw [post_bind]
    have hread : Returns (getMoreChars cfg) s' fun more s'' => Scanned v s'.toBuffer s''.toBuffer ∧
        s''.textStart ≤ s'.textStart ∧ (more = true → s''.unread < s'.unread) :=
          returns_moreChars (hI t' s' hI') htn
    refine (Post.and (Post.of_cut False.elim (hmore t' s' hI' htn hm)) hread).imp ?_ fun _ _ _ =>
      trivial
    rintro more s'' ⟨hmore', -, -, hless⟩
    cases more with
    | true => exact ⟨hmore', Nat.lt_of_lt_of_le (hless rfl) hun⟩
    | false => exact post_bind.mpr hmore'
  · exact hr

/-- A unit has been passed, and is part of the token. -/
def Passed (b c : Buffer) : Prop :=
  c.remaining < b.remaining ∧ b.nextChar - b.textStart < c.nextChar - c.textStart

theorem Passed.of_scanned {b c d : Buffer} (h : Passed b c) (hs : Scanned v c d) : Passed b d :=
  ⟨Nat.lt_of_le_of_lt hs.remaining_le h.1, Nat.lt_of_lt_of_le h.2 hs.length_le⟩

theorem passed_of_step {b c d : Buffer} (h : Scanned v b c) (hs : Stepped 1 c d)
    (hn : c.nextChar < c.bufferLimit) : Passed b d := by
  have h1 := hs.remaining_lt hn
  have h2 := h.remaining_le
  have h3 := h.length_le
  have h4 := hs.nextChar
  have h5 := hs.textStart
  have h6 := h.begun.text_le
  exact ⟨by omega, by omega⟩

/-- Units passed one by one: the scan goes on, and either passes a unit or ends at the first one as
`F` tells. -/
theorem returns_units {F : ω → Scanner σ → Prop} (hs : Begun s.toBuffer)
    (hbody : ∀ t s, Returns (body t) s (Round (fun _ s' => Stepped 1 s.toBuffer s'.toBuffer)
      (fun _ s' => Stepped 1 s.toBuffer s'.toBuffer ∨ Stepped 0 s.toBuffer s'.toBuffer)))
    (hfirst : Returns (body t) s (Round (fun _ _ => True) F))
    (hend : ∀ t s, Returns (atEnd t) s fun _ s' => Stepped 0 s.toBuffer s'.toBuffer) :
    Returns (scanUnits cfg body atEnd t) s fun w s' => Scanned v s.toBuffer s'.toBuffer ∧
      (s.nextChar < s.bufferLimit → Passed s.toBuffer s'.toBuffer ∨ F w s') := by
  let M (s' : Scanner σ) : Prop := s.nextChar < s.bufferLimit → Passed s.toBuffer s'.toBuffer
  let I (t' : τ) (s' : Scanner σ) : Prop := Scanned v s.toBuffer s'.toBuffer ∧
    (M s' ∨ (t' = t ∧ s' = s))
  refine returns_scanUnits (v := v) (I := I) (M := M) (fun _ _ h => h.1.begun) ?_ ?_
    ⟨Scanned.refl hs, Or.inr ⟨rfl, rfl⟩⟩
  · rintro t' s' ⟨hsc, hm⟩ hin
    have hin' : s'.nextChar < s'.bufferLimit ∨ v < 2 ∧ s'.textStart < s'.nextChar := by
      rcases hin with h | ⟨h, h', _⟩
      · exact Or.inl h
      · exact Or.inr ⟨h, h'⟩
    have hmove : ∀ s'' : Scanner σ, Stepped 1 s'.toBuffer s''.toBuffer → M s'' := by
      intro s'' hst hlt
      rcases hin with h | ⟨_, _, h⟩
      · exact passed_of_step hsc hst h
      · exact (h hlt).of_scanned ((Scanned.refl hsc.begun (v := v)).step hst hin')
    rcases hm with hm | ⟨rfl, rfl⟩
    · refine (hbody t' s').imp ?_
      rintro (t'' | w) s'' hr
      · exact ⟨⟨hsc.step hr hin', Or.inl (hmove s'' hr)⟩, hmove s'' hr, Or.inl hr⟩
      · rcases hr with hr | hr
        · exact ⟨hsc.step hr hin', fun hlt => Or.inl (hmove s'' hr hlt)⟩
        · refine ⟨hsc.stay hr, fun hlt => Or.inl ?_⟩
          exact (hm hlt).of_scanned ((Scanned.refl hsc.begun (v := v)).stay hr)
    · refine (Post.and (Post.of_cut False.elim (hbody t' s')) hfirst).imp ?_ (fun _ _ _ => trivial)
      rintro (t'' | w) s'' ⟨hr, hf⟩
      · exact ⟨⟨hsc.step hr hin', Or.inl (hmove s'' hr)⟩, hmove s'' hr, Or.inl hr⟩
      · rcases hr with hr | hr
        · exact ⟨hsc.step hr hin', fun _ => Or.inr hf⟩
        · exact ⟨hsc.stay hr, fun _ => Or.inr hf⟩
  · rintro t' s' ⟨hsc, hm⟩ htn hmv
    have hm' : M s' := by
      rcases hm with hm | ⟨rfl, rfl⟩
      · exact hm
      · rcases hmv with h | h
        · intro hlt
          omega
        · exact h
    refine (returns_moreChars (v := v) hsc.begun htn).imp ?_
    rintro more s'' ⟨hg, -, -⟩
    split
    · exact ⟨hsc.trans hg, Or.inl fun hlt => (hm' hlt).of_scanned hg⟩
    · refine (hend t' _).imp ?_
      intro w s'' hst
      have h2 := hg.stay hst
      exact ⟨hsc.trans h2, fun hlt => Or.inl ((hm' hlt).of_scanned h2)⟩

end Units

section Lexical

open Buffer

variable {cfg : Config σ} {s : Scanner σ}

/-- Nothing but the world and the log is changed. -/
def SameText (s s' : Scanner σ) : Prop := s' = { s with world := s'.world, log := s'.log }

theorem SameText.trans {s s' s'' : Scanner σ} (h : SameText s s') (h' : SameText s' s'') :
    SameText s s'' := by
  rw [SameText] at h h' ⊢
  rw [h', h]

theorem SameText.toBuffer {s s' : Scanner σ} (h : SameText s s') : s'.toBuffer = s.toBuffer := by
  rw [SameText] at h
  rw [h]

theorem returns_report {code : Int} {line column : Nat} {text : List UChar} :
    Returns (report cfg code line column text) s fun _ s' => SameText s s' :=
  Post.report (fun _ _ => rfl) (fun _ _ _ => trivial)

theorem returns_when_report {p : Prop} [Decidable p] {code : Int} {line column : Nat}
    {text : List UChar} :
    Returns (when p (report cfg code line column text)) s fun _ s' => SameText s s' :=
  post_when.mpr ⟨fun _ => returns_report, fun _ => rfl⟩

theorem returns_checkUnit (c : UChar) : Returns (checkUnit cfg c) s fun _ s' => SameText s s' := by
  rw [Returns, checkUnit, post_bind, post_read, post_bind]
  refine returns_when_report.imp fun _ t h => ?_
  exact Returns.imp returns_when_report fun _ t' h' => h.trans h'

theorem returns_handleUnpairedLead (lead : Bool) :
    Returns (handleUnpairedLead cfg lead) s fun _ s' =>
      Stepped 0 s.toBuffer s'.toBuffer ∧ (lead = false → s'.buffer = s.buffer) := by
  rw [Returns, handleUnpairedLead, post_when]
  refine ⟨fun hl => ?_, fun _ => ⟨⟨rfl, rfl, rfl, rfl, rfl⟩, fun _ => rfl⟩⟩
  rw [post_bind, post_read, post_bind]
  refine Post.report (fun w e => ⟨⟨rfl, rfl, rfl, rfl, rfl⟩, fun h => ?_⟩) (fun _ _ _ => trivial)
  simp [h] at hl

/-- The unit scanned is the next one, or what replaces an unpaired trail surrogate. -/
theorem returns_scanUChar (lead : Bool) (s : Scanner σ) :
    Returns (scanUChar cfg lead) s fun r s' => Stepped 1 s.toBuffer s'.toBuffer ∧
      (r.1 = s.nextUnit ∨ isTrail s.nextUnit ∧ r.1 = replChar cfg.cifVersion) ∧
      (lead = false → s'.prevUnit = r.1) := by
  rw [Returns, scanUChar]
  simp only [post_bind, post_modify, post_read]
  split
  · rename_i htrail
    split
    · rename_i hlead
      have hl : lead ≠ false := by simp [hlead]
      rw [post_bind]
      refine returns_when_report.imp fun _ s' h => ?_
      rw [SameText] at h
      rw [h]
      exact ⟨⟨rfl, rfl, rfl, rfl, rfl⟩, Or.inl rfl, fun h => (hl h).elim⟩
    · rw [post_bind]
      refine returns_report.imp fun _ s' h => ?_
      rw [SameText] at h
      rw [h]
      refine ⟨⟨rfl, rfl, rfl, rfl, rfl⟩, Or.inr ⟨htrail, rfl⟩, fun _ => ?_⟩
      simp [Scanner.prevUnit, Scanner.advance, Scanner.replaceNext, write, Scanner.incColumn]
  · rw [post_bind]
    refine (returns_checkUnit _).imp fun _ s' h => ?_
    rw [post_bind]
    refine (returns_handleUnpairedLead lead).imp fun _ s'' h' => ?_
    obtain ⟨hst, hbuf⟩ := h'
    have hb : s'.toBuffer = s.toBuffer := h.toBuffer
    rw [hb] at hst
    refine ⟨⟨hst.textStart, hst.tvalueStart, hst.bufferLimit, hst.charSource, ?_⟩, Or.inl rfl, ?_⟩
    · exact congrArg (· + 1) hst.nextChar
    · intro hl
      have h1 : s''.nextChar = s.nextChar := hst.nextChar
      have h2 : s'.buffer = s.buffer := congrArg Buffer.buffer hb
      simp only [Scanner.advance, Scanner.prevUnit, Scanner.nextUnit, hbuf hl, h1, h2]
      rfl

theorem returns_handleEol (c : UChar) (sol : Nat) :
    Returns (handleEol cfg c sol) s fun _ s' => s'.toBuffer = s.toBuffer := by
  rw [Returns, handleEol, post_bind, post_read, post_bind]
  refine returns_when_report.imp fun _ s' h => ?_
  exact h.toBuffer

/-- Stepping back over the unit just passed. -/
theorem stepped_backUp {s s' : Scanner σ} (h : Stepped 1 s.toBuffer s'.toBuffer) :
    Stepped 0 s.toBuffer s'.backUp.toBuffer := by
  refine ⟨h.textStart, h.tvalueStart, h.bufferLimit, h.charSource, ?_⟩
  have := h.nextChar
  simp only [Scanner.backUp, Scanner.pushBack, Scanner.incColumn]
  omega

/-- Peeking reads only when the buffered text is used up. -/
theorem returns_peekChar (hs : Begun s.toBuffer) (ht : s.textStart < s.nextChar) :
    Returns (peekChar cfg) s fun r s' => Scanned v s.toBuffer s'.toBuffer
      ∧ s'.textStart ≤ s.textStart ∧ (s' = s ∨ s'.unread < s.unread ∨ r = none) ∧
      (r ≠ none → s.nextChar ≤ s.bufferLimit → s'.nextChar < s'.bufferLimit) := by
  rw [Returns, peekChar, post_bind, post_read]
  split
  · rename_i hl
    split
    · exact ⟨Scanned.refl hs, Nat.le_refl _, Or.inl rfl, fun h => (h rfl).elim⟩
    · rw [post_bind]
      refine returns_getMoreChars.imp fun more s' hread => ?_
      obtain ⟨hg, hte, hun⟩ := hs.readInto (v := v) ht hread
      split
      · rename_i hok
        refine ⟨hg, hte, Or.inr (Or.inl (hun hok)), fun _ hk => ?_⟩
        have hm := (makeRoom_spec hs.text_le).2.2.2.2.2.2.2.1 hk
        exact hread.nextChar ▸ Nat.lt_of_le_of_lt hm (hread.read hok).2
      · exact ⟨hg, hte, Or.inr (Or.inr rfl), fun h => (h rfl).elim⟩
  · exact ⟨Scanned.refl hs, Nat.le_refl _, Or.inl rfl, fun _ _ => by omega⟩

theorem returns_scanWsUnit (sol : Nat) (s : Scanner σ) :
    Returns (scanWsUnit cfg sol) s (Round (fun _ s' => Stepped 1 s.toBuffer s'.toBuffer)
      (fun _ s' => s' = s ∧ cfg.classOf s.nextUnit ≠ .eol)) := by
  rw [Returns, scanWsUnit, post_bind, post_read]
  dsimp only
  split
  · exact ⟨rfl, rfl, rfl, rfl, rfl⟩
  · rw [post_bind]
    refine (returns_handleEol _ _).imp fun _ s' h => ?_
    refine ⟨?_, ?_, ?_, ?_, ?_⟩ <;> simp [Scanner.advance, h]
  · rename_i hne
    exact ⟨rfl, hne⟩

theorem stepped_refl (b : Buffer) : Stepped 0 b b := ⟨rfl, rfl, rfl, rfl, rfl⟩

theorem returns_scanWs (hs : Begun s.toBuffer) :
    Returns (scanWs cfg) s fun _ s' => Scanned v s.toBuffer s'.toBuffer ∧
      (s.nextChar < s.bufferLimit → cfg.classOf s.nextUnit = .eol →
        Passed s.toBuffer s'.toBuffer) := by
  rw [Returns, scanWs, post_bind]
  refine (returns_units (v := v) (F := fun _ _ => cfg.classOf s.nextUnit ≠ .eol) hs
    (fun t s => (returns_scanWsUnit t s).imp (by
      rintro (t' | w) s' h
      · exact h
      · rw [h.1]
        exact Or.inr (stepped_refl _)))
    ((returns_scanWsUnit 0 s).imp (by
      rintro (t' | w) s' h
      · trivial
      · exact h.2))
    (fun t s => post_pure.mpr (stepped_refl _))).imp fun _ s' h => ⟨h.1, fun hlt heol => ?_⟩
  exact (h.2 hlt).resolve_right fun hne => hne heol

theorem returns_scanToUnit (stops : UChar → Bool) (lead : Bool) (s : Scanner σ) :
    Returns (scanToUnit cfg stops lead) s (Round (fun _ s' => Stepped 1 s.toBuffer s'.toBuffer)
      (fun _ s' => Stepped 1 s.toBuffer s'.toBuffer ∨ Stepped 0 s.toBuffer s'.toBuffer)) := by
  rw [Returns, scanToUnit, post_bind]
  refine (returns_scanUChar lead s).imp fun r s' h => ?_
  dsimp only
  split
  · exact Or.inr (stepped_backUp h.1)
  · exact h.1

theorem returns_scanTo (stops : UChar → Bool) (hs : Begun s.toBuffer) :
    Returns (scanTo cfg stops) s fun _ s' => Scanned v s.toBuffer s'.toBuffer := by
  rw [Returns, scanTo, post_bind]
  refine (returns_units (F := fun _ _ => True) hs (returns_scanToUnit stops)
    ((returns_scanToUnit stops false s).imp ?_)
    (fun t s => (returns_handleUnpairedLead t).imp fun _ _ h => h.1)).imp fun _ _ h => h.1
  rintro (t | w) _ _ <;> trivial

/-- How an unquoted token may end at its very first unit: an unpaired trail surrogate is replaced by
a character that ends it. -/
def EndsAtFirst (cfg : Config σ) (s s' : Scanner σ) : Prop :=
  cfg.cifVersion < 2 ∧ isTrail s.nextUnit ∧ Stepped 0 s.toBuffer s'.toBuffer ∧ ¬ isTrail s'.nextUnit

theorem returns_scanUnquotedUnit (st : UnquotedState) (s : Scanner σ) :
    Returns (scanUnquotedUnit cfg st) s (Round (fun _ s' => Stepped 1 s.toBuffer s'.toBuffer)
      (fun _ s' => (Stepped 1 s.toBuffer s'.toBuffer ∨ Stepped 0 s.toBuffer s'.toBuffer) ∧
        (st.lead = false → (cfg.metaClassOf s.nextUnit = .general
          ∨ cfg.metaClassOf s.nextUnit = .no) → EndsAtFirst cfg s s'))) := by
  rw [Returns, scanUnquotedUnit, post_bind]
  refine (returns_scanUChar st.lead s).imp ?_
  rintro ⟨c, lead⟩ s' ⟨hst, hc, hprev⟩
  have hback : ∀ s'' : Scanner σ, SameText s' s'' → st.lead = false →
      (cfg.metaClassOf s.nextUnit = .general ∨ cfg.metaClassOf s.nextUnit = .no) →
      ¬ (cfg.metaClassOf c = .general ∨ cfg.metaClassOf c = .no) →
        EndsAtFirst cfg s s''.backUp := by
    intro s'' hsame hlead hfirst hend
    rcases hc with rfl | ⟨htrail, rfl⟩
    · exact (hend hfirst).elim
    · have hv : cfg.cifVersion < 2 := by
        by_contra hv
        have h2 : 2 ≤ cfg.cifVersion := by omega
        refine hend (Or.inl ?_)
        simp [replChar, h2, Config.metaClassOf, Config.classOf, charTableMax, CharClass.metaClass]
      have hb := hsame.toBuffer
      refine ⟨hv, htrail, stepped_backUp (hb ▸ hst), ?_⟩
      have he : s''.backUp.nextUnit = s'.prevUnit := by
        change s''.toBuffer.buffer (s''.toBuffer.nextChar - 1) = s'.prevUnit
        rw [hb]
        rfl
      rw [he, hprev hlead]
      have h2 : ¬ 2 ≤ cfg.cifVersion := by omega
      simp [replChar, h2, isTrail]
  dsimp only
  split
  · exact hst
  · rename_i hcl
    split
    · exact hst
    · rw [post_bind, post_read, post_bind]
      refine returns_report.imp fun _ s'' h => ?_
      have hs : SameText s' (s''.after
          (cfg.element ⟨.whitespace, s''.line, s''.column, []⟩ s''.world)
          (.element ⟨.whitespace, s''.line, s''.column, []⟩
            (cfg.element ⟨.whitespace, s''.line, s''.column, []⟩ s''.world))) := h.trans rfl
      exact ⟨Or.inr (stepped_backUp (hs.toBuffer ▸ hst)),
        fun hl hf => hback _ hs hl hf (by simp [hcl])⟩
  · rename_i hcl
    split
    · exact hst
    · exact ⟨Or.inr (stepped_backUp hst), fun hl hf => hback s' rfl hl hf (by simp [hcl])⟩
  · rename_i hcl
    split
    · exact ⟨Or.inr (stepped_backUp hst), fun hl hf => hback s' rfl hl hf (by simp [hcl])⟩
    · rename_i heof
      refine ⟨Or.inl hst, fun hl hf => ?_⟩
      have heof : c = UChar.eofChar := by simpa using heof
      rcases hc with rfl | ⟨_, hr⟩
      · simp [hcl] at hf
      · rw [heof, replChar] at hr
        dsimp only at hr
        split at hr <;> exact absurd hr (by decide)
  · exact hst

theorem returns_scanUnquoted (hs : Begun s.toBuffer) (hval : s.tvalueStart = s.textStart) :
    Returns (scanUnquoted cfg) s fun _ s' => Scanned v s.toBuffer s'.toBuffer ∧
      s'.tvalueLength ≤ s'.nextChar - s'.textStart ∧
      (s.nextChar < s.bufferLimit →
        (cfg.metaClassOf s.nextUnit = .general ∨ cfg.metaClassOf s.nextUnit = .no) →
        Passed s.toBuffer s'.toBuffer ∨ EndsAtFirst cfg s s') := by
  rw [Returns, scanUnquoted, post_bind]
  refine (returns_units (v := v) (F := fun _ s' =>
      (cfg.metaClassOf s.nextUnit = .general ∨ cfg.metaClassOf s.nextUnit = .no) →
        EndsAtFirst cfg s s') hs
    (fun t s => (returns_scanUnquotedUnit t s).imp (by
      rintro (t' | w) s' h
      · exact h
      · exact h.1))
    ((returns_scanUnquotedUnit {} s).imp (by
      rintro (t' | w) s' h
      · trivial
      · exact h.2 rfl))
    (fun t s => (returns_handleUnpairedLead t.lead).imp fun _ _ h => h.1)).imp ?_
  rintro _ s' ⟨hsc, hf⟩
  refine ⟨hsc, ?_, fun hlt hcl => (hf hlt).imp_right fun h => h hcl⟩
  have := hsc.value (Nat.le_of_eq hval.symm)
  simp only [Scanner.endToken, Scanner.setTvalue]
  omega

theorem scanned_setTvalue {b : Buffer} {start size : Nat} (h : Scanned v b s.toBuffer) :
    Scanned v b (s.setTvalue start size).toBuffer :=
  ⟨⟨h.begun.text_le, h.begun.text_lt⟩, h.remaining_le, h.length_le,
    fun hv => Nat.le_trans (h.value hv) (Nat.le_add_right _ _), h.kept⟩

/-- The frame of the scans that report an unclosed delimiter at the end of the input. -/
theorem returns_unclosed (lead : Bool) (s : Scanner σ) :
    Returns (do
      handleUnpairedLead cfg lead
      let s ← read
      report cfg Code.unclosedText s.line s.column []
      pure 0 : Parse σ Nat) s fun _ s' => Stepped 0 s.toBuffer s'.toBuffer := by
  rw [Returns, post_bind]
  refine (returns_handleUnpairedLead lead).imp fun _ s' h => ?_
  rw [post_bind, post_read, post_bind]
  refine returns_report.imp fun _ s'' h' => ?_
  change Stepped 0 s.toBuffer s''.toBuffer
  rw [h'.toBuffer]
  exact h.1

theorem returns_scanTripleUnit (delim : UChar) (st : TripleState) (s : Scanner σ) :
    Returns (scanTripleUnit cfg delim st) s (Round (fun _ s' => Stepped 1 s.toBuffer s'.toBuffer)
      (fun _ s' => Stepped 1 s.toBuffer s'.toBuffer ∨ Stepped 0 s.toBuffer s'.toBuffer)) := by
  rw [Returns, scanTripleUnit, post_bind]
  refine (returns_scanUChar st.lead s).imp ?_
  rintro ⟨c, lead⟩ s' ⟨hst, _⟩
  dsimp only
  split
  · split
    · exact Or.inl hst
    · exact hst
  · split
    · rw [post_bind]
      refine (returns_handleEol _ _).imp fun _ s'' h => ?_
      rw [← h] at hst
      exact hst
    · exact hst

theorem returns_scanTripleDelimString (hs : Begun s.toBuffer) :
    Returns (scanTripleDelimString cfg) s fun _ s' => Scanned v s.toBuffer s'.toBuffer := by
  rw [Returns, scanTripleDelimString, post_bind, post_read, post_bind]
  refine (returns_units (F := fun _ _ => True) hs (returns_scanTripleUnit _)
    ((returns_scanTripleUnit _ {} s).imp ?_)
    (fun t s => returns_unclosed t.lead s)).imp fun _ _ h => scanned_setTvalue h.1
  rintro (t | w) _ _ <;> trivial

theorem returns_scanTextUnit (st : Bool × Nat) (s : Scanner σ) :
    Returns (scanTextUnit cfg st) s (Round (fun _ s' => Stepped 1 s.toBuffer s'.toBuffer)
      (fun _ s' => Stepped 1 s.toBuffer s'.toBuffer ∨ Stepped 0 s.toBuffer s'.toBuffer)) := by
  rw [Returns, scanTextUnit, post_bind]
  refine (returns_scanUChar st.1 s).imp ?_
  rintro ⟨c, lead⟩ s' ⟨hst, _⟩
  dsimp only
  split
  · split
    · rw [post_bind, post_read]
      split <;> exact Or.inl hst
    · exact hst
  · rw [post_bind]
    refine (returns_handleEol _ _).imp fun _ s'' h => ?_
    rw [← h] at hst
    exact hst
  · exact hst

theorem returns_scanText (hs : Begun s.toBuffer) :
    Returns (scanText cfg) s fun _ s' => Scanned v s.toBuffer s'.toBuffer := by
  rw [Returns, scanText, post_bind]
  refine (returns_units (F := fun _ _ => True) hs returns_scanTextUnit
    ((returns_scanTextUnit _ s).imp ?_)
    (fun t s => returns_unclosed t.1 s)).imp fun _ _ h => scanned_setTvalue h.1
  rintro (t | w) _ _ <;> trivial

/-- A read after a delimiter may outdate the bound of the scan, but only in CIF 1 does it go on
then. -/
theorem returns_scanDelimUnit {s₀ : Buffer} (hv : v = cfg.cifVersion) (delim : UChar) (lead : Bool)
    (s : Scanner σ) (h : Scanned v s₀ s.toBuffer)
    (hin : s.nextChar < s.bufferLimit ∨ v < 2 ∧ s.textStart < s.nextChar) :
    Returns (scanDelimUnit cfg delim lead) s (Round
      (fun _ s' => Scanned v s₀ s'.toBuffer ∧ Forward v s.toBuffer s'.toBuffer)
      (fun _ s' => Scanned v s₀ s'.toBuffer)) := by
  rw [Returns, scanDelimUnit, post_bind]
  refine (returns_scanUChar lead s).imp ?_
  rintro ⟨c, lead⟩ s' ⟨hst, _⟩
  have h' := h.step hst hin
  have htn : s'.textStart < s'.nextChar := by
    have h1 := hst.textStart
    have h2 := hst.nextChar
    have h3 := h.begun.text_le
    omega
  have htext := hst.textStart
  have hun := hst.unread
  dsimp only
  split
  · rw [post_bind]
    refine (returns_peekChar (v := v) h'.begun htn).imp ?_
    rintro (_ | d) s'' ⟨hsc, hte, hcase, hlt⟩
    · exact h'.trans hsc
    · dsimp only
      rw [post_bind, post_read]
      split
      · split
        · refine ⟨h'.trans hsc, ?_⟩
          rcases hcase with rfl | hu | hn
          · exact Or.inl hst
          · exact Or.inr ⟨by omega, by omega, by omega⟩
          · exact absurd hn (by simp)
        · exact h'.trans hsc
      · have hk : s'.nextChar ≤ s'.bufferLimit := by
          have h1 := hst.bufferLimit
          have h2 := hst.nextChar
          omega
        split
        · exact (h'.trans hsc).step ⟨rfl, rfl, rfl, rfl, rfl⟩ (Or.inl (hlt (by simp) hk))
        · exact h'.trans hsc
  · split
    · exact h.stay (stepped_backUp hst)
    · exact ⟨h', Or.inl hst⟩

theorem returns_scanDelimString (hs : Begun s.toBuffer) :
    Returns (scanDelimString cfg) s fun _ s' => Scanned cfg.cifVersion s.toBuffer s'.toBuffer := by
  rw [Returns, scanDelimString, post_bind, post_read, post_bind]
  refine Returns.imp (returns_scanUnits (v := cfg.cifVersion)
    (I := fun _ s' => Scanned cfg.cifVersion s.toBuffer s'.toBuffer) (M := fun _ => True)
    (Q := fun _ s' => Scanned cfg.cifVersion s.toBuffer s'.toBuffer) (fun _ _ h => h.begun) ?_ ?_
    (Scanned.refl hs)) ?_
  rotate_left 2
  · rintro (_ | _ | _) s' h
    · exact scanned_setTvalue h
    · rw [post_bind, post_read, post_bind]
      refine returns_report.imp fun _ s'' h' => ?_
      refine scanned_setTvalue ?_
      rw [h'.toBuffer]
      exact h
    · exact (returns_scanTripleDelimString h.begun).imp fun _ _ h' => h.trans h'
  · intro t s' h hin
    refine (returns_scanDelimUnit rfl _ t s' h (hin.imp_right fun h => ⟨h.1, h.2.1⟩)).imp ?_
    rintro (t' | w) s'' h'
    · exact ⟨h'.1, trivial, h'.2⟩
    · exact h'
  · intro t s' h htn _
    refine (returns_moreChars (v := cfg.cifVersion) h.begun htn).imp ?_
    rintro more s'' ⟨hg, -, -⟩
    split
    · exact h.trans hg
    · refine post_bind.mpr ?_
      exact (returns_handleUnpairedLead t).imp fun _ _ h' => (h.trans hg).stay h'.1

end Lexical

end CifApi
