import CifApi.Scanner.Delivery
import CifApi.Scanner.Progress

/-! What a scanner shows of its text, whichever way the units came into its buffer. -/
namespace CifApi

open Exec

variable {σ τ ω : Type}

namespace Buffer

variable {b c : Buffer} {i j k n start : Nat} {past rest : List UChar}

@[simp] theorem length_slice : (b.slice i j).length = j - i := by simp [slice]

@[simp] theorem slice_self : b.slice i i = [] := by simp [slice]

theorem getElem?_slice (h : i + n < j) : (b.slice i j)[n]? = some (b.buffer (i + n)) := by
  simp [slice, show n < j - i by omega]

theorem slice_congr (hn : j - i = k - n) (h : ∀ m < j - i, b.buffer (i + m) = c.buffer (n + m)) :
    b.slice i j = c.slice n k := by
  rw [slice, slice, ← hn]
  refine List.map_congr_left fun m hm => h m ?_
  simpa using hm

theorem slice_append (hi : i ≤ j) (hj : j ≤ k) : b.slice i j ++ b.slice j k = b.slice i k := by
  apply List.ext_getElem?
  intro m
  by_cases hm : m < j - i
  · rw [List.getElem?_append_left (by simpa using hm), getElem?_slice (by omega),
      getElem?_slice (by omega)]
  · rw [List.getElem?_append_right (by simpa using hm), length_slice]
    by_cases hk : m < k - i
    · rw [getElem?_slice (by omega), getElem?_slice (by omega)]
      congr 2
      omega
    · rw [List.getElem?_eq_none (by simp; omega), List.getElem?_eq_none (by simp; omega)]

theorem slice_succ (b : Buffer) (i : Nat) : b.slice i (i + 1) = [b.buffer i] := by simp [slice]

/-- The units after the first. -/
theorem slice_eq_cons (h : i < j) : b.slice i j = b.buffer i :: b.slice (i + 1) j := by
  rw [← slice_append (Nat.le_succ i) h, slice_succ]
  rfl

/-- The units up to the last. -/
theorem slice_eq_concat (h : i ≤ j) : b.slice i (j + 1) = b.slice i j ++ [b.buffer j] := by
  rw [← slice_append h (Nat.le_succ j), slice_succ]

theorem fill_buffer (b : Buffer) (h : i < b.bufferLimit) : b.fill.2.buffer i = b.buffer i := by
  rw [fill]
  split
  · rfl
  · simp only [write]
    rw [if_neg (by omega)]

theorem fill_of_nil (h : b.charSource = []) :
    b.fill = (Code.eof, { b with atEof := true, charSource := [] }) := by
  rw [fill, h]
  cases b.atEof <;> rfl

theorem delivered_of_no_cr {chunk : List UChar} (h : UChar.cr ∉ chunk) :
    delivered chunk = chunk := by
  have hno : ∀ j : Nat, chunk[j]? ≠ some UChar.cr := fun j hj => h (List.mem_of_getElem? hj)
  rw [delivered_of_no_crlf (crlfCount_eq_zero_iff.mpr fun i hi => absurd hi (hno i)),
    map_lfOf_of_no_cr hno]

/-- The next units, if there is no carriage return among them, are delivered as they are. -/
theorem prefix_delivered_append {next chunk source : List UChar} (h : UChar.cr ∉ next)
    (hnext : next <+: chunk ++ source) :
    next <+: delivered chunk ++ source := by
  rcases List.prefix_or_prefix_of_prefix hnext (List.prefix_append chunk source) with ⟨back, rfl⟩
    | ⟨rest, rfl⟩
  · exact (prefix_delivered h back).trans (List.prefix_append _ _)
  · rw [List.prefix_append_right_inj] at hnext
    rw [delivered_of_no_cr fun hmem => h (List.mem_append_left _ hmem),
      List.prefix_append_right_inj]
    exact hnext

/-- The units scanned since the start of the current token, `start` of them before its value, and
the next units to come. -/
structure Shows (b : Buffer) (start : Nat) (past rest : List UChar) : Prop where
  sound : Buffer.Sound b
  value_eq : b.tvalueStart = b.textStart + start
  start_le : start ≤ past.length
  past_eq : b.slice b.textStart b.nextChar = past
  rest_prefix : rest <+: b.slice b.nextChar b.bufferLimit ++ b.charSource.flatten
  /-- Carriage returns are not to be delivered to the scanner. -/
  no_cr : UChar.cr ∉ rest
  decoded : b.Decoded

theorem Shows.nextChar_eq (h : Shows b start past rest) :
    b.nextChar = b.textStart + past.length := by
  have ht := h.sound.text_le
  rw [← h.past_eq, length_slice]
  omega

theorem Shows.getElem? (h : Shows b start past rest) (hn : n < past.length) :
    past[n]? = some (b.buffer (b.textStart + n)) := by
  have hnext := h.nextChar_eq
  rw [← h.past_eq]
  exact getElem?_slice (by omega)

theorem Shows.buffer_eq {before after : List UChar} {u : UChar}
    (h : Shows b start (before ++ u :: after) rest) :
    b.buffer (b.textStart + before.length) = u := by
  have hget := h.getElem? (n := before.length) (by simp)
  simpa using hget.symm

/-- The next unit, if it is buffered. -/
theorem Shows.of_lt {c : UChar} (h : Shows b start past (c :: rest))
    (hlt : b.nextChar < b.bufferLimit) :
    c = b.buffer b.nextChar
      ∧ rest <+: b.slice (b.nextChar + 1) b.bufferLimit ++ b.charSource.flatten := by
  have hrest := h.rest_prefix
  rw [slice_eq_cons hlt, List.cons_append, List.cons_prefix_cons] at hrest
  exact hrest

theorem Shows.begun (h : Shows b start past rest) (hpast : past ≠ []) : Begun b where
  text_le := h.sound.text_le
  text_lt := by
    have hnext := h.nextChar_eq
    have hpos := List.length_pos_iff.mpr hpast
    have hle := h.sound.next_le
    omega

/-- Making room moves the text of the current token, and drops nothing where all has been
scanned. -/
theorem Sound.makeRoom_kept (h : Sound b) (hn : b.bufferLimit ≤ b.nextChar)
    (hv : b.tvalueStart = b.textStart + start) (hs : b.textStart + start ≤ b.nextChar) :
    b.makeRoom.nextChar = b.makeRoom.bufferLimit
      ∧ b.makeRoom.slice b.makeRoom.textStart b.makeRoom.nextChar = b.slice b.textStart b.nextChar
      ∧ b.makeRoom.tvalueStart = b.makeRoom.textStart + start := by
  have hl := h.next_le
  have ht := h.text_le
  rw [Buffer.makeRoom]
  split
  · have heq : b.textStart = b.nextChar := by omega
    have hstart : start = 0 := by omega
    exact ⟨rfl, by simp [heq], by simp [hstart]⟩
  · split
    · refine ⟨rfl, ?_, by simp [hv]⟩
      refine slice_congr rfl fun m hm => ?_
      simp only [Nat.sub_zero] at hm
      simp only [Nat.zero_add]
      split
      · exact if_pos hm
      · exact if_pos hm
    · exact ⟨by omega, rfl, hv⟩

/-- Getting more characters, where all those buffered have been scanned, changes nothing that is
shown. -/
theorem Shows.more (h : Shows b start past rest) (hn : b.bufferLimit ≤ b.nextChar) :
    Shows b.getMoreChars.2 start past rest
      ∧ (b.getMoreChars.1 = Code.ok → b.getMoreChars.2.nextChar < b.getMoreChars.2.bufferLimit)
      ∧ (b.getMoreChars.1 ≠ Code.ok → rest = []) := by
  have hl := h.sound.next_le
  have hnext : b.nextChar = b.bufferLimit := Nat.le_antisymm hl hn
  have hrest : rest <+: b.charSource.flatten := by
    have hpre := h.rest_prefix
    rwa [hnext, slice_self] at hpre
  obtain ⟨hr, hroom⟩ := h.sound.makeRoom
  have hstart : b.textStart + start ≤ b.nextChar := by
    rw [h.nextChar_eq]
    exact Nat.add_le_add_left h.start_le _
  obtain ⟨hkn, hkp, hkv⟩ := h.sound.makeRoom_kept hn h.value_eq hstart
  have hrt := hr.text_le
  obtain ⟨f1, f2, f3, f4, _, f6, f7⟩ := fill_spec b.makeRoom
  have hpast : b.getMoreChars.2.slice b.getMoreChars.2.textStart b.getMoreChars.2.nextChar
      = past := by
    rw [← h.past_eq, ← hkp, Buffer.getMoreChars, f1, f3]
    refine slice_congr rfl fun m hm => ?_
    exact fill_buffer _ (by omega)
  have hvalue : b.getMoreChars.2.tvalueStart = b.getMoreChars.2.textStart + start := by
    rw [Buffer.getMoreChars, f1, f2, hkv]
  -- the units that come in are those that the source had next
  have hin : rest <+: b.getMoreChars.2.slice b.getMoreChars.2.nextChar b.getMoreChars.2.bufferLimit
      ++ b.getMoreChars.2.charSource.flatten ∧ Buffer.Sound b.getMoreChars.2
      ∧ (b.getMoreChars.1 ≠ Code.ok → b.charSource = []) := by
    rcases h.sound.getMoreChars with ⟨heof, hnil⟩ | ⟨chunk, hok, hne, hflat, hslice, _, hsound⟩
    · have hfill := fill_of_nil ((makeRoom_source b).1.trans hnil)
      rw [hnil] at hrest
      rw [Buffer.getMoreChars, hfill]
      refine ⟨?_, ⟨hr.size_pos, hr.limit_le, hr.next_le, hr.text_le, by simp, fun _ => rfl⟩,
        fun _ => hnil⟩
      simpa [hkn] using hrest
    · refine ⟨?_, hsound, fun hno => absurd hok hno⟩
      have hfrom : b.getMoreChars.2.nextChar = b.makeRoom.bufferLimit := f3.trans hkn
      rw [hflat] at hrest
      rw [hfrom, hslice]
      exact prefix_delivered_append h.no_cr hrest
  have hdecoded : b.getMoreChars.2.Decoded := by
    intro i
    rw [Buffer.getMoreChars, fill_malformed, makeRoom_malformed]
    exact h.decoded i
  refine ⟨⟨hin.2.1, hvalue, h.start_le, hpast, hin.1, h.no_cr, hdecoded⟩, ?_, ?_⟩
  · intro hok
    have hmore := (f6 hok).2
    rw [Buffer.getMoreChars]
    omega
  · intro hno
    rw [hin.2.2 hno] at hrest
    exact List.prefix_nil.mp hrest

end Buffer

open Buffer

section Steps

variable {s : Scanner σ} {start : Nat} {past rest : List UChar} {c d : UChar}

theorem Buffer.Shows.nextUnit_eq (h : Shows s.toBuffer start past (c :: rest))
    (hlt : s.nextChar < s.bufferLimit) :
    s.nextUnit = c := (h.of_lt hlt).1.symm

theorem Buffer.Shows.prevUnit_eq (h : Shows s.toBuffer start (past ++ [c]) rest) :
    s.prevUnit = c := by
  have hnext := h.nextChar_eq
  have hbuf := h.buffer_eq
  rw [List.length_append, List.length_singleton] at hnext
  rw [Scanner.prevUnit, hnext]
  exact hbuf

theorem Buffer.Shows.advance (h : Shows s.toBuffer start past (c :: rest))
    (hlt : s.nextChar < s.bufferLimit) :
    Shows s.advance.toBuffer start (past ++ [c]) rest := by
  have hs := h.sound
  obtain ⟨hc, hrest⟩ := h.of_lt hlt
  refine ⟨⟨hs.size_pos, hs.limit_le, hlt, Nat.le_succ_of_le hs.text_le, hs.chunks, hs.eof⟩,
    h.value_eq, Nat.le_trans h.start_le (by simp), ?_, hrest,
    fun hmem => h.no_cr (List.mem_cons_of_mem _ hmem), h.decoded⟩
  rw [← h.past_eq, hc]
  exact slice_eq_concat hs.text_le

theorem Buffer.Shows.backUp (h : Shows s.toBuffer start (past ++ [c]) rest)
    (hstart : start ≤ past.length) (hc : c ≠ UChar.cr) :
    Shows s.backUp.toBuffer start past (c :: rest) := by
  have hs := h.sound
  have hnext := h.nextChar_eq
  have hprev := h.prevUnit_eq
  have hle := hs.next_le
  rw [List.length_append, List.length_singleton] at hnext
  have hback : s.backUp.nextChar = s.textStart + past.length := by
    show s.nextChar - 1 = _
    omega
  have hslice : s.slice s.textStart (s.textStart + past.length + 1) = past ++ [c] := by
    rw [Nat.add_assoc, ← hnext]
    exact h.past_eq
  rw [slice_eq_concat (by omega)] at hslice
  refine ⟨⟨hs.size_pos, hs.limit_le, ?_, ?_, hs.chunks, hs.eof⟩, h.value_eq, hstart, ?_, ?_, ?_,
    h.decoded⟩
  · show s.nextChar - 1 ≤ s.bufferLimit
    omega
  · show s.textStart ≤ s.nextChar - 1
    omega
  · show s.slice s.textStart s.backUp.nextChar = past
    rw [hback]
    exact (List.append_inj' hslice rfl).1
  · show c :: rest <+: s.slice s.backUp.nextChar s.bufferLimit ++ s.charSource.flatten
    have hrest := h.rest_prefix
    rw [hnext] at hrest
    rw [hback, slice_eq_cons (by omega), (List.cons.inj (List.append_inj' hslice rfl).2).1,
      List.cons_append, List.cons_prefix_cons]
    exact ⟨rfl, hrest⟩
  · simp only [List.mem_cons, not_or]
    exact ⟨hc.symm, h.no_cr⟩

/-- The unit before the next one is replaced. -/
theorem Buffer.Shows.replacePrev (h : Shows s.toBuffer start (past ++ [c]) rest) (d : UChar) :
    Shows (s.replacePrev d).toBuffer start (past ++ [d]) rest := by
  have hs := h.sound
  have hnext := h.nextChar_eq
  rw [List.length_append, List.length_singleton] at hnext
  have hslice : s.slice s.textStart (s.textStart + past.length + 1) = past ++ [c] := by
    rw [Nat.add_assoc, ← hnext]
    exact h.past_eq
  rw [slice_eq_concat (by omega)] at hslice
  refine ⟨⟨hs.size_pos, hs.limit_le, hs.next_le, hs.text_le, hs.chunks, hs.eof⟩, h.value_eq,
    by simpa using h.start_le, ?_, ?_, h.no_cr, h.decoded⟩
  · show (s.replacePrev d).slice s.textStart s.nextChar = past ++ [d]
    have hlast : (s.replacePrev d).buffer (s.textStart + past.length) = d := by
      simp [Scanner.replacePrev, write, hnext]
    rw [hnext, ← Nat.add_assoc, slice_eq_concat (by omega), hlast]
    refine congrArg (· ++ [d]) (Eq.trans (slice_congr rfl fun m hm =>
      ?_) (List.append_inj' hslice rfl).1)
    show write s.buffer (s.nextChar - 1) [d] _ = _
    rw [write, if_neg (by omega)]
  · have hslice : (s.replacePrev d).slice s.nextChar s.bufferLimit
        = s.slice s.nextChar s.bufferLimit := by
      refine slice_congr rfl fun m _ => ?_
      show write s.buffer (s.nextChar - 1) [d] (s.nextChar + m) = s.buffer (s.nextChar + m)
      have hout : s.nextChar + m - (s.nextChar - 1) = m + 1 := by omega
      simp [write, hout]
    show rest <+: (s.replacePrev d).slice s.nextChar s.bufferLimit ++ s.charSource.flatten
    rw [hslice]
    exact h.rest_prefix

/-- The next unit is replaced, if it is buffered. -/
theorem Buffer.Shows.replaceNext (h : Shows s.toBuffer start past (c :: rest))
    (hlt : s.nextChar < s.bufferLimit) (hd : d ≠ UChar.cr) :
    Shows (s.replaceNext d).toBuffer start past (d :: rest) := by
  have hs := h.sound
  have hrest := (h.of_lt hlt).2
  refine ⟨⟨hs.size_pos, hs.limit_le, hs.next_le, hs.text_le, hs.chunks, hs.eof⟩, h.value_eq,
    h.start_le, ?_, ?_, ?_, h.decoded⟩
  · rw [← h.past_eq]
    refine slice_congr rfl fun m hm => ?_
    show write s.buffer s.nextChar [d] (s.textStart + m) = s.buffer (s.textStart + m)
    have htext : (s.replaceNext d).textStart = s.textStart := rfl
    have hnext : (s.replaceNext d).nextChar = s.nextChar := rfl
    rw [write, if_neg (by omega)]
  · have hfirst : (s.replaceNext d).buffer s.nextChar = d := by
      simp [Scanner.replaceNext, write]
    have hslice : (s.replaceNext d).slice (s.nextChar + 1) s.bufferLimit
        = s.slice (s.nextChar + 1) s.bufferLimit := by
      refine slice_congr rfl fun m _ => ?_
      show write s.buffer s.nextChar [d] (s.nextChar + 1 + m) = s.buffer (s.nextChar + 1 + m)
      have hout : s.nextChar + 1 + m - s.nextChar = m + 1 := by omega
      simp [write, hout]
    show d :: rest <+: (s.replaceNext d).slice s.nextChar s.bufferLimit ++ s.charSource.flatten
    rw [slice_eq_cons hlt, hfirst, hslice, List.cons_append, List.cons_prefix_cons]
    exact ⟨rfl, hrest⟩
  · simp only [List.mem_cons, not_or] at h ⊢
    exact ⟨hd.symm, fun hmem => h.no_cr (List.mem_cons_of_mem _ hmem)⟩

end Steps

/-- What a parse stops with because an error callback answered it. -/
def Config.Answers (cfg : Config σ) (code : Int) : Prop :=
  code ≠ Code.ok ∧ ∃ report w, (cfg.error report w).1 = code

section Scans

variable {cfg : Config σ} {s : Scanner σ} {past rest : List UChar} {c : UChar}
  {E : Int → Scanner σ → Prop}

/-- A scan keeps what each unit and each read keep. -/
theorem ensures_scanUnits {body : τ → Parse σ (τ ⊕ ω)} {atEnd : τ → Parse σ ω}
    {I : τ → Scanner σ → Prop} {Q : ω → Scanner σ → Prop} {t : τ}
    (hbody : ∀ t s, I t s → s.nextChar < s.bufferLimit →
      Ensures (body t) s (Round (fun t' s' => I t' s' ∧ s'.bufferLimit = s.bufferLimit) Q) E)
    (hmore : ∀ t s, I t s → s.bufferLimit ≤ s.nextChar →
      Ensures (getMoreChars cfg) s (fun more s' => if more then I t s' else
        Ensures (atEnd t) s' Q E) E)
    (h : I t s) : Ensures (scanUnits cfg body atEnd t) s Q E := by
  refine Ensures.loop (I := I) ?_ h
  intro t s hs
  rw [Ensures, post_bind, post_read, post_bind]
  have hbuffered : Ensures (scanBuffered body s.bufferLimit t) s
      (Round (fun t' s' => I t' s' ∧ s'.bufferLimit ≤ s'.nextChar) Q) E := by
    refine Ensures.loop (I := fun t' s' => I t' s' ∧ s'.bufferLimit = s.bufferLimit) ?_ ⟨hs, rfl⟩
    rintro t' s' ⟨hs', hlimit⟩
    rw [Ensures, post_bind, post_read]
    split
    · rename_i hlt
      rw [post_bind]
      refine (hbody t' s' hs' (by omega)).imp ?_ (fun _ _ he => he)
      rintro (t'' | w) s'' hr
      · exact ⟨hr.1, hr.2.trans hlimit⟩
      · exact hr
    · have hnext : s'.bufferLimit ≤ s'.nextChar := by omega
      exact ⟨hs', hnext⟩
  refine hbuffered.imp ?_ (fun _ _ he => he)
  rintro (t' | w) s' hr
  · rw [post_bind]
    refine (hmore t' s' hr.1 hr.2).imp ?_ (fun _ _ he => he)
    rintro more s'' hm
    cases more with
    | true => exact hm
    | false => exact post_bind.mpr hm
  · exact hr

theorem post_getMoreChars {cut : Prop} {start : Nat} (h : Shows s.toBuffer start past rest)
    (hn : s.bufferLimit ≤ s.nextChar) {Q : Bool → Scanner σ → Prop}
    (hQ : ∀ more b, Shows b start past rest → (more = true → b.nextChar < b.bufferLimit) →
      (more = false → rest = []) →
      Q more { s with toBuffer := b }) : Post cut (getMoreChars cfg) s Q E := by
  obtain ⟨hshows, hok, hend⟩ := h.more hn
  rw [post_getMoreChars_of_decoded h.decoded]
  exact hQ _ _ hshows (fun hmore => hok (of_decide_eq_true hmore)) fun hmore =>
    hend (of_decide_eq_false hmore)

theorem ensures_report {code : Int} {line column : Nat} {text : List UChar} :
    Ensures (report cfg code line column text) s (fun _ t => SameText s t) fun e _ =>
      cfg.Answers e := by
  rw [Ensures, post_report, post_errorCallback]
  exact ⟨fun _ => rfl, fun hreply => ⟨hreply, _, _, rfl⟩⟩

theorem ensures_when_report {p : Prop} [Decidable p] {code : Int} {line column : Nat}
    {text : List UChar} :
    Ensures (when p (report cfg code line column text)) s (fun _ t => SameText s t) fun e _ =>
      cfg.Answers e :=
  post_when.mpr ⟨fun _ => ensures_report, fun _ => rfl⟩

theorem replChar_ne_cr (v : Int) : replChar v ≠ UChar.cr := by
  unfold replChar
  split <;> decide

/-- A token whose units may have been replaced as they were scanned: as many of them, and still no
carriage return. -/
structure Buffer.Covers (b : Buffer) (past rest : List UChar) (past' : List UChar) : Prop where
  shows : Shows b 0 past' rest
  length_eq : past'.length = past.length
  no_cr : UChar.cr ∉ past → UChar.cr ∉ past'

theorem ensures_handleUnpairedLead {lead : Bool} (h : Shows s.toBuffer 0 past rest)
    (hpast : past ≠ []) :
    Ensures (handleUnpairedLead cfg lead) s (fun _ t => (∃ past', Covers t.toBuffer past rest past')
      ∧ t.nextChar = s.nextChar ∧ t.bufferLimit = s.bufferLimit) fun e _ => cfg.Answers e := by
  rw [Ensures, handleUnpairedLead, post_when]
  refine ⟨fun _ => ?_, fun _ => ⟨⟨past, h, rfl, id⟩, rfl, rfl⟩⟩
  rw [post_bind, post_read, post_bind]
  refine ensures_report.imp (fun _ t ht => ?_) (fun _ _ he => he)
  obtain ⟨before, last, rfl⟩ := List.eq_nil_or_concat past |>.resolve_left hpast
  rw [List.concat_eq_append] at *
  have hb : t.toBuffer = s.toBuffer := ht.toBuffer
  have hnext : t.nextChar = s.nextChar := congrArg Buffer.nextChar hb
  have hlimit : t.bufferLimit = s.bufferLimit := congrArg Buffer.bufferLimit hb
  rw [post_modify]
  refine ⟨⟨before ++ [replChar cfg.cifVersion], (hb ▸ h : Shows t.toBuffer 0 _ _).replacePrev _,
    by simp, ?_⟩, hnext, hlimit⟩
  have hne := replChar_ne_cr cfg.cifVersion
  simp only [List.mem_append, List.mem_singleton, not_or]
  exact fun hno => ⟨hno.1, hne.symm⟩

/-- Scanning a unit passes it, or what is put in the place of an unpaired surrogate. -/
theorem ensures_scanUChar {lead : Bool} (h : Shows s.toBuffer 0 past (c :: rest))
    (hlt : s.nextChar < s.bufferLimit) (hpast : past ≠ []) :
    Ensures (scanUChar cfg lead) s (fun r t =>
      (∃ past', Covers t.toBuffer (past ++ [r.1]) rest past')
      ∧ (r.1 = c ∨ isTrail c = true ∧ r.1 = replChar cfg.cifVersion)
      ∧ t.bufferLimit = s.bufferLimit)
      fun e _ => cfg.Answers e := by
  have hc := h.nextUnit_eq hlt
  have hstart : Shows (s.incColumn 1).toBuffer 0 past (c :: rest) := h
  rw [Ensures, scanUChar, post_bind, post_modify, post_bind, post_read]
  have hunit : (s.incColumn 1).nextUnit = c := hc
  rw [hunit]
  dsimp only
  split
  · split
    · rw [post_bind]
      refine ensures_when_report.imp (fun _ t ht => ?_) (fun _ _ he => he)
      have hb : t.toBuffer = s.toBuffer := ht.toBuffer
      have hlimit : t.bufferLimit = s.bufferLimit := congrArg Buffer.bufferLimit hb
      rw [post_bind, post_modify]
      have hshows : Shows (t.incColumn (-1)).toBuffer 0 past (c :: rest) := hb ▸ h
      have hlt' : (t.incColumn (-1)).nextChar < (t.incColumn (-1)).bufferLimit := by
        show t.nextChar < t.bufferLimit
        rw [hb]
        exact hlt
      exact ⟨⟨_, hshows.advance hlt', rfl, id⟩, .inl rfl, hlimit⟩
    · rename_i htrail _
      rw [post_bind]
      refine ensures_report.imp (fun _ t ht => ?_) (fun _ _ he => he)
      have hb : t.toBuffer = s.toBuffer := ht.toBuffer
      have hlimit : t.bufferLimit = s.bufferLimit := congrArg Buffer.bufferLimit hb
      rw [post_bind, post_modify]
      have hlt' : t.nextChar < t.bufferLimit := by
        rw [hb]
        exact hlt
      have hshows :=
        (hb ▸ h : Shows t.toBuffer 0 past (c :: rest)).replaceNext hlt'
        (replChar_ne_cr cfg.cifVersion)
      exact ⟨⟨_, hshows.advance hlt', rfl, id⟩, .inr ⟨htrail, rfl⟩, hlimit⟩
  · rw [post_bind, checkUnit, post_bind, post_read, post_bind]
    refine ensures_when_report.imp (fun _ t ht => ?_) (fun _ _ he => he)
    refine ensures_when_report.imp (fun _ t' ht' => ?_) (fun _ _ he => he)
    have hb : t'.toBuffer = s.toBuffer := ht'.toBuffer.trans ht.toBuffer
    rw [post_bind]
    refine (ensures_handleUnpairedLead (hb ▸ h : Shows t'.toBuffer 0 past (c :: rest)) hpast).imp
      (fun _ u hu => ?_) (fun _ _ he => he)
    obtain ⟨⟨past', hcovers⟩, hnext, hlimit⟩ := hu
    rw [post_bind, post_modify]
    have hlt' : u.nextChar < u.bufferLimit := by
      rw [hnext, hlimit, hb]
      exact hlt
    refine ⟨⟨past' ++ [c], hcovers.shows.advance hlt', ?_, ?_⟩, .inl rfl, ?_⟩
    · simp [hcovers.length_eq]
    · simp only [List.mem_append, not_or]
      exact fun hno => ⟨hcovers.no_cr hno.1, hno.2⟩
    · exact hlimit.trans (congrArg Buffer.bufferLimit hb)

theorem ensures_handleEol {sol : Nat} : Ensures (handleEol cfg c sol) s
    (fun sol' t => t.toBuffer = s.toBuffer ∧ (c = UChar.nl → sol' % 4 = 1)) fun e _ =>
      cfg.Answers e := by
  rw [Ensures, handleEol, post_bind, post_read, post_bind]
  refine ensures_when_report.imp (fun _ t ht => ?_) (fun _ _ he => he)
  rw [post_bind, post_modify]
  refine ⟨ht.toBuffer, fun hc => ?_⟩
  rw [if_pos hc]
  omega

end Scans

end CifApi
