import CifApi.Parser.EncodedText
import CifApi.Writer.Statistics
import CifApi.Writer.TextBlock

/-! The lines of text blocks as the writers cut them, and how they are decoded. -/
namespace CifApi

variable {σ : Type}

/-- A logical line, and the lines that it is written in. -/
structure Writes (fold : Bool) (line : UStr) (c : CutLine UChar) : Prop where
  text : c.text = line
  blanks : ∀ piece ∈ c.pieces, piece.2 = []
  unfolded : fold = false → c.pieces = []
  /-- The last of them does not look as if it were cut. -/
  uncut : fold = true → ∀ before blanks, c.rest = before ++ UChar.bsl :: blanks →
    ∃ d ∈ blanks, ¬ (d = UChar.tab ∨ d = UChar.sp)

/-- The lines that are written for some logical lines, each after a line feed, and but for bare ones
with the prefix. -/
def printed (bare : UStr → Bool) (forPrefix : Bool) (lines : List (CutLine UChar)) : UStr :=
  (lines.flatMap (CutLine.written UChar.bsl)).flatMap fun line =>
    UChar.nl :: if bare line then line else prefixText forPrefix ++ line

section Lines

variable {fold forPrefix : Bool}

/-- The segments that a line is written in. -/
structure Segments (fold forPrefix : Bool) (line : UStr) (segments : List UStr) (last : UStr) :
    Prop where
  line_eq : segments.flatten ++ last = line
  segments_ne_nil : ∀ s ∈ segments, s ≠ []
  last_ne_nil : last ≠ []
  unfolded : fold = false → segments = []
  /-- Without a prefix, no segment but the first begins with a semicolon. -/
  heads : forPrefix = false → ∀ s ∈ (segments ++ [last]).tail, s.head? ≠ some UChar.semi

theorem Segments.whole {tok : UStr} (h : tok ≠ []) : Segments fold forPrefix tok [] tok where
  line_eq := rfl
  segments_ne_nil := by simp
  last_ne_nil := h
  unfolded := fun _ => rfl
  heads := by simp

theorem Segments.cons {tok last : UStr} {segments : List UStr} {len : Nat}
    (h : Segments true forPrefix (tok.drop len) segments last) (hpos : 0 < len)
    (hsemi : forPrefix = false → tok[len]? ≠ some UChar.semi) :
    Segments true forPrefix tok (tok.take len :: segments) last where
  line_eq := by rw [List.flatten_cons, List.append_assoc, h.line_eq, List.take_append_drop]
  segments_ne_nil := by
    have htok : tok ≠ [] := by
      rintro rfl
      exact h.last_ne_nil (List.append_eq_nil_iff.mp (h.line_eq.trans List.drop_nil)).2
    have htake : tok.take len ≠ [] := by simp [htok]; omega
    exact List.forall_mem_cons.mpr ⟨htake, h.segments_ne_nil⟩
  last_ne_nil := h.last_ne_nil
  unfolded := by simp
  heads := by
    rintro rfl s hs
    rw [List.cons_append, List.tail_cons] at hs
    have hhead : (tok.drop len).head? ≠ some UChar.semi := by
      rw [List.head?_drop]
      exact hsemi rfl
    cases segments with
    | nil =>
      obtain rfl := List.mem_singleton.mp hs
      rwa [← h.line_eq] at hhead
    | cons segment segments =>
      rcases List.mem_cons.mp hs with rfl | hs
      · rw [← h.line_eq] at hhead
        cases s with
        | nil => simp
        | cons c s => simpa using hhead
      · exact h.heads rfl s hs

theorem printed_ofSegments {line last : UStr} {segments : List UStr} {protect : Bool}
    (h : Segments fold forPrefix line segments last) :
    printed List.isEmpty forPrefix [.ofSegments protect segments last]
      = segments.flatMap (fun s => UChar.nl :: (prefixText forPrefix ++ s ++ [UChar.bsl]))
        ++ UChar.nl :: (prefixText forPrefix ++ last
          ++ if protect then [UChar.bsl, UChar.nl] else []) := by
  have hlast := h.last_ne_nil
  unfold printed
  rw [List.flatMap_cons, List.flatMap_nil, List.append_nil, CutLine.written_ofSegments]
  cases protect with
  | true => simp [List.flatMap_map]
  | false => simp [List.flatMap_map, hlast]

/-- Without a prefix, a line begins with a semicolon in the block just where it does in the text. -/
theorem Segments.head_written {line last : UStr} {segments : List UStr}
    (h : Segments fold false line segments last) (protect : Bool) :
    (∃ l ∈ (CutLine.ofSegments protect segments last).written UChar.bsl, l.head? = some UChar.semi)
      ↔ line.head? = some UChar.semi := by
  have hne : UChar.bsl ≠ UChar.semi := by decide
  have hmark : ∀ s : UStr, s.head?.getD UChar.bsl = UChar.semi ↔ s.head? = some UChar.semi := by
    intro s
    cases s <;> simp [hne]
  have hpieces : (∃ l ∈ (CutLine.ofSegments protect segments last).written UChar.bsl,
      l.head? = some UChar.semi)
      ↔ ∃ s ∈ segments ++ [last], s.head? = some UChar.semi := by
    rw [CutLine.written_ofSegments]
    cases protect <;> simp [hmark, or_and_right, exists_or]
  have hheads := h.heads rfl
  rw [hpieces, ← h.line_eq]
  cases segments with
  | nil => simp
  | cons s segments =>
    obtain ⟨c, s, rfl⟩ := List.exists_cons_of_ne_nil (h.segments_ne_nil s (List.mem_cons_self ..))
    rw [List.cons_append, List.tail_cons] at hheads
    constructor
    · rintro ⟨l, hl, hsemi⟩
      rcases List.mem_cons.mp hl with rfl | hl
      · simpa using hsemi
      · exact absurd hsemi (hheads l hl)
    · exact fun hsemi => ⟨c :: s, List.mem_cons_self .., by simpa using hsemi⟩

/-- The logical lines that anything is written for: not an empty last one. -/
def visibleLines (lines : List UStr) : List UStr :=
  if lines.getLast? = some [] then lines.dropLast else lines

theorem visibleLines_cons (line next : UStr) (lines : List UStr) :
    visibleLines (line :: next :: lines) = line :: visibleLines (next :: lines) := by
  unfold visibleLines
  rw [List.getLast?_cons_cons]
  split <;> simp

theorem mem_of_mem_visibleLines {lines : List UStr} {line : UStr} (h : line ∈ visibleLines lines) :
    line ∈ lines := by
  unfold visibleLines at h
  split at h
  · exact List.mem_of_mem_dropLast h
  · exact h

theorem unit_of_mem_visibleLines {text line : UStr} {c : UChar} (hcr : UChar.cr ∉ text)
    (hzero : 0 ∉ text) (hline : line ∈ visibleLines (text.splitOn UChar.nl)) (hc : c ∈ line) :
    c ≠ UChar.nl ∧ c ≠ UChar.cr ∧ c ≠ 0 := by
  have hmem := Marks.mem_of_mem_splitOn (mem_of_mem_visibleLines hline) hc
  refine ⟨?_, ?_, ?_⟩
  · rintro rfl
    exact Marks.notMem_of_mem_splitOn (mem_of_mem_visibleLines hline) hc
  · rintro rfl
    exact hcr hmem
  · rintro rfl
    exact hzero hmem

theorem visibleLines_ne_nil {text : UStr} (h : text ≠ []) :
    visibleLines (text.splitOn UChar.nl) ≠ [] := by
  unfold visibleLines
  split
  · rename_i hlast
    intro hnil
    obtain ⟨line, lines, hsplit⟩ := List.exists_cons_of_ne_nil (List.splitOn_ne_nil UChar.nl text)
    rw [hsplit] at hlast hnil
    cases lines with
    | nil =>
      obtain rfl : line = [] := by simpa using hlast
      exact h (by rw [← @List.intercalate_splitOn _ text _ _ UChar.nl, hsplit]; rfl)
    | cons next lines => simp at hnil
  · exact List.splitOn_ne_nil _ _

theorem visibleLines_append (t : UStr) :
    visibleLines ((t ++ [UChar.nl]).splitOn UChar.nl) = t.splitOn UChar.nl := by
  rw [List.splitOn_append_cons_self, visibleLines, List.splitOn_nil, List.getLast?_concat,
    if_pos rfl, List.dropLast_concat]

end Lines

section Encode

variable {cfg : Config σ} {fold forPrefix : Bool} {bare : UStr → Bool}

theorem printed_cons (c : CutLine UChar) (cs : List (CutLine UChar)) :
    printed bare forPrefix (c :: cs) = printed bare forPrefix [c] ++ printed bare forPrefix cs := by
  simp [printed]

theorem Writes.cut_eq_none (h : cfg.Standard) {line : UStr} {c : CutLine UChar}
    (hc : Writes true line c) :
    cfg.marks.cut c.rest = none := by
  cases hcut : cfg.marks.cut c.rest with
  | none => rfl
  | some part =>
    obtain ⟨blanks, heq, hblanks⟩ := Marks.eq_of_cut hcut
    obtain ⟨d, hd, hnot⟩ := hc.uncut rfl part blanks heq
    exact absurd (h.blank_iff.mp (List.all_eq_true.mp hblanks d hd)) hnot

theorem exists_of_forall₂ {α β : Type} {r : α → β → Prop} {as : List α} {bs : List β}
    (h : List.Forall₂ r as bs) {b : β} (hb : b ∈ bs) : ∃ a ∈ as, r a b := by
  induction h with
  | nil => simp at hb
  | cons hab _ ih =>
    rcases List.mem_cons.mp hb with rfl | hb
    · exact ⟨_, List.mem_cons_self .., hab⟩
    · obtain ⟨a, ha, hr⟩ := ih hb
      exact ⟨a, List.mem_cons_of_mem _ ha, hr⟩

/-- Written lines as lines of the protocols. -/
def encodingOf (h : cfg.Standard) (hused : fold = true ∨ forPrefix = true) {lines : List UStr}
    {cs : List (CutLine UChar)} (hcs : List.Forall₂ (Writes fold) lines cs) (hne : lines ≠ [])
    (hlines : ∀ line ∈ lines, UChar.nl ∉ line) (hbare : ∀ line, bare line = true → line = []) :
    Encoding cfg.marks where
  linePrefix := prefixText forPrefix
  folded := fold
  blanks := []
  lines := cs
  bare := bare
  used := by
    rcases hused with hfold | hpre
    · exact .inr hfold
    · exact .inl (by simp [prefixText, hpre, units])
  linePrefix_mark := show UChar.bsl ∉ prefixText forPrefix by cases forPrefix <;> decide
  linePrefix_newline := show UChar.nl ∉ prefixText forPrefix by cases forPrefix <;> decide
  linePrefix_delimiter := show (prefixText forPrefix).head? ≠ some UChar.semi by cases forPrefix
    <;> decide
  blanks_blank := rfl
  lines_ne_nil := by
    rintro rfl
    cases hcs
    exact hne rfl
  pieces_newline := by
    intro c hc piece hpiece hmem
    obtain ⟨line, hline, hwritten⟩ := exists_of_forall₂ hcs hc
    refine hlines line hline (hwritten.text ▸ List.mem_append_left _ ?_)
    exact List.mem_flatten.mpr ⟨piece.1, List.mem_map_of_mem hpiece, hmem⟩
  pieces_blank := by
    intro c hc piece hpiece
    obtain ⟨line, hline, hwritten⟩ := exists_of_forall₂ hcs hc
    rw [hwritten.blanks piece hpiece]
    rfl
  rest_newline := by
    intro c hc hmem
    obtain ⟨line, hline, hwritten⟩ := exists_of_forall₂ hcs hc
    exact hlines line hline (hwritten.text ▸ List.mem_append_right _ hmem)
  unfolded := by
    rintro rfl c hc
    obtain ⟨line, hline, hwritten⟩ := exists_of_forall₂ hcs hc
    exact hwritten.unfolded rfl
  uncut := by
    rintro rfl c hc
    obtain ⟨line, hline, hwritten⟩ := exists_of_forall₂ hcs (List.mem_of_mem_dropLast hc)
    exact hwritten.cut_eq_none h
  bare_unlike := by
    intro line hline
    obtain rfl := hbare line hline
    simp [Marks.dropPrefix]

theorem content_encodingOf (h : cfg.Standard) (hused : fold = true ∨ forPrefix = true)
    {lines : List UStr} {cs : List (CutLine UChar)} (hcs : List.Forall₂ (Writes fold) lines cs)
    (hne : lines ≠ []) (hlines : ∀ line ∈ lines, UChar.nl ∉ line)
    (hbare : ∀ line, bare line = true → line = []) :
    (encodingOf h hused hcs hne hlines hbare).content
      = (if forPrefix then units "> \\" else []) ++ (if fold then units "\\" else [])
        ++ printed bare forPrefix cs := by
  have hheader : (encodingOf h hused hcs hne hlines hbare).header
      = (if forPrefix then units "> \\" else []) ++ if fold then units "\\" else [] := by
    have hmark : cfg.marks.mark = UChar.bsl := rfl
    cases forPrefix with
    | true => cases fold <;> simp [Encoding.header, encodingOf, prefixText, units, hmark]
    | false =>
      obtain rfl : fold = true := hused.resolve_right (by simp)
      simp [Encoding.header, encodingOf, prefixText, units, hmark]
  rw [Encoding.content, Encoding.writtenLines, Marks.intercalate_cons, hheader, List.flatMap_map]
  rfl

/-- The lines of what is written, after the first one. -/
theorem splitOn_printed (h : cfg.Standard) (hused : fold = true ∨ forPrefix = true)
    {lines : List UStr} {cs : List (CutLine UChar)} (hcs : List.Forall₂ (Writes fold) lines cs)
    (hne : lines ≠ []) (hlines : ∀ line ∈ lines, UChar.nl ∉ line)
    (hbare : ∀ line, bare line = true → line = []) :
    (((if forPrefix then units "> \\" else []) ++ (if fold then units "\\" else [])
        ++ printed bare forPrefix cs).splitOn UChar.nl).tail
      = (cs.flatMap (CutLine.written UChar.bsl)).map
        fun line => if bare line then line else prefixText forPrefix ++ line := by
  have hsplit := (encodingOf h hused hcs hne hlines hbare).splitOn_content
  rw [content_encodingOf] at hsplit
  exact congrArg List.tail hsplit

theorem text_encodingOf (h : cfg.Standard) (hused : fold = true ∨ forPrefix = true)
    {lines : List UStr} {cs : List (CutLine UChar)} (hcs : List.Forall₂ (Writes fold) lines cs)
    (hne : lines ≠ []) (hlines : ∀ line ∈ lines, UChar.nl ∉ line)
    (hbare : ∀ line, bare line = true → line = []) :
    (encodingOf h hused hcs hne hlines hbare).text = [UChar.nl].intercalate lines := by
  have htexts : cs.map CutLine.text = lines := by
    clear hne hlines
    induction hcs with
    | nil => rfl
    | cons hc _ ih => rw [List.map_cons, hc.text, ih]
  rw [Encoding.text]
  exact congrArg _ htexts

/-- What is written of lines is decoded to them. -/
theorem decodeText_printed (h : cfg.Standard) (hu : 0 < cfg.lineUnfolding)
    (hp : 0 < cfg.prefixRemoving) (hused : fold = true ∨ forPrefix = true) {lines : List UStr}
    {cs : List (CutLine UChar)} (hcs : List.Forall₂ (Writes fold) lines cs) (hne : lines ≠ [])
    (hbare : ∀ line, bare line = true → line = [])
    (hlines : ∀ line ∈ lines, ∀ c ∈ line, c ≠ UChar.nl ∧ c ≠ UChar.cr ∧ c ≠ 0) :
    decodeText cfg ((if forPrefix then units "> \\" else []) ++ (if fold then units "\\" else [])
      ++ printed bare forPrefix cs) = [UChar.nl].intercalate lines := by
  have hnl : ∀ line ∈ lines, UChar.nl ∉ line :=
    fun line hline hmem => (hlines line hline _ hmem).1 rfl
  rw [← content_encodingOf h hused hcs hne hnl hbare, ← text_encodingOf h hused hcs hne hnl hbare]
  refine decodeText_content h.tabled hu hp _ ?_ ?_
  · intro c hc
    unfold Inline
    rw [ne_eq, h.classOf_eol_iff]
    have hpre : ∀ c ∈ prefixText forPrefix, ¬ (c = UChar.nl ∨ c = UChar.cr) ∧ c ≠ 0 := by
      cases forPrefix <;> decide
    exact hpre c hc
  · intro cutLine hcutLine c hc
    obtain ⟨line, hline, hwritten⟩ := exists_of_forall₂ hcs hcutLine
    rw [hwritten.text] at hc
    obtain ⟨hnotNl, hnotCr, hnotZero⟩ := hlines line hline c hc
    unfold Inline
    rw [ne_eq, h.classOf_eol_iff, not_or]
    exact ⟨⟨hnotNl, hnotCr⟩, hnotZero⟩

theorem copyText_of_no_cr (h : cfg.Standard) {text : UStr} (hcr : UChar.cr ∉ text) :
    copyText cfg false text = text := by
  refine copyText_of_inline h.tabled fun c hc => ?_
  rw [ne_eq, h.classOf_eol_iff, not_or]
  by_cases hnl : c = UChar.nl
  · exact .inl hnl
  · exact .inr ⟨hnl, fun heq => hcr (heq ▸ hc)⟩

/-- Nothing misleads where both protocols are on and there are no extra characters. -/
theorem not_misleads (h : cfg.Standard) (hu : 0 < cfg.lineUnfolding) (hp : 0 < cfg.prefixRemoving)
    (text : UStr) :
    ¬ Misleads cfg text := by
  intro hmisleads
  cases hmisleads with
  | lone _ hu' => exact hu' hu
  | folded _ _ _ hp' => exact hp' hp
  | prefixed _ _ _ _ hu' => exact hu' hu
  | terminator _ _ c hc hnl hcr =>
    obtain ⟨rest, hrest⟩ := List.head?_eq_some_iff.mp hc
    rcases h.classOf_eol_iff.mp (afterOpening_eq_cons hrest).2 with heq | heq
    · exact hnl heq
    · exact hcr heq
  | backslash hclass _ => exact absurd (h.classOf_eol_iff.mp hclass) (by decide)

theorem stringLines_of_no_cr {text : UStr} (hcr : UChar.cr ∉ text) :
    stringLines text = text.splitOn UChar.nl := by
  have hnorm : normalizeTerminators text = text := by
    induction text with
    | nil => rfl
    | cons c rest ih =>
      have hc : c ≠ UChar.cr := fun heq => hcr (heq ▸ List.mem_cons_self ..)
      have hrest := ih fun hmem => hcr (List.mem_cons_of_mem _ hmem)
      unfold normalizeTerminators at hrest ⊢
      simp [normalizeFrom, lfOf, hc, hrest]
  rw [stringLines, hnorm]

theorem firstIsCrlf_of_no_cr {text : UStr} (hcr : UChar.cr ∉ text) : firstIsCrlf text = false := by
  induction text with
  | nil => rfl
  | cons c rest ih =>
    have hc : c ≠ UChar.cr := fun heq => hcr (heq ▸ List.mem_cons_self ..)
    have hrest := ih fun hmem => hcr (List.mem_cons_of_mem _ hmem)
    simp [firstIsCrlf, hc, hrest]

/-- A text block whose start is not reserved is decoded as it is. -/
theorem decodeText_of_unreserved (h : cfg.Standard) (hu : 0 < cfg.lineUnfolding)
    (hp : 0 < cfg.prefixRemoving) {text : UStr} (hcr : UChar.cr ∉ text) (hzero : 0 ∉ text)
    (hstart : ∀ before blanks, (text.splitOn UChar.nl).head?
      = some (before ++ UChar.bsl :: blanks) →
      (∀ c ∈ blanks, c = UChar.tab ∨ c = UChar.sp) →
        (before ++ UChar.bsl :: blanks).head? = some UChar.semi) :
    decodeText cfg text = text := by
  by_cases hsemi : text.head? = some UChar.semi
  · rw [decodeText, if_pos (by simp [hsemi]), copyText_of_no_cr h hcr, cstr_of_zero_notMem hzero]
  · rw [decodeText_eq_of_not_misleads h.tabled hzero hsemi (.inl hu) (not_misleads h hu hp text),
      copyText_of_no_cr h hcr]
    refine Marks.decode_of_treatment_none fun line lines hlines => ?_
    have hnl : cfg.marks.newline = UChar.nl := rfl
    have hmark : cfg.marks.mark = UChar.bsl := rfl
    rw [hnl] at hlines
    cases hsig : cfg.marks.signature line with
    | none => rfl
    | some said =>
      obtain ⟨linePrefix, two⟩ := said
      obtain ⟨_, blanks, hblanks, hline⟩ := Marks.eq_of_signature hsig
      have hws : ∀ c ∈ blanks, c = UChar.tab ∨ c = UChar.sp := fun c hc =>
        h.blank_iff.mp (List.all_eq_true.mp hblanks c hc)
      have hhead : line.head? = some UChar.semi := by
        cases two with
        | false =>
          rw [hline]
          exact hstart linePrefix blanks (by rw [hlines, hline]; rfl) hws
        | true =>
          have hstart' :=
            hstart (linePrefix ++ [UChar.bsl]) blanks (by rw [hlines, hline]; simp [hmark]) hws
          rw [hline]
          simpa [hmark] using hstart'
      obtain ⟨rest, rfl⟩ := Marks.head_of_splitOn hlines
      cases line with
      | nil => simp at hhead
      | cons c line => simp_all

end Encode

end CifApi
