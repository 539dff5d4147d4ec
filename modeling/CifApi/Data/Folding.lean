import Mathlib.Data.List.TakeWhile
import Mathlib.Tactic.Common

/-! The line-folding and prefix protocols: texts whose lines are cut by a mark and begin with a
prefix. -/

universe u

/-- The characters that the protocols give a meaning to. -/
structure Marks (α : Type u) where
  newline : α
  /-- The mark that cuts a line and ends a prefix. -/
  mark : α
  /-- What a prefix must not begin with. -/
  delimiter : α
  blank : α → Bool
  blank_mark : blank mark = false
  blank_newline : blank newline = false
  mark_ne_newline : mark ≠ newline

namespace Marks

variable {α : Type u} (m : Marks α)

/-- Lines joined by terminators, except after those that can be cut, which lose the mark. -/
def joinLines (cut : List α → Option (List α)) : List (List α) → List α
  | [] => []
  | [line] => line
  | line :: next :: lines =>
    match cut line with
    | some part => part ++ joinLines cut (next :: lines)
    | none => line ++ m.newline :: joinLines cut (next :: lines)

section Join

variable {m} {cut : List α → Option (List α)}

theorem joinLines_cons_of_none {line : List α} {lines : List (List α)} (hne : lines ≠ [])
    (h : cut line = none) : m.joinLines cut (line :: lines)
      = line ++ m.newline :: m.joinLines cut lines := by
  cases lines with
  | nil => exact absurd rfl hne
  | cons next lines => simp [joinLines, h]

theorem joinLines_cons_of_some {line part : List α} {lines : List (List α)} (hne : lines ≠ [])
    (h : cut line = some part) : m.joinLines cut (line :: lines)
      = part ++ m.joinLines cut lines := by
  cases lines with
  | nil => exact absurd rfl hne
  | cons next lines => simp [joinLines, h]

/-- Lines that are never cut are joined by terminators. -/
theorem joinLines_eq_intercalate (lines : List (List α)) :
    m.joinLines (fun _ => none) lines = [m.newline].intercalate lines := by
  induction lines with
  | nil => rfl
  | cons line lines ih =>
    cases lines with
    | nil => simp [joinLines]
    | cons next lines =>
      rw [joinLines_cons_of_none (by simp) rfl, ih]
      simp [List.intercalate]

end Join

theorem intercalate_cons (sep : α) (line : List α) (lines : List (List α)) :
    [sep].intercalate (line :: lines) = line ++ lines.flatMap (sep :: ·) := by
  induction lines generalizing line with
  | nil => simp
  | cons next lines ih =>
    rw [List.intercalate_cons_cons, ih]
    simp

theorem mem_intercalate {sep c : α} {lines : List (List α)} (h : c ∈ [sep].intercalate lines) :
    c = sep ∨ ∃ line ∈ lines, c ∈ line := by
  induction lines with
  | nil => simp at h
  | cons line lines ih =>
    cases lines with
    | nil => exact .inr ⟨line, by simp, by simpa using h⟩
    | cons next lines =>
      rw [List.intercalate_cons_cons] at h
      simp only [List.mem_append, List.mem_singleton] at h
      rcases h with (hline | hsep) | hrest
      · exact .inr ⟨line, by simp, hline⟩
      · exact .inl hsep
      · exact (ih hrest).imp_right fun ⟨l, hl, hc⟩ => ⟨l, List.mem_cons_of_mem _ hl, hc⟩

theorem mark_notMem_of_blank {m : Marks α} {blanks : List α} (h : blanks.all m.blank = true) :
    m.mark ∉ blanks := by
  intro hmem
  have hblank := List.all_eq_true.mp h _ hmem
  simp [m.blank_mark] at hblank

theorem newline_notMem_blanks {m : Marks α} {blanks : List α} (h : blanks.all m.blank = true) :
    m.newline ∉ blanks := by
  intro hmem
  have hblank := List.all_eq_true.mp h _ hmem
  simp [m.blank_newline] at hblank

section Lines

variable [DecidableEq α] {sep : α}

/-- The lines of a text do not contain its terminator. -/
theorem notMem_of_mem_splitOn {text line : List α} (h : line ∈ text.splitOn sep) : sep ∉ line := by
  induction text generalizing line with
  | nil =>
    obtain rfl := List.mem_singleton.mp h
    exact List.not_mem_nil
  | cons c rest ih =>
    rw [List.splitOn_cons_eq_if_modifyHead] at h
    split at h
    · rcases List.mem_cons.mp h with rfl | h
      · exact List.not_mem_nil
      · exact ih h
    · rename_i hc
      obtain ⟨first, lines, hsplit⟩ := List.exists_cons_of_ne_nil (List.splitOn_ne_nil sep rest)
      rw [hsplit] at h ih
      rcases List.mem_cons.mp h with rfl | h
      · intro hmem
        rcases List.mem_cons.mp hmem with rfl | hmem
        · simp at hc
        · exact ih (List.mem_cons_self ..) hmem
      · exact ih (List.mem_cons_of_mem _ h)

/-- A text is its lines, each of them but the first after a terminator. -/
theorem eq_of_splitOn {text first : List α} {lines : List (List α)}
    (h : text.splitOn sep = first :: lines) :
    text = first ++ lines.flatMap (sep :: ·) := by
  rw [← @List.intercalate_splitOn _ text _ _ sep, h, intercalate_cons]

theorem infix_of_mem_splitOn {text line : List α} (h : line ∈ text.splitOn sep) :
    line <:+: text := by
  obtain ⟨first, lines, hsplit⟩ := List.exists_cons_of_ne_nil (List.splitOn_ne_nil sep text)
  rw [hsplit] at h
  rw [eq_of_splitOn hsplit]
  rcases List.mem_cons.mp h with rfl | h
  · exact List.infix_append_left
  · refine List.infix_append_of_infix_right ?_
    exact (List.suffix_cons sep line).isInfix.trans
      (List.infix_of_mem_flatten (List.mem_map_of_mem h))

theorem mem_of_mem_splitOn {text line : List α} {c : α} (h : line ∈ text.splitOn sep)
    (hc : c ∈ line) : c ∈ text :=
  (infix_of_mem_splitOn h).subset hc

/-- The last line is empty where nothing follows the last terminator. -/
theorem eq_of_getLast_splitOn {text : List α} (h : (text.splitOn sep).getLast? = some []) :
    text = [] ∨ text.getLast? = some sep := by
  induction text with
  | nil => exact .inl rfl
  | cons c rest ih =>
    obtain ⟨first, lines, hsplit⟩ := List.exists_cons_of_ne_nil (List.splitOn_ne_nil sep rest)
    rw [List.splitOn_cons_eq_if_modifyHead, hsplit] at h
    rw [hsplit] at ih
    split at h
    · rename_i hc
      have hc : c = sep := by simpa using hc
      rw [List.getLast?_cons_cons] at h
      rcases ih h with rfl | hlast
      · exact .inr (by simp [hc])
      · exact .inr (by simp [List.getLast?_cons, hlast])
    · cases lines with
      | nil => simp at h
      | cons next lines =>
        rw [List.modifyHead_cons, List.getLast?_cons_cons] at h
        rcases ih (by rwa [List.getLast?_cons_cons]) with rfl | hlast
        · simp at hsplit
        · exact .inr (by simp [List.getLast?_cons, hlast])

end Lines

variable [DecidableEq α]

/-- What a line has before a mark that only blanks follow. -/
def cut : List α → Option (List α)
  | [] => none
  | c :: line =>
    match cut line with
    | some part => some (c :: part)
    | none => if c = m.mark && line.all m.blank then some [] else none

/-- What a first line of a prefix, one mark or two, and blanks says: the prefix, and whether there
are two. -/
def signature (line : List α) : Option (List α × Bool) :=
  let linePrefix := line.takeWhile (· ≠ m.mark)
  match line.dropWhile (· ≠ m.mark) with
  | [] => none
  | [_] => some (linePrefix, false)
  | _ :: c :: rest =>
    if m.blank c && rest.all m.blank then some (linePrefix, false)
    else if c = m.mark && rest.all m.blank then some (linePrefix, true)
    else none

/-- The prefix to remove and whether to unfold, by what the signature says and which protocols are
on. -/
def treatment (unfolding removing : Bool) : Option (List α × Bool) → Option (List α × Bool)
  | some ([], false) => if unfolding then some ([], true) else none
  | some (c :: linePrefix, false) => if removing
    && c ≠ m.delimiter then some (c :: linePrefix, false) else none
  | some (c :: linePrefix, true) =>
    if removing && unfolding && c ≠ m.delimiter then some (c :: linePrefix, true) else none
  | _ => none

def dropPrefix (linePrefix line : List α) : List α :=
  if linePrefix <+: line then line.drop linePrefix.length else line

/-- The text that lines stand for. -/
def readLines (linePrefix : List α) (folded : Bool) (lines : List (List α)) : List α :=
  m.joinLines (fun line => if folded then m.cut line else none) (lines.map (dropPrefix linePrefix))

/-- The text that a text field stands for, where the protocols are on that the arguments say. -/
def decode (unfolding removing : Bool) (text : List α) : List α :=
  match text.splitOn m.newline with
  | [] => text
  | first :: lines =>
    match m.treatment unfolding removing (m.signature first) with
    | some (linePrefix, folded) => m.readLines linePrefix folded lines
    | none => text

section Cut

variable {m}

theorem cut_eq_none {line : List α} (h : m.mark ∉ line) : m.cut line = none := by
  induction line with
  | nil => rfl
  | cons c line ih =>
    have hc : c ≠ m.mark := fun heq => h (heq ▸ List.mem_cons_self ..)
    have hline : m.mark ∉ line := fun hmem => h (List.mem_cons_of_mem _ hmem)
    simp [cut, ih hline, hc]

/-- A line is cut at its last mark. -/
theorem cut_append {part blanks : List α} (h : blanks.all m.blank = true) :
    m.cut (part ++ m.mark :: blanks) = some part := by
  induction part with
  | nil =>
    rw [List.nil_append, cut, cut_eq_none (mark_notMem_of_blank h)]
    simp only [h, decide_true, Bool.and_self, if_true]
  | cons c part ih => simp [cut, ih]

/-- What is cut was a mark and blanks. -/
theorem eq_of_cut {line part : List α} (h : m.cut line = some part) :
    ∃ blanks, line = part ++ m.mark :: blanks ∧ blanks.all m.blank = true := by
  induction line generalizing part with
  | nil => simp [cut] at h
  | cons c line ih =>
    unfold cut at h
    split at h
    · rename_i part' heq
      obtain rfl := Option.some.inj h
      obtain ⟨blanks, rfl, hblanks⟩ := ih heq
      exact ⟨blanks, rfl, hblanks⟩
    · split at h
      · rename_i hc
        obtain rfl := Option.some.inj h
        simp only [Bool.and_eq_true, decide_eq_true_eq] at hc
        exact ⟨line, by rw [hc.1]; rfl, hc.2⟩
      · simp at h

end Cut

end Marks

/-- A line as it is written: pieces, each with the blanks after the mark that ends it, and what is
left. -/
structure CutLine (α : Type u) where
  pieces : List (List α × List α)
  rest : List α

namespace CutLine

variable {α : Type u}

/-- The line itself. -/
def text (line : CutLine α) : List α := (line.pieces.map Prod.fst).flatten ++ line.rest

/-- The lines it is written in. -/
def written (mark : α) (line : CutLine α) : List (List α) :=
  line.pieces.map (fun piece => piece.1 ++ mark :: piece.2) ++ [line.rest]

theorem mem_written {c mark : α} {line : CutLine α} {l : List α} (hl : l ∈ line.written mark)
    (hc : c ∈ l) :
    c ∈ line.text ∨ c = mark ∨ ∃ piece ∈ line.pieces, c ∈ piece.2 := by
  rcases List.mem_append.mp hl with hpiece | hrest
  · obtain ⟨piece, hmem, rfl⟩ := List.mem_map.mp hpiece
    rcases List.mem_append.mp hc with hfst | hsnd
    · exact .inl
        (List.mem_append_left _ (List.mem_flatten.mpr ⟨piece.1, List.mem_map_of_mem hmem, hfst⟩))
    · rcases List.mem_cons.mp hsnd with rfl | hblank
      · exact .inr (.inl rfl)
      · exact .inr (.inr ⟨piece, hmem, hblank⟩)
  · obtain rfl := List.mem_singleton.mp hrest
    exact .inl (List.mem_append_right _ hc)

/-- A line in segments, the last of which is cut off too, by an empty line, where it is to be
protected. -/
def ofSegments (protect : Bool) (segments : List (List α)) (last : List α) : CutLine α :=
  if protect then ⟨(segments ++ [last]).map (·, []), []⟩ else ⟨segments.map (·, []), last⟩

variable {protect : Bool} {segments : List (List α)} {last : List α}

theorem text_ofSegments : (ofSegments protect segments last).text = segments.flatten ++ last := by
  cases protect <;> simp [ofSegments, text, Function.comp_def]

theorem written_ofSegments (mark : α) : (ofSegments protect segments last).written mark
    = segments.map (· ++ [mark]) ++ if protect then [last ++ [mark], []] else [last] := by
  cases protect <;> simp [ofSegments, written, Function.comp_def]

theorem blanks_ofSegments : ∀ piece ∈ (ofSegments protect segments last).pieces, piece.2 = [] := by
  intro piece hpiece
  unfold ofSegments at hpiece
  split at hpiece
  · obtain ⟨_, _, rfl⟩ := List.mem_map.mp hpiece
    rfl
  · obtain ⟨_, _, rfl⟩ := List.mem_map.mp hpiece
    rfl

end CutLine

/-- A text as it is written by the protocols: its lines, cut anywhere but where a line would seem to
be cut that is not. -/
structure Encoding {α : Type u} [DecidableEq α] (m : Marks α) where
  linePrefix : List α
  folded : Bool
  /-- The blanks at the end of the first line. -/
  blanks : List α
  lines : List (CutLine α)
  /-- The lines that are written without the prefix. -/
  bare : List α → Bool := fun _ => false
  used : linePrefix ≠ [] ∨ folded = true
  linePrefix_mark : m.mark ∉ linePrefix
  linePrefix_newline : m.newline ∉ linePrefix
  linePrefix_delimiter : linePrefix.head? ≠ some m.delimiter
  blanks_blank : blanks.all m.blank = true
  lines_ne_nil : lines ≠ []
  pieces_newline : ∀ line ∈ lines, ∀ piece ∈ line.pieces, m.newline ∉ piece.1
  pieces_blank : ∀ line ∈ lines, ∀ piece ∈ line.pieces, piece.2.all m.blank = true
  rest_newline : ∀ line ∈ lines, m.newline ∉ line.rest
  unfolded : folded = false → ∀ line ∈ lines, line.pieces = []
  uncut : folded = true → ∀ line ∈ lines.dropLast, m.cut line.rest = none
  bare_unlike : ∀ line, bare line = true → Marks.dropPrefix linePrefix line = line := by simp

namespace Encoding

variable {α : Type u} [DecidableEq α] {m : Marks α}

/-- The text that is written. -/
def text (e : Encoding m) : List α := [m.newline].intercalate (e.lines.map CutLine.text)

/-- The first line, which tells the protocols. -/
def header (e : Encoding m) : List α :=
  e.linePrefix ++ (if e.folded && e.linePrefix ≠ [] then [m.mark, m.mark] else [m.mark]) ++ e.blanks

/-- A line with the prefix, if it is to have it. -/
def prefixed (e : Encoding m) (line : List α) : List α :=
  if e.bare line then line else e.linePrefix ++ line

/-- All the lines that are written. -/
def writtenLines (e : Encoding m) : List (List α) :=
  e.header :: (e.lines.flatMap (CutLine.written m.mark)).map e.prefixed

def content (e : Encoding m) : List α := [m.newline].intercalate e.writtenLines

end Encoding

namespace Marks

variable {α : Type u} {m : Marks α} {cut : List α → Option (List α)}

/-- The pieces of a line are put together again. -/
theorem joinLines_pieces {pieces : List (List α × List α)} {lines : List (List α)}
    (hne : lines ≠ [])
    (hcut : ∀ piece ∈ pieces, cut (piece.1 ++ m.mark :: piece.2) = some piece.1) :
    m.joinLines cut (pieces.map (fun piece => piece.1 ++ m.mark :: piece.2) ++ lines)
      = (pieces.map Prod.fst).flatten ++ m.joinLines cut lines := by
  induction pieces with
  | nil => rfl
  | cons piece pieces ih =>
    have hrest := ih fun p hp => hcut p (List.mem_cons_of_mem _ hp)
    rw [List.map_cons, List.cons_append,
      joinLines_cons_of_some (by simp [hne]) (hcut piece (List.mem_cons_self ..)), hrest]
    simp

/-- Lines written in pieces are read as they were. -/
theorem joinLines_written {lines : List (CutLine α)}
    (hcut : ∀ line ∈ lines, ∀ piece ∈ line.pieces,
      cut (piece.1 ++ m.mark :: piece.2) = some piece.1)
    (huncut : ∀ line ∈ lines.dropLast, cut line.rest = none) :
    m.joinLines cut (lines.flatMap (CutLine.written m.mark))
      = [m.newline].intercalate (lines.map CutLine.text) := by
  induction lines with
  | nil => rfl
  | cons line lines ih =>
    have hpieces := hcut line (List.mem_cons_self ..)
    rw [List.flatMap_cons, CutLine.written, List.append_assoc, joinLines_pieces (by simp) hpieces]
    cases lines with
    | nil => simp [joinLines, CutLine.text]
    | cons next lines =>
      have hrest := ih (fun l hl => hcut l (List.mem_cons_of_mem _ hl))
        fun l hl => huncut l (by simp [hl])
      have hnone : cut line.rest = none := huncut line (by simp)
      have hne : (next :: lines).flatMap (CutLine.written m.mark) ≠ [] := by simp [CutLine.written]
      rw [List.singleton_append, joinLines_cons_of_none hne hnone, hrest]
      simp [CutLine.text, List.intercalate]

end Marks

namespace Encoding

variable {α : Type u} [DecidableEq α] {m : Marks α} (e : Encoding m)

theorem newline_notMem_header : m.newline ∉ e.header := by
  have hblanks := Marks.newline_notMem_blanks e.blanks_blank
  have hmark := m.mark_ne_newline.symm
  have hpre := e.linePrefix_newline
  unfold header
  split <;> simp [hpre, hblanks, hmark]

theorem newline_notMem_written {line : CutLine α} (h : line ∈ e.lines) :
    ∀ l ∈ line.written m.mark, m.newline ∉ l := by
  intro l hl
  rcases List.mem_append.mp hl with hpiece | hrest
  · obtain ⟨piece, hmem, rfl⟩ := List.mem_map.mp hpiece
    have hblanks := Marks.newline_notMem_blanks (e.pieces_blank line h piece hmem)
    simp [e.pieces_newline line h piece hmem, hblanks, m.mark_ne_newline.symm]
  · obtain rfl := List.mem_singleton.mp hrest
    exact e.rest_newline line h

theorem mem_prefixed {c : α} {line : List α} (h : c ∈ e.prefixed line) :
    c ∈ e.linePrefix ∨ c ∈ line := by
  unfold prefixed at h
  split at h
  · exact .inr h
  · exact List.mem_append.mp h

/-- The lines written are the lines of the content. -/
theorem splitOn_content : e.content.splitOn m.newline = e.writtenLines := by
  refine List.splitOn_intercalate _ ?_ (by simp [writtenLines])
  intro l hl
  rcases List.mem_cons.mp hl with rfl | hl
  · exact e.newline_notMem_header
  · obtain ⟨w, hw, rfl⟩ := List.mem_map.mp hl
    obtain ⟨line, hline, hw⟩ := List.mem_flatMap.mp hw
    intro hmem
    rcases e.mem_prefixed hmem with hpre | hmem
    · exact e.linePrefix_newline hpre
    · exact e.newline_notMem_written hline w hw hmem

end Encoding

namespace Marks

variable {α : Type u} [DecidableEq α] {m : Marks α}

theorem signature_one {linePrefix blanks : List α} (hpre : m.mark ∉ linePrefix)
    (hblanks : blanks.all m.blank = true) :
    m.signature (linePrefix ++ m.mark :: blanks) = some (linePrefix, false) := by
  have hne : ∀ c ∈ linePrefix, decide (c ≠ m.mark) = true := by
    intro c hc
    simp only [ne_eq, decide_eq_true_eq]
    exact fun heq => hpre (heq ▸ hc)
  unfold signature
  rw [List.takeWhile_append_of_pos hne, List.dropWhile_append_of_pos hne]
  cases blanks with
  | nil => simp
  | cons c rest => simp_all

theorem signature_two {linePrefix blanks : List α} (hpre : m.mark ∉ linePrefix)
    (hblanks : blanks.all m.blank = true) :
    m.signature (linePrefix ++ m.mark :: m.mark :: blanks) = some (linePrefix, true) := by
  have hne : ∀ c ∈ linePrefix, decide (c ≠ m.mark) = true := by
    intro c hc
    simp only [ne_eq, decide_eq_true_eq]
    exact fun heq => hpre (heq ▸ hc)
  unfold signature
  rw [List.takeWhile_append_of_pos hne, List.dropWhile_append_of_pos hne]
  simp [hblanks, m.blank_mark]

theorem eq_of_dropWhile {line after : List α} {c : α}
    (h : line.dropWhile (· ≠ m.mark) = c :: after) :
    line = line.takeWhile (· ≠ m.mark) ++ m.mark :: after := by
  have hc : c = m.mark := by
    have hhead := List.head?_dropWhile_not (fun c => decide (c ≠ m.mark)) line
    rw [h] at hhead
    simpa using hhead
  have hsplit := @List.takeWhile_append_dropWhile _ (fun c => decide (c ≠ m.mark)) line
  rw [h, hc] at hsplit
  exact hsplit.symm

/-- A first line that tells something is a prefix, one mark or two, and blanks. -/
theorem eq_of_signature {line linePrefix : List α} {two : Bool}
    (h : m.signature line = some (linePrefix, two)) :
    m.mark ∉ linePrefix ∧ ∃ blanks, blanks.all m.blank = true
      ∧ line = linePrefix ++ m.mark :: if two then m.mark :: blanks else blanks := by
  have hnot : m.mark ∉ line.takeWhile (· ≠ m.mark) := by
    intro hmem
    simpa using List.mem_takeWhile_imp hmem
  have hsplit := @eq_of_dropWhile _ _ m line
  unfold signature at h
  simp only at h
  generalize line.takeWhile (fun c => decide (c ≠ m.mark)) = before at h hnot hsplit
  split at h
  · simp at h
  · rename_i heq
    obtain ⟨rfl, rfl⟩ := Prod.mk.inj (Option.some.inj h)
    exact ⟨hnot, [], rfl, hsplit heq⟩
  · rename_i d rest heq
    split at h
    · rename_i hblank
      obtain ⟨rfl, rfl⟩ := Prod.mk.inj (Option.some.inj h)
      exact ⟨hnot, d :: rest, by simpa using hblank, hsplit heq⟩
    · split at h
      · rename_i hmark
        obtain ⟨rfl, rfl⟩ := Prod.mk.inj (Option.some.inj h)
        simp only [Bool.and_eq_true, decide_eq_true_eq] at hmark
        exact ⟨hnot, rest, hmark.2, by rw [hsplit heq, hmark.1]; rfl⟩
      · simp at h

theorem signature_eq_none {line : List α} (h : m.mark ∉ line) : m.signature line = none := by
  cases hsig : m.signature line with
  | none => rfl
  | some said =>
    obtain ⟨_, blanks, _, hline⟩ := @eq_of_signature _ _ _ _ said.1 said.2 hsig
    exact absurd (by rw [hline]; simp) h

theorem head_of_splitOn {sep : α} {text line : List α} {lines : List (List α)}
    (h : text.splitOn sep = line :: lines) : line <+: text := by
  induction text generalizing line lines with
  | nil => simp_all
  | cons c rest ih =>
    rw [List.splitOn_cons_eq_if_modifyHead] at h
    split at h
    · obtain ⟨rfl, _⟩ := List.cons.inj h
      exact List.nil_prefix
    · cases hsplit : rest.splitOn sep with
      | nil => simp [hsplit] at h
      | cons line' lines' =>
        rw [hsplit, List.modifyHead_cons] at h
        obtain ⟨rfl, _⟩ := List.cons.inj h
        exact List.cons_prefix_cons.mpr ⟨rfl, ih hsplit⟩

theorem decode_of_treatment_none {unfolding removing : Bool} {text : List α}
    (h : ∀ line lines, text.splitOn m.newline = line :: lines →
      m.treatment unfolding removing (m.signature line) = none) : m.decode unfolding removing text
        = text := by
  unfold decode
  split
  · rfl
  · rename_i heq
    rw [h _ _ heq]

theorem decode_of_mark_notMem {unfolding removing : Bool} {text : List α} (h : m.mark ∉ text) :
    m.decode unfolding removing text = text := by
  refine decode_of_treatment_none fun line lines heq => ?_
  rw [signature_eq_none fun hmem => h ((head_of_splitOn heq).subset hmem)]
  rfl

theorem decode_off (text : List α) : m.decode false false text = text := by
  refine decode_of_treatment_none fun line lines _ => ?_
  unfold treatment
  split <;> simp

/-- A text that begins with the delimiter is decoded as it is. -/
theorem decode_of_delimiter {unfolding removing : Bool} {text : List α} (hne : m.mark ≠ m.delimiter)
    (h : text.head? = some m.delimiter) : m.decode unfolding removing text = text := by
  refine decode_of_treatment_none fun line lines heq => ?_
  have hhead : ∀ c, line.head? = some c → c = m.delimiter := by
    intro c hc
    obtain ⟨rest, rfl⟩ := head_of_splitOn heq
    cases line with
    | nil => simp at hc
    | cons d line => simp_all
  cases hsig : m.signature line with
  | none => rfl
  | some said =>
    obtain ⟨linePrefix, two⟩ := said
    obtain ⟨_, blanks, _, hline⟩ := eq_of_signature hsig
    cases linePrefix with
    | nil => exact absurd (hhead m.mark (by rw [hline]; rfl)) hne
    | cons c linePrefix =>
      have hc := hhead c (by rw [hline]; rfl)
      cases two <;> simp [treatment, hc]

theorem dropPrefix_append (linePrefix line : List α) :
    dropPrefix linePrefix (linePrefix ++ line) = line := by
  simp [dropPrefix]

end Marks

namespace Encoding

open Marks

variable {α : Type u} [DecidableEq α] {m : Marks α} (e : Encoding m)

theorem signature_header :
    m.signature e.header = some (e.linePrefix, e.folded && e.linePrefix ≠ []) := by
  unfold header
  by_cases hboth : (e.folded && decide (e.linePrefix ≠ [])) = true
  · rw [if_pos hboth, hboth]
    simpa using signature_two e.linePrefix_mark e.blanks_blank
  · rw [if_neg hboth, Bool.not_eq_true _ |>.mp hboth]
    simpa using signature_one e.linePrefix_mark e.blanks_blank

/-- The first line tells what it is to. -/
theorem treatment_header :
    m.treatment true true (m.signature e.header) = some (e.linePrefix, e.folded) := by
  have hdelimiter := e.linePrefix_delimiter
  rw [e.signature_header]
  cases hpre : e.linePrefix with
  | nil =>
    have hfolded : e.folded = true := e.used.resolve_left (by simp [hpre])
    simp [treatment, hfolded]
  | cons c linePrefix =>
    rw [hpre] at hdelimiter
    have hc : c ≠ m.delimiter := by simpa using hdelimiter
    cases hfolded : e.folded <;> simp [treatment, hc]

theorem dropPrefix_prefixed (line : List α) : dropPrefix e.linePrefix (e.prefixed line) = line := by
  unfold prefixed
  split
  · rename_i hbare
    exact e.bare_unlike line hbare
  · exact dropPrefix_append _ _

/-- What is written by the protocols is read as it was. -/
theorem decode_content : m.decode true true e.content = e.text := by
  unfold decode
  rw [e.splitOn_content, writtenLines]
  simp only [e.treatment_header, readLines, List.map_map]
  have hdrop : (dropPrefix e.linePrefix ∘ e.prefixed) = id := funext e.dropPrefix_prefixed
  rw [hdrop, List.map_id]
  refine joinLines_written ?_ ?_
  · intro line hline piece hpiece
    cases hfolded : e.folded with
    | false => simp [e.unfolded hfolded line hline] at hpiece
    | true => exact cut_append (e.pieces_blank line hline piece hpiece)
  · intro line hline
    cases hfolded : e.folded with
    | false => rfl
    | true => exact e.uncut hfolded line hline

/-- What is written is the text, the prefix, marks and blanks. -/
theorem mem_content {c : α} (h : c ∈ e.content) : c = m.newline ∨ c = m.mark ∨ m.blank c = true
    ∨ c ∈ e.linePrefix ∨ ∃ line ∈ e.lines, c ∈ line.text := by
  rcases mem_intercalate h with hnl | ⟨l, hl, hc⟩
  · exact .inl hnl
  · rcases List.mem_cons.mp hl with rfl | hl
    · unfold header at hc
      simp only [List.mem_append] at hc
      rcases hc with (hpre | hmark) | hblank
      · exact .inr (.inr (.inr (.inl hpre)))
      · split at hmark <;> exact .inr (.inl (by simpa using hmark))
      · exact .inr (.inr (.inl (List.all_eq_true.mp e.blanks_blank c hblank)))
    · obtain ⟨w, hw, rfl⟩ := List.mem_map.mp hl
      obtain ⟨line, hline, hw⟩ := List.mem_flatMap.mp hw
      rcases e.mem_prefixed hc with hpre | hc
      · exact .inr (.inr (.inr (.inl hpre)))
      · rcases CutLine.mem_written hw hc with htext | hmark | ⟨piece, hpiece, hblank⟩
        · exact .inr (.inr (.inr (.inr ⟨line, hline, htext⟩)))
        · exact .inr (.inl hmark)
        · exact .inr
            (.inr (.inl (List.all_eq_true.mp (e.pieces_blank line hline piece hpiece) c hblank)))

/-- The first line is followed by others. -/
theorem content_eq : e.content = e.header ++ m.newline
    :: [m.newline].intercalate ((e.lines.flatMap (CutLine.written m.mark)).map e.prefixed) := by
  have hne : (e.lines.flatMap (CutLine.written m.mark)).map e.prefixed ≠ [] := by
    obtain ⟨line, lines, heq⟩ := List.exists_cons_of_ne_nil e.lines_ne_nil
    simp [heq, CutLine.written]
  rw [content, writtenLines, List.intercalate_cons_of_ne_nil hne]
  simp

end Encoding
