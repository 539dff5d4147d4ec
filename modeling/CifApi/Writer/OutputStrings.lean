import CifApi.Parser.RenderedValue
import CifApi.Value.NumbText
import CifApi.Writer.BlockCharacters
import CifApi.Writer.Output

/-! What is written of strings and numbers, with the blanks before it and the column that it ends
in. -/
namespace CifApi

section Lines

variable {n m : Nat} {text first rest last : UStr}

theorem endColumn_le (hnl : UChar.nl ∉ text) : endColumn n text ≤ n + text.length := by
  induction text generalizing n with
  | nil => exact Nat.le_refl n
  | cons c text ih =>
    rw [List.mem_cons, not_or] at hnl
    rw [endColumn, if_neg (Ne.symm hnl.1), List.length_cons]
    have hstart : (if isTrail c then n else n + 1) ≤ n + 1 := by
      split <;> omega
    exact (ih hnl.2).trans (by omega)

theorem fits_line (hnl : UChar.nl ∉ first) (hn : n + first.length < lineLength) :
    fits n (first ++ UChar.nl :: rest) = fits 0 rest := by
  induction first generalizing n with
  | nil =>
    rw [List.nil_append, fits, if_pos rfl]
    have hlt : n < lineLength := hn
    simp [hlt]
  | cons c first ih =>
    rw [List.mem_cons, not_or] at hnl
    rw [List.length_cons] at hn
    rw [List.cons_append, fits, if_neg (Ne.symm hnl.1)]
    refine ih hnl.2 ?_
    split <;> omega

theorem exists_firstLine (hlines : 1 < (text.splitOn UChar.nl).length) :
    ∃ first rest, text = first ++ UChar.nl :: rest ∧ UChar.nl ∉ first
      ∧ (text.splitOn UChar.nl).head? = some first := by
  obtain ⟨first, lines, hsplit⟩ := List.exists_cons_of_ne_nil (List.splitOn_ne_nil UChar.nl text)
  have htext := Marks.eq_of_splitOn hsplit
  have hnl : UChar.nl ∉ first :=
    Marks.notMem_of_mem_splitOn (by rw [hsplit]; exact List.mem_cons_self ..)
  rw [hsplit] at hlines ⊢
  cases lines with
  | nil => exact absurd hlines (by simp)
  | cons next lines =>
    exact ⟨first, next ++ lines.flatMap (UChar.nl :: ·), by rw [htext]; simp, hnl, rfl⟩

theorem exists_lastLine (hlines : 1 < (text.splitOn UChar.nl).length) :
    ∃ before last, text = before ++ UChar.nl :: last ∧ UChar.nl ∉ last
      ∧ (text.splitOn UChar.nl).getLast? = some last := by
  obtain ⟨first, lines, hsplit⟩ := List.exists_cons_of_ne_nil (List.splitOn_ne_nil UChar.nl text)
  have htext := Marks.eq_of_splitOn hsplit
  rw [hsplit] at hlines
  have hne : lines ≠ [] := by
    rintro rfl
    exact absurd hlines (by simp)
  obtain ⟨init, last, rfl⟩ := List.eq_nil_or_concat lines |>.resolve_left hne
  rw [List.concat_eq_append] at hsplit htext
  have hnl : UChar.nl ∉ last := Marks.notMem_of_mem_splitOn (by rw [hsplit]; simp)
  refine ⟨first ++ init.flatMap (UChar.nl :: ·), last, by rw [htext]; simp, hnl, ?_⟩
  rw [hsplit, ← List.cons_append, List.getLast?_concat]

theorem endColumn_lastLine (hnl : UChar.nl ∉ last) :
    endColumn n (text ++ UChar.nl :: last) ≤ last.length := by
  rw [endColumn_append, endColumn, if_pos rfl]
  exact (endColumn_le hnl).trans (Nat.zero_add _).le

variable {allowUnquoted allowTripleQuoted : Bool} {a : StringAnalysis}

theorem oneLine_of_numLines (hcr : UChar.cr ∉ text)
    (ha : a = analyzeString text allowUnquoted allowTripleQuoted lineLength)
    (hone : a.numLines = 1) : UChar.nl ∉ text ∧ a.lengthFirst = text.length
      ∧ a.lengthMax = text.length := by
  have hmeasured : a.Measured text := ha ▸ analyzeString_measured (firstIsCrlf_of_no_cr hcr) ..
  obtain ⟨line, hline⟩ := List.length_eq_one_iff.mp (hmeasured.numLines.symm.trans hone)
  have hsplit := (stringLines_of_no_cr hcr).symm.trans hline
  obtain rfl : text = line := (Marks.eq_of_splitOn hsplit).trans (by simp)
  have hnl : UChar.nl ∉ text :=
    Marks.notMem_of_mem_splitOn (by rw [hsplit]; exact List.mem_cons_self ..)
  have hfirst := hmeasured.lengthFirst
  obtain ⟨longest, hmem, hmax⟩ := hmeasured.lengthMax_mem
  rw [hline] at hfirst hmem
  obtain rfl := List.mem_singleton.mp hmem
  exact ⟨hnl, (Option.some.inj hfirst).symm, hmax.symm⟩

theorem lines_of_numLines (hcr : UChar.cr ∉ text)
    (ha : a = analyzeString text allowUnquoted allowTripleQuoted lineLength)
    (hne : a.numLines ≠ 1) : 1 < (text.splitOn UChar.nl).length := by
  have hmeasured : a.Measured text := ha ▸ analyzeString_measured (firstIsCrlf_of_no_cr hcr) ..
  have hpos := List.length_pos_of_ne_nil (List.splitOn_ne_nil UChar.nl text)
  rw [← stringLines_of_no_cr hcr] at hpos ⊢
  have hnum := hmeasured.numLines
  omega

end Lines

namespace Output

open Exec

variable {σ : Type}

/-- From one context to another this has been written, and the version and whether names are written
are as before. -/
structure Grown (text : UStr) (c c' : Context) : Prop where
  out : c'.out = c.out ++ text
  version : c'.version = c.version
  writeItemNames : c'.writeItemNames = c.writeItemNames

/-- Whether values are separated is as before, too. -/
structure Appended (text : UStr) (c c' : Context) : Prop extends Grown text c c' where
  separateValues : c'.separateValues = c.separateValues

/-- The output ends in a column that is not beyond the one noted, nor beyond the limit. -/
structure At (n : Nat) (c : Context) : Prop where
  column : n ≤ c.lastColumn
  limit : n ≤ lineLength

section Frames

variable {text more : UStr} {c c' c'' : Context} {n : Nat}

theorem Grown.refl (c : Context) : Grown [] c c := ⟨(List.append_nil _).symm, rfl, rfl⟩

theorem Grown.trans (h : Grown text c c') (hmore : Grown more c' c'') :
    Grown (text ++ more) c c'' := by
  refine ⟨?_, hmore.version.trans h.version, hmore.writeItemNames.trans h.writeItemNames⟩
  rw [hmore.out, h.out, List.append_assoc]

theorem grown_setSeparateValues (separate : Bool) (c : Context) :
    Grown [] c (c.setSeparateValues separate) :=
  ⟨(List.append_nil _).symm, rfl, rfl⟩

theorem Appended.refl (c : Context) : Appended [] c c := ⟨.refl c, rfl⟩

theorem Appended.trans (h : Appended text c c') (hmore : Appended more c' c'') :
    Appended (text ++ more) c c'' :=
  ⟨h.toGrown.trans hmore.toGrown, hmore.separateValues.trans h.separateValues⟩

theorem appended_put (text : UStr) (column : Nat) (c : Context) :
    Appended text c (c.put text column) := ⟨⟨rfl, rfl, rfl⟩, rfl⟩

end Frames

/-- What a writer leaves where it does not fail. -/
abbrev Writes {α : Type} (m : Write α) (c : Context) (Q : α → Context → Prop) : Prop :=
  Ensures m c Q fun _ _ => True

section Literals

variable {text : UStr} {c c' : Context} {n : Nat} {wrap : Bool}

/-- From one context to another a line feed may have been written, and then this on one line. -/
inductive WroteLiteral (wrap : Bool) (n : Nat) (text : UStr) (c c' : Context) : Prop
  | sameLine (happend : Appended text c c') (hat : At (n + text.length) c')
  | nextLine (hwrap : wrap = true) (happend : Appended (UChar.nl :: text) c c')
    (hat : At text.length c')

theorem padded_length (text : UStr) : padded text.length text = text := by
  rw [padded, Nat.sub_self, List.replicate_zero, List.nil_append, List.take_length]

/-- Text is written on the line that it fits on, or on the next one where it may wrap. -/
theorem writes_writeUliteral (hne : text ≠ []) (hlimit : text.length ≤ lineLength) (hat : At n c) :
    Writes (writeUliteral text (some text.length) wrap) c fun r c' =>
      r = -Code.overlengthLine ∧ wrap = false ∧ c' = c ∨ r = text.length
        ∧ WroteLiteral wrap n text c c' := by
  have hpos : text.length ≠ 0 := fun h => hne (List.eq_nil_of_length_eq_zero h)
  rw [Writes, Ensures, writeUliteral, Option.getD_some]
  rw [if_neg hpos, post_bind, post_read]
  split
  · cases wrap with
    | false => exact .inl ⟨rfl, rfl, rfl⟩
    | true =>
      rw [if_pos rfl, post_bind, writeNewline, put, post_modify, post_bind, put, post_modify,
        padded_length]
      refine .inr ⟨rfl, .nextLine rfl ?_ ⟨Nat.le_refl _, hlimit⟩⟩
      exact (appended_put [UChar.nl] 0 c).trans (appended_put text text.length _)
  · rename_i hfits
    have hcolumn := hat.column
    rw [post_bind, put, post_modify, padded_length]
    refine .inr ⟨rfl, .sameLine (appended_put text _ c) ⟨?_, ?_⟩⟩
    · exact Nat.add_le_add_right hcolumn _
    · omega

theorem WroteLiteral.blanks (h : WroteLiteral wrap n text c c') (hat : At n c) :
    ∃ blanks m, Blanks n blanks m
    ∧ Appended (blanks ++ text) c c' ∧ At (m + text.length) c' := by
  cases h with
  | sameLine happend hat' => exact ⟨[], n, .nil n, happend, hat'⟩
  | nextLine _ happend hat' =>
    refine ⟨[UChar.nl], 0, .newline hat.limit (.nil 0), happend, ?_⟩
    rwa [Nat.zero_add]

end Literals

section Spacing

variable {P : Nat → UStr → Nat → Prop} {text : UStr} {c c' : Context} {n : Nat} {wrap : Bool}

/-- Blanks have been written, and after them something of a kind. -/
def Spaced (n : Nat) (P : Nat → UStr → Nat → Prop) (c c' : Context) : Prop :=
  ∃ blanks m text k, Blanks n blanks m ∧ P m text k ∧ Appended (blanks ++ text) c c' ∧ At k c'
    ∧ 0 < c'.lastColumn

theorem WroteLiteral.spaced (h : WroteLiteral wrap n text c c') (hat : At n c) (hne : text ≠ [])
    (hP : ∀ m, P m text (m + text.length)) : Spaced n P c c' := by
  have hpos : 0 < text.length := List.length_pos_of_ne_nil hne
  obtain ⟨blanks, m, hblanks, happend, hat'⟩ := h.blanks hat
  have hcolumn := hat'.column
  exact ⟨blanks, m, text, _, hblanks, hP m, happend, hat', by omega⟩

theorem Spaced.imp {Q : Nat → UStr → Nat → Prop} (h : Spaced n P c c')
    (hPQ : ∀ m text k, P m text k → Q m text k) :
    Spaced n Q c c' := by
  obtain ⟨blanks, m, text, k, hblanks, hP, hrest⟩ := h
  exact ⟨blanks, m, text, k, hblanks, hPQ _ _ _ hP, hrest⟩

/-- Values that are to be separated from what is before them on the line are. -/
theorem writes_ensureSpaced (hat : At n c) : Writes ensureSpaced c fun r c' => r = true →
    ∃ blanks m, Blanks n blanks m ∧ Appended blanks c c' ∧ At m c'
      ∧ (0 < c.lastColumn → blanks ≠ []) := by
  rw [Writes, Ensures, ensureSpaced, post_bind, post_read]
  split
  · rename_i hzero
    exact fun _ => ⟨[], n, .nil n, .refl c, hat, fun hpos => absurd hpos (Nat.not_lt.mpr hzero)⟩
  · rw [post_bind, writeLiteral]
    refine (writes_writeUliteral (by simp) (by decide) hat).imp ?_ (fun _ _ he => he)
    rintro r c₁ (⟨rfl, _, rfl⟩ | ⟨rfl, hwrote⟩)
    · rw [if_pos rfl, post_bind, writeNewline, put, post_modify]
      exact fun _ => ⟨[UChar.nl], 0, .newline hat.limit (.nil 0), appended_put _ _ _,
        ⟨Nat.le_refl 0, Nat.zero_le _⟩, by simp⟩
    · rw [if_neg (by decide)]
      intro _
      cases hwrote with
      | sameLine happend hat' => exact ⟨[UChar.sp], n + 1, .space (.nil _), happend, hat', by simp⟩
      | nextLine _ happend hat' =>
        exact ⟨[UChar.nl, UChar.sp], 1, .newline hat.limit (.space (.nil _)), happend, hat',
          by simp⟩

/-- There is room on the line, or it is a new one. -/
inductive MadeRoom (length column : Nat) (c c' : Context) : Prop
  | kept (hc : c' = c) (hcolumn : column = c.lastColumn) (hfits : c.lastColumn + length
    ≤ lineLength)
  | nextLine (hc : c' = c.put [UChar.nl] 0) (hcolumn : column = 0)

theorem writes_makeRoom (length : Nat) (c : Context) :
    Writes (makeRoom length) c fun column c' => MadeRoom length column c c' := by
  rw [Writes, Ensures, makeRoom, post_bind, post_read]
  split
  · rw [post_bind, writeNewline, put, post_modify]
    exact .nextLine rfl rfl
  · rename_i hfits
    exact .kept rfl rfl (Nat.not_lt.mp hfits)

theorem MadeRoom.blanks {length column : Nat} (h : MadeRoom length column c c') (hat : At n c) :
    ∃ blanks m, Blanks n blanks m
    ∧ Appended blanks c c' ∧ m ≤ column ∧ (m + length ≤ lineLength ∨ m = 0) := by
  cases h with
  | kept hc hcolumn hfits =>
    subst hc hcolumn
    have hn := hat.column
    exact ⟨[], n, .nil n, .refl c', hn, .inl (by omega)⟩
  | nextLine hc hcolumn =>
    subst hc hcolumn
    exact ⟨[UChar.nl], 0, .newline hat.limit (.nil 0), appended_put _ _ c, Nat.le_refl 0, .inr rfl⟩

end Spacing

section Strings

variable {cfg : Config σ} {text : UStr} {c c' : Context} {n : Nat} {q : UChar}

theorem writes_writeUnquoted (hne : text ≠ []) (hlimit : text.length ≤ lineLength) (hat : At n c) :
    Writes (writeUnquoted text text.length) c fun _ c' => WroteLiteral true n text c c' := by
  rw [Writes, Ensures, writeUnquoted, post_bind]
  refine (writes_writeUliteral hne hlimit hat).imp ?_ (fun _ _ he => he)
  rintro r c₁ (⟨_, hwrap, _⟩ | ⟨rfl, hwrote⟩)
  · simp at hwrap
  · rw [if_neg (by simp), if_pos rfl]
    exact hwrote

theorem writes_writeQuoted (hq : q = UChar.sq ∨ q = UChar.dq) (hno : q ∉ text)
    (hnl : UChar.nl ∉ text) (hlimit : text.length + 2 ≤ lineLength) (hat : At n c) :
    Writes (writeQuoted text text.length q) c fun _ c' => Spaced n (Delimited text) c c' := by
  rw [Writes, Ensures, writeQuoted, post_bind]
  refine (writes_makeRoom _ c).imp ?_ (fun _ _ he => he)
  rintro column c₁ hroom
  obtain ⟨blanks, m, hblanks, happend, hm, hfits⟩ := hroom.blanks hat
  have hlength : ([q] ++ text ++ [q]).length = text.length + 2 := by simp
  dsimp only
  rw [padded_length, put, post_bind, post_modify, if_pos hlength]
  refine ⟨blanks, m, _, _, hblanks, .quoted hq hno hnl, happend.trans (appended_put _ _ _),
    ⟨?_, ?_⟩, ?_⟩
  · show m + 1 + (text.length + 1) ≤ column + ([q] ++ text ++ [q]).length
    omega
  · omega
  · show 0 < column + ([q] ++ text ++ [q]).length
    omega

/-- A string that is too short for its first line's length to be looked up in it is not written
between triple quotes. -/
theorem writes_writeTripleQuoted_short {Q : Unit → Context → Prop} (length : Nat) (q : UChar)
    (c : Context) :
    Writes (writeTripleQuoted text (text.length + 3) length q) c Q := by
  rw [Writes, Ensures, writeTripleQuoted, post_bind, post_read, post_bind]
  refine (writes_makeRoom _ c).imp ?_ (fun _ _ he => he)
  rintro column c₁ _
  dsimp only
  rw [put, post_bind, post_modify, if_neg (by simp)]
  trivial

theorem writes_writeTripleQuoted {first rest before last : UStr} (hq : q = UChar.sq ∨ q = UChar.dq)
    (hquote : text.getLast? ≠ some q) (hno : ¬ List.replicate 3 q <:+: text)
    (hfirst : text = first ++ UChar.nl :: rest) (hfirstLine : UChar.nl ∉ first)
    (hfirstLimit : first.length + 3 < lineLength) (hlast : text = before ++ UChar.nl :: last)
    (hlastLine : UChar.nl ∉ last) (hlastLimit : last.length + 3 < lineLength)
    (hfits : fits 0 text = true) (hat : At n c) :
    Writes (writeTripleQuoted text (first.length + 3) last.length q) c fun _ c' =>
      Spaced n (Delimited text) c c' := by
  have hfitsAt : ∀ m, m + first.length < lineLength → fits m text = true := by
    intro m hm
    rw [hfirst] at hfits ⊢
    have hzero : 0 + first.length < lineLength := by omega
    rwa [fits_line hfirstLine hm, ← fits_line hfirstLine hzero]
  have hend : ∀ m, endColumn m (text ++ List.replicate 3 q) ≤ last.length + 3 := by
    intro m
    have hnl : UChar.nl ∉ last ++ List.replicate 3 q := by
      have hne : UChar.nl ≠ q := by
        rcases hq with rfl | rfl <;> decide
      simp [hlastLine, hne]
    have hle := @endColumn_lastLine m before _ hnl
    rw [hlast, List.append_assoc, List.cons_append]
    simpa using hle
  rw [Writes, Ensures, writeTripleQuoted, post_bind, post_read, post_bind]
  refine (writes_makeRoom _ c).imp ?_ (fun _ _ he => he)
  rintro column c₁ hroom
  obtain ⟨blanks, m, hblanks, happend, hm, hplace⟩ := hroom.blanks hat
  dsimp only
  rw [put, post_bind, post_modify]
  split
  · refine ⟨blanks, m, _, _, hblanks, .triple hq hquote hno (hfitsAt (m + 3) ?_), ?_, ⟨?_, ?_⟩,
      Nat.succ_pos _⟩
    · omega
    · have hwritten : List.replicate 3 q ++ text ++ List.replicate 3 q
          = q :: q :: q :: (text ++ List.replicate 3 q) := by
        simp [List.replicate]
      rw [← hwritten]
      exact happend.trans (appended_put _ _ _)
    · exact (hend _).trans (by show last.length + 3 ≤ _ + last.length + 3; omega)
    · exact (hend _).trans (Nat.le_of_lt hlastLimit)
  · trivial

/-- A text block is at the start of a line. -/
theorem writes_writeText {P : Nat → UStr → Nat → Prop} {fold forPrefix : Bool} (hat : At n c)
    (hP : ∀ content, writeContent fold forPrefix text = .ok content →
      P 0 (UChar.semi :: (content ++ [UChar.nl, UChar.semi])) 1) :
    Writes (writeText text fold forPrefix) c fun _ c' => Spaced n P c c' := by
  rw [Writes, Ensures, writeText, CifApi.writeText]
  cases hcontent : writeContent fold forPrefix text with
  | error e => trivial
  | ok content =>
    refine ⟨[UChar.nl], 0, _, 1, .newline hat.limit (.nil 0), hP content hcontent, ?_,
      ⟨Nat.le_refl 1, by decide⟩, Nat.one_pos⟩
    have hwritten : textDelim ++ content ++ textDelim
        = [UChar.nl] ++ UChar.semi :: (content ++ [UChar.nl, UChar.semi]) := by
      simp [textDelim]
    rw [← hwritten]
    exact appended_put _ _ c

end Strings

section Characters

variable {text : UStr} {c : Context} {n : Nat} {quoted : Bool} {a : StringAnalysis} {v : Int}

/-- A string that can be unquoted is bare, and not at the start of a text block. -/
theorem bare_of_canBeUnquoted (hcr : UChar.cr ∉ text) (hnl : UChar.nl ∉ text)
    (h : canBeUnquoted text = true) :
    Bare text ∧ text.head? ≠ some UChar.semi := by
  obtain ⟨u, rest, rfl, hstart, hplain, hreserved⟩ := canBeUnquoted_spec hcr hnl h
  rw [unquotedNonstarts, List.mem_append, not_or] at hstart
  have hsingle : ∀ {w : UChar}, w = UChar.query ∨ w = UChar.decimal → u :: rest ≠ [w] := by
    rintro w hw heq
    obtain ⟨rfl, rfl⟩ := List.cons.inj heq
    rcases hw with rfl | rfl <;> exact absurd h (by decide)
  refine ⟨⟨by simp, hsingle (.inl rfl), hsingle (.inr rfl), hreserved,
    List.forall_mem_cons.mpr ⟨hstart.1, hplain⟩⟩, ?_⟩
  intro hsemi
  refine hstart.2 ?_
  rw [Option.some.inj hsemi]
  decide

/-- With a single quote recommended, the string is on one line that is short enough. -/
theorem writes_quoted (hcr : UChar.cr ∉ text)
    (ha : a = analyzeString text (!quoted) true lineLength) (hdelim : a.delimLength = 1)
    (hat : At n c) :
    Writes (writeQuoted text a.length (a.delim.getD 0 0)) c fun _ c' =>
      Spaced n (Delimited text) c c' := by
  have hrecommended : Recommended text true a.delim := by
    rw [ha] at hdelim ⊢
    exact recommended_of_delimLength hcr (by rw [hdelim]; decide)
  obtain ⟨_, _, _, hsingle, hmulti⟩ := quoteDelimiter?_fits (delim_of_delimLength ha (by omega))
  have hnum : (LineStats.ofString text).numLines = a.numLines := by rw [ha]; rfl
  have hmax : (LineStats.ofString text).maxLine = a.lengthMax := by rw [ha]; rfl
  have hlength : a.length = text.length := by rw [ha]; rfl
  have hdelimLength : a.delim.length = 1 := hdelim
  rw [hnum] at hsingle hmulti
  have hone : a.numLines = 1 := by
    by_contra hne
    have hthree := (hmulti hne).1
    omega
  have hfits := hsingle hone
  rw [hmax, (oneLine_of_numLines hcr ha hone).2.2, hdelimLength] at hfits
  rw [hlength]
  generalize a.delim = delim at hrecommended hdelimLength
  cases hrecommended with
  | unquoted _ _ => exact absurd hdelimLength (by simp)
  | quoted hc hline hno => exact writes_writeQuoted hc hno hline (by omega) hat
  | triple _ _ _ _ => exact absurd hdelimLength (by simp)

/-- With triple quotes recommended, only a string of more than one line is written. -/
theorem writes_tripleQuoted (hcr : UChar.cr ∉ text)
    (ha : a = analyzeString text (!quoted) true lineLength) (hdelim : a.delimLength = 3)
    (hfits : fits 0 text = true) (hat : At n c) :
    Writes (writeTripleQuoted text (a.lengthFirst + 3) a.lengthLast (a.delim.getD 0 0)) c
      fun _ c' => Spaced n (Delimited text) c c' := by
  by_cases hone : a.numLines = 1
  · rw [(oneLine_of_numLines hcr ha hone).2.1]
    exact writes_writeTripleQuoted_short _ _ c
  · have hrecommended : Recommended text true a.delim := by
      rw [ha] at hdelim ⊢
      exact recommended_of_delimLength hcr (by rw [hdelim]; decide)
    obtain ⟨_, _, _, _, hmulti⟩ := quoteDelimiter?_fits (delim_of_delimLength ha (by omega))
    have hnum : (LineStats.ofString text).numLines = a.numLines := by rw [ha]; rfl
    have hfirst : (LineStats.ofString text).firstLine = a.lengthFirst := by rw [ha]; rfl
    have hlast : (LineStats.ofString text).thisLine = a.lengthLast := by rw [ha]; rfl
    have hmeasured : a.Measured text := ha ▸ analyzeString_measured (firstIsCrlf_of_no_cr hcr) ..
    have hlines := lines_of_numLines hcr ha hone
    rw [hnum, hfirst, hlast] at hmulti
    obtain ⟨_, hlastLimit, hfirstLimit⟩ := hmulti hone
    obtain ⟨first, rest, htext, hfirstLine, hhead⟩ := exists_firstLine hlines
    obtain ⟨before, last, htext', hlastLine, hend⟩ := exists_lastLine hlines
    have hfirstLength := hmeasured.lengthFirst
    have hlastLength := hmeasured.lengthLast
    rw [stringLines_of_no_cr hcr, hhead] at hfirstLength
    rw [stringLines_of_no_cr hcr, hend] at hlastLength
    rw [← Option.some.inj hfirstLength] at hfirstLimit ⊢
    rw [← Option.some.inj hlastLength] at hlastLimit ⊢
    have hdelimLength : a.delim.length = 3 := hdelim
    generalize a.delim = delim at hrecommended hdelimLength
    cases hrecommended with
    | unquoted _ _ => exact absurd hdelimLength (by simp)
    | quoted _ _ _ => exact absurd hdelimLength (by simp)
    | triple _ hc hquote hno =>
      exact writes_writeTripleQuoted hc hquote hno htext hfirstLine (by omega) htext' hlastLine
        (by omega) hfits hat

/-- What is written of a string, by the delimiter recommended for it. -/
theorem writes_writeChar {P : Nat → UStr → Nat → Prop} {allowText : Bool} (hversion : c.version ≠ 1)
    (hat : At n c) (htext : isCifText v text = true)
    (ha : a = analyzeString text (!quoted) true lineLength)
    (hfits : a.delimLength = 3 → fits 0 text = true)
    (hunquoted : a.delimLength = 0 → ∀ m, P m text (m + text.length))
    (hdelimited : a.delimLength ≠ 0 → ∀ m raw k, Delimited text m raw k → P m raw k)
    (hblock : allowText = true → a.delimLength = 2 → ∀ content,
      writeContent a.folds a.containsTextDelim text = .ok content →
        P 0 (UChar.semi :: (content ++ [UChar.nl, UChar.semi])) 1) :
    Writes (writeChar text quoted allowText) c fun _ c' => Spaced n P c c' := by
  have hcr := cr_notMem_of_isCifTextFrom htext
  have hallowed : ¬ (c.version = 1 && !validateCif11Characters text) = true := by simp [hversion]
  rw [Writes, Ensures, writeChar, post_bind, post_read, if_neg hallowed]
  dsimp only
  rw [decide_eq_true hversion, ← ha]
  split
  · rename_i hzero
    obtain ⟨_, _, hmax, _, hmulti⟩ := quoteDelimiter?_fits (delim_of_delimLength ha (by omega))
    have hnum : (LineStats.ofString text).numLines = a.numLines := by rw [ha]; rfl
    have hmaxLine : (LineStats.ofString text).maxLine = a.lengthMax := by rw [ha]; rfl
    have hlength : a.delim.length = 0 := hzero
    have hone : a.numLines = 1 := by
      by_contra hne
      have hthree := (hmulti (hnum ▸ hne)).1
      omega
    have hwhole := (oneLine_of_numLines hcr ha hone).2.2
    have hne : text ≠ [] := by
      rintro rfl
      rw [ha] at hzero
      cases quoted <;> exact absurd hzero (by decide)
    rw [hwhole]
    rw [hmaxLine, hwhole] at hmax
    refine (writes_writeUnquoted hne (by omega) hat).imp (fun _ c' hwrote => ?_) (fun _ _ he => he)
    exact hwrote.spaced hat hne (hunquoted hzero)
  · rename_i hone
    refine (writes_quoted hcr ha hone hat).imp (fun _ c' hspaced => ?_) (fun _ _ he => he)
    exact hspaced.imp (hdelimited (by omega))
  · rename_i hthree
    refine (writes_tripleQuoted hcr ha hthree (hfits hthree) hat).imp (fun _ c' hspaced =>
      ?_) (fun _ _ he => he)
    exact hspaced.imp (hdelimited (by omega))
  · rename_i htwo
    split
    · trivial
    · rename_i hallow
      have hallowText : allowText = true := by
        cases allowText with
        | true => rfl
        | false => exact absurd rfl hallow
      exact writes_writeText hat (hblock hallowText htwo)
  · trivial

end Characters

section Numbers

variable {cfg : Config σ} {c : Context} {n : Nat}

theorem countChar32_of_not_isLead {text : UStr} (h : ∀ u ∈ text, isLead u = false) :
    countChar32 text = text.length := by
  induction text with
  | nil => rfl
  | cons u text ih =>
    rw [List.forall_mem_cons] at h
    cases text with
    | nil => rfl
    | cons w text =>
      rw [countChar32, h.1, Bool.false_and, if_neg (by simp), ih h.2]
      rfl

/-- The characters of numbers. -/
theorem mem_numbText {t : NumbText} {u : UChar} (h : u ∈ t.text) :
    (0x28 ≤ u ∧ u ≤ 0x39) ∨ u = UChar.upperE ∨ u = UChar.lowerE := by
  have hdigit : ∀ {d : UChar}, isDigit d = true → 0x28 ≤ d ∧ d ≤ 0x39 := by
    intro d hd
    rw [isDigit, Bool.and_eq_true, decide_eq_true_eq, decide_eq_true_eq] at hd
    exact ⟨Nat.le_trans (by decide) hd.1, hd.2⟩
  have hsign : ∀ {sign : Option UChar}, IsSign sign → u ∈ sign.toList → 0x28 ≤ u ∧ u ≤ 0x39 := by
    intro sign hs hu
    rcases hs u (Option.mem_toList.mp hu) with rfl | rfl <;> decide
  rw [NumbText.text, List.mem_append, List.mem_append, List.mem_append] at h
  rcases h with h | h | h | h
  · exact .inl (hsign t.sign_eq h)
  · rw [NumbText.mainText, mainPart, List.mem_append] at h
    rcases h with h | h
    · exact .inl (hdigit (t.whole_eq u h))
    · cases hfraction : t.fraction with
      | none => simp [hfraction] at h
      | some f =>
        rw [hfraction] at h
        rcases List.mem_cons.mp h with rfl | h
        · exact .inl (by decide)
        · exact .inl (hdigit (t.fraction_eq f hfraction u h))
  · rw [NumbText.expText] at h
    cases hexponent : t.exponent with
    | none => simp [hexponent] at h
    | some e =>
      rw [hexponent] at h
      rcases List.mem_cons.mp h with rfl | h
      · exact .inr e.mark_eq
      · rcases List.mem_append.mp h with h | h
        · exact .inl (hsign e.sign_eq h)
        · exact .inl (hdigit (e.digits_eq u h))
  · rw [NumbText.suText] at h
    cases hsu : t.su with
    | none => simp [hsu] at h
    | some su =>
      rw [hsu] at h
      rcases List.mem_cons.mp h with rfl | h
      · exact .inl (by decide)
      · rcases List.mem_append.mp h with h | h
        · exact .inl (hdigit ((t.su_eq su hsu).2 u h))
        · obtain rfl := List.mem_singleton.mp h
          exact .inl (by decide)

/-- Numbers do not begin with the mark of an exponent. -/
theorem head_numbText (t : NumbText) : ∃ u rest, t.text = u :: rest ∧ 0x28 ≤ u ∧ u ≤ 0x39 := by
  have hne := t.digits_ne
  rw [NumbText.text, NumbText.mainText, mainPart]
  cases hsign : t.sign with
  | some u =>
    refine ⟨u, _, rfl, ?_⟩
    rcases t.sign_eq u hsign with rfl | rfl <;> decide
  | none =>
    cases hwhole : t.whole with
    | cons u whole =>
      have hdigit := t.whole_eq u (by rw [hwhole]; exact List.mem_cons_self ..)
      rw [isDigit, Bool.and_eq_true, decide_eq_true_eq, decide_eq_true_eq] at hdigit
      exact ⟨u, _, rfl, Nat.le_trans (by decide) hdigit.1, hdigit.2⟩
    | nil =>
      cases hfraction : t.fraction with
      | none => exact absurd (by rw [hwhole, hfraction]; rfl) hne
      | some f => exact ⟨UChar.decimal, _, rfl, by decide⟩

theorem exists_digit_numbText (t : NumbText) : ∃ u ∈ t.text, isDigit u = true := by
  obtain ⟨u, rest, hdigits⟩ := List.exists_cons_of_ne_nil t.digits_ne
  have hmem : u ∈ t.whole ++ t.fraction.getD [] := by rw [hdigits]; exact List.mem_cons_self ..
  rw [NumbText.text, NumbText.mainText, mainPart]
  rcases List.mem_append.mp hmem with h | h
  · exact ⟨u, by simp [h], t.whole_eq u h⟩
  · cases hfraction : t.fraction with
    | none => simp [hfraction] at h
    | some f =>
      rw [hfraction] at h
      exact ⟨u, by simp [show u ∈ f from h], t.fraction_eq f hfraction u h⟩

/-- The units of numbers are ordinary ones. -/
theorem ordinary_of_numbText {u : Nat}
    (h : (0x28 ≤ u ∧ u ≤ 0x39) ∨ u = UChar.upperE ∨ u = UChar.lowerE) :
    isLead u = false ∧ u ∉ unquotedStops ∧ 0x20 ≤ u ∧ u ≤ 0x7e := by
  rw [Bool.eq_false_iff, ne_eq, isLead_iff]
  simp only [unquotedStops, List.mem_cons, List.not_mem_nil, or_false, UChar.tab, UChar.sp,
    UChar.nl, UChar.cr, UChar.obrk, UChar.cbrk, UChar.obrc, UChar.cbrc]
  simp only [UChar.upperE, UChar.lowerE] at h
  omega

theorem isReservedString_of_start {u : Nat} {rest : UStr} (h : 0x28 ≤ u ∧ u ≤ 0x39) :
    isReservedString (u :: rest) = false := by
  have hspecial : u ≠ UChar.under ∧ u ≠ UChar.dollar ∧ u ≠ UChar.sq ∧ u ≠ UChar.dq
      ∧ u ≠ UChar.hash := by
    simp only [UChar.under, UChar.dollar, UChar.sq, UChar.dq, UChar.hash]
    omega
  have hletter : ∀ upper : Nat, 0x40 < upper → isLetter upper u = false := by
    intro upper hupper
    have hupperCase : u ≠ upper := by omega
    have hlowerCase : u ≠ upper + 0x20 := by omega
    simp [isLetter, hupperCase, hlowerCase]
  rw [isReservedString]
  simp [hspecial, hletter]

/-- Numbers need no quotes. -/
theorem bare_numbText (t : NumbText) : Bare t.text := by
  obtain ⟨u, rest, htext, hlow, hhigh⟩ := head_numbText t
  obtain ⟨d, hmem, hdigit⟩ := exists_digit_numbText t
  have hne : ∀ {w : UChar}, t.text = [w] → isDigit w = true := by
    intro w hw
    rw [hw] at hmem
    exact List.mem_singleton.mp hmem ▸ hdigit
  refine ⟨by rw [htext]; simp, fun h => absurd (hne h) (by decide),
    fun h => absurd (hne h) (by decide), ?_, ?_⟩
  · rw [htext]
    exact isReservedString_of_start ⟨hlow, hhigh⟩
  · exact fun w hw => (ordinary_of_numbText (mem_numbText hw)).2.1

theorem isCifText_numbText {v : Int} (t : NumbText) : isCifText v t.text = true :=
  isCifText_units fun _ hu => (ordinary_of_numbText (mem_numbText hu)).2.2

/-- A number that is not quoted is written as it is. -/
theorem writes_writeNumb {number : Numb} {t : NumbText} (ht : t.text = number.text)
    (hlimit : number.text.length ≤ lineLength) (hat : At n c) :
    Writes (writeNumb number false) c fun _ c' =>
      WroteLiteral c.separateValues n number.text c c' := by
  obtain ⟨u, rest, htext, _⟩ := head_numbText t
  have hne : number.text ≠ [] := by
    rw [← ht, htext]
    simp
  have hcount : countChar32 number.text = number.text.length := by
    rw [← ht]
    exact countChar32_of_not_isLead fun w hw => (ordinary_of_numbText (mem_numbText hw)).1
  rw [Writes, Ensures, writeNumb, if_neg (by simp), post_bind, post_read, post_bind]
  have hsame : writeUliteral number.text none c.separateValues
      = writeUliteral number.text (some number.text.length) c.separateValues := by
    rw [writeUliteral, writeUliteral, Option.getD_none, Option.getD_some, hcount]
  rw [hsame]
  refine (writes_writeUliteral hne hlimit hat).imp ?_ (fun _ _ he => he)
  rintro r c' (⟨rfl, _, _⟩ | ⟨rfl, hwrote⟩)
  · rw [if_pos (by decide)]
    trivial
  · have hpos : 0 < number.text.length := List.length_pos_of_ne_nil hne
    rw [if_neg (by omega), if_pos (by omega)]
    exact hwrote

end Numbers

end Output

end CifApi
