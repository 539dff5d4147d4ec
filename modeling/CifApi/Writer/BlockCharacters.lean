import CifApi.Scanner.CifText
import CifApi.Writer.Framing

/-! Text blocks of allowed characters, which remain whole and allowed as they are cut. -/
namespace CifApi

variable {σ : Type}

section Cuts

variable {v : Int} {pending : Option UChar} {text rest : UStr} {d : UChar}

/-- Text that is cut between two characters is two texts. -/
theorem isCifTextFrom_cut (h : isCifTextFrom v pending (text ++ d :: rest) = true)
    (hpending : text = [] → pending = none)
    (hpair : ∀ c, text.getLast? = some c → isSurrogatePair c d = false) :
    isCifTextFrom v pending text = true ∧ isCifText v (d :: rest) = true := by
  induction text generalizing pending with
  | nil =>
    obtain rfl := hpending rfl
    exact ⟨rfl, h⟩
  | cons c text ih =>
    have hlast : ∀ e, text.getLast? = some e → isSurrogatePair e d = false := by
      intro e he
      cases text with
      | nil => simp at he
      | cons e' text => exact hpair e (by rwa [List.getLast?_cons_cons])
    rw [List.cons_append] at h
    cases pending with
    | none =>
      rw [isCifTextFrom] at h ⊢
      split at h
      · rename_i hlead
        rw [Bool.and_eq_true] at h
        rw [if_pos hlead, Bool.and_eq_true]
        have hne : text ≠ [] := by
          rintro rfl
          have htrail := h.2
          rw [List.nil_append, isCifTextFrom, Bool.and_eq_true, Bool.and_eq_true] at htrail
          have hno := hpair c rfl
          rw [isSurrogatePair, htrail.1.1, hlead] at hno
          simp at hno
        obtain ⟨htext, hrest⟩ := ih h.2 (fun hnil => absurd hnil hne) hlast
        exact ⟨⟨h.1, htext⟩, hrest⟩
      · rename_i hlead
        rw [Bool.and_eq_true] at h
        rw [if_neg hlead, Bool.and_eq_true]
        obtain ⟨htext, hrest⟩ := ih h.2 (fun _ => rfl) hlast
        exact ⟨⟨h.1, htext⟩, hrest⟩
    | some u =>
      rw [isCifTextFrom, Bool.and_eq_true] at h ⊢
      obtain ⟨htext, hrest⟩ := ih h.2 (fun _ => rfl) hlast
      exact ⟨⟨h.1, htext⟩, hrest⟩

theorem isCifText_lines {first : UStr} {lines : List UStr}
    (h : isCifText v (first ++ (lines.map (UChar.nl :: ·)).flatten) = true) :
    ∀ line ∈ first :: lines, isCifText v line = true := by
  induction lines generalizing first with
  | nil => simpa using h
  | cons next lines ih =>
    rw [List.map_cons, List.flatten_cons, List.cons_append] at h
    have hnl : ∀ c, isSurrogatePair c UChar.nl = false := by
      intro c
      rfl
    obtain ⟨hfirst, hrest⟩ := isCifTextFrom_cut h (fun _ => rfl) fun c _ => hnl c
    refine List.forall_mem_cons.mpr ⟨hfirst, ih ?_⟩
    have hunit : isLead UChar.nl = false := rfl
    rw [isCifText, isCifTextFrom, hunit, if_neg (by simp), Bool.and_eq_true] at hrest
    exact hrest.2

/-- The lines of a text are texts. -/
theorem isCifText_of_mem_splitOn (h : isCifText v text = true) :
    ∀ line ∈ text.splitOn UChar.nl, isCifText v line = true := by
  obtain ⟨first, lines, hsplit⟩ := List.exists_cons_of_ne_nil (List.splitOn_ne_nil UChar.nl text)
  rw [hsplit]
  rw [Marks.eq_of_splitOn hsplit] at h
  exact isCifText_lines h

end Cuts

section Writing

variable {v : Int} {fold forPrefix : Bool} {line out : UStr}

theorem isCifText_units {chars : UStr} (h : ∀ c ∈ chars, 0x20 ≤ c ∧ c ≤ 0x7e) :
    isCifText v chars = true :=
  isCifText_of_ascii fun c hc => .inr (.inr (h c hc))

theorem isCifText_prefixText : isCifText v (prefixText forPrefix) = true := by
  refine isCifText_units ?_
  cases forPrefix <;> decide

/-- A line is not folded within a character. -/
theorem isCifText_of_canFoldAt {len : Nat} (h : isCifText v line = true) (hpos : 0 < len)
    (hlen : len < line.length) (hcan : canFoldAt line forPrefix len = true) :
    isCifText v (line.take len) = true ∧ isCifText v (line.drop len) = true := by
  have hdrop : line.drop len = line.getD len 0 :: line.drop (len + 1) := by
    rw [List.drop_eq_getElem_cons hlen, List.getD_eq_getElem _ _ hlen]
  have hwhole : line.take len ++ line.getD len 0 :: line.drop (len + 1) = line := by
    rw [← hdrop, List.take_append_drop]
  rw [hdrop]
  refine isCifTextFrom_cut (by rwa [hwhole]) (fun _ => rfl) fun c hc => ?_
  rw [List.getLast?_take, if_neg (by omega), List.getElem?_eq_getElem (by omega),
    Option.some_or] at hc
  obtain rfl := Option.some.inj hc
  rw [canFoldAt, Bool.and_eq_true, Bool.not_eq_true',
    List.getD_eq_getElem _ _ (by omega : len - 1 < line.length)] at hcan
  exact hcan.2

theorem isCifText_writeSegments {protect : Bool} {n : Nat} (h : isCifText v line = true)
    (hout : writeSegments fold forPrefix protect n line = .ok out) : isCifText v out = true := by
  induction n generalizing line out with
  | zero =>
    obtain rfl := Except.ok.inj hout
    rfl
  | succ n ih =>
    rw [writeSegments] at hout
    split at hout
    · obtain rfl := Except.ok.inj hout
      rfl
    · have hparts : 0 < foldLine line fold targetLength foldingWindow forPrefix →
          isCifText v (line.take (foldLine line fold targetLength foldingWindow forPrefix)) = true
            ∧ isCifText v (line.drop (foldLine line fold targetLength foldingWindow forPrefix))
              = true := by
        intro hpos
        rcases @foldLine_cases line targetLength foldingWindow forPrefix fold (by decide) with
          ⟨hwhole, _⟩ | ⟨_, _, hpos, hlt, hcan⟩ | ⟨_, _, hzero, _⟩
        · rw [hwhole, List.take_length, List.drop_length]
          exact ⟨h, rfl⟩
        · exact isCifText_of_canFoldAt h hpos hlt hcan
        · omega
      dsimp only at hout
      split at hout
      · simp at hout
      · rename_i hlen
        obtain ⟨rest, hrest, hout⟩ := bind_eq_ok.mp hout
        obtain rfl := Except.ok.inj hout
        obtain ⟨htake, hdrop⟩ := hparts (by omega)
        have hmark : isCifText v
            (if line.drop (foldLine line fold targetLength foldingWindow forPrefix) ≠ [] || protect
            then [UChar.bsl] else []) = true := by
          refine isCifText_units ?_
          split <;> decide
        have hnl : isCifText v [UChar.nl] = true := isCifText_of_ascii (by decide)
        refine isCifTextFrom_append (isCifTextFrom_append (isCifTextFrom_append ?_ htake) hmark)
          (ih hdrop hrest)
        exact isCifTextFrom_append hnl isCifText_prefixText

theorem isCifText_writeLogicalLine (h : isCifText v line = true)
    (hout : writeLogicalLine fold forPrefix line = .ok out) :
    isCifText v out = true := by
  obtain ⟨body, hbody, hout⟩ := bind_eq_ok.mp hout
  obtain rfl := Except.ok.inj hout
  refine isCifTextFrom_append (isCifText_writeSegments h hbody) (isCifText_of_ascii ?_)
  split <;> decide

theorem isCifText_writeLogicalLines {lines : List UStr}
    (h : ∀ line ∈ lines, isCifText v line = true)
    (hout : writeLogicalLines fold forPrefix lines = .ok out) : isCifText v out = true := by
  induction lines generalizing out with
  | nil =>
    obtain rfl := Except.ok.inj hout
    rfl
  | cons line lines ih =>
    rw [List.forall_mem_cons] at h
    cases lines with
    | nil => exact isCifText_writeLogicalLine h.1 hout
    | cons next lines =>
      rw [writeLogicalLines] at hout
      obtain ⟨first, hfirst, hout⟩ := bind_eq_ok.mp hout
      obtain ⟨rest, hrest, hout⟩ := bind_eq_ok.mp hout
      obtain rfl := Except.ok.inj hout
      refine isCifTextFrom_append ?_ (ih h.2 hrest)
      rw [writeTerminatedLine] at hfirst
      split at hfirst
      · obtain rfl := Except.ok.inj hfirst
        exact isCifText_of_ascii (by decide)
      · exact isCifText_writeLogicalLine h.1 hfirst

/-- Only allowed characters are written of a text of such characters. -/
theorem isCifText_writeContent {text content : UStr} (h : isCifText v text = true)
    (hcontent : writeContent fold forPrefix text = .ok content) : isCifText v content = true := by
  rw [writeContent] at hcontent
  split at hcontent
  · obtain rfl := Except.ok.inj hcontent
    exact h
  · obtain ⟨body, hbody, hcontent⟩ := bind_eq_ok.mp hcontent
    obtain rfl := Except.ok.inj hcontent
    refine isCifTextFrom_append ?_ (isCifText_writeLogicalLines (isCifText_of_mem_splitOn h) hbody)
    refine isCifText_units ?_
    cases fold <;> cases forPrefix <;> decide

end Writing

section Block

variable {cfg : Config σ} {text content : UStr} {allowUnquoted allowTripleQuoted : Bool}
  {a : StringAnalysis}

theorem separates_of_no_cr {fold : Bool} {line : UStr} (hcr : UChar.cr ∉ line) :
    Separates fold line := by
  by_cases hwhole : fold = false ∨ line.length ≤ targetLength + foldingWindow
  · exact .whole hwhole fun h => hcr (h.subset (List.mem_cons_self ..))
  · obtain ⟨hfold, hlong⟩ := not_or.mp hwhole
    obtain rfl : fold = true := by simpa using hfold
    rw [separates_iff_of_long (Nat.not_le.mp hlong)]
    have hpos : 0 < foldLine line true targetLength foldingWindow true := by
      rcases @foldLine_cases line targetLength foldingWindow true true (by decide) with
        ⟨hlength, _⟩ | ⟨_, _, hpos, _⟩ | ⟨_, _, _, hnone⟩
      · omega
      · exact hpos
      · have htwo : 2 < line.length := Nat.lt_trans (by decide) (Nat.not_le.mp hlong)
        obtain ⟨len, hlen, hlt, hcan⟩ := exists_canFoldAt htwo
        rw [hnone len hlen hlt] at hcan
        exact absurd hcan (by simp)
    have hshorter : (line.drop (foldLine line true targetLength foldingWindow true)).length
        < line.length := by
      rw [List.length_drop]
      omega
    exact ⟨fun h => hcr (List.mem_of_mem_take (h.subset (List.mem_cons_self ..))),
      separates_of_no_cr fun h => hcr (List.mem_of_mem_drop h)⟩
  termination_by line.length

/-- Where a text block is recommended, a first line that looks as if it said how the block is
written is told of. -/
theorem hasReservedStart_of_delimLength (hcr : UChar.cr ∉ text)
    (ha : a = analyzeString text allowUnquoted allowTripleQuoted lineLength)
    (hdelim : a.delimLength = 2) {before blanks : UStr}
    (hfirst : (text.splitOn UChar.nl).head? = some (before ++ UChar.bsl :: blanks))
    (hblanks : ∀ c ∈ blanks, c = UChar.tab ∨ c = UChar.sp)
    (hsemi : (before ++ UChar.bsl :: blanks).head? ≠ some UChar.semi) :
    a.hasReservedStart = true := by
  have hnone : quoteDelimiter? text allowUnquoted allowTripleQuoted lineLength
      (LineStats.ofString text) = none := by
    cases hquote : quoteDelimiter? text allowUnquoted allowTripleQuoted lineLength
      (LineStats.ofString text) with
    | none => rfl
    | some delim =>
      have hlength := (quoteDelimiter?_fits hquote).2.1
      rw [ha, StringAnalysis.delimLength, analyzeString, hquote] at hdelim
      exact absurd hdelim hlength
  have hmeasured : a.Measured text := ha ▸ analyzeString_measured (firstIsCrlf_of_no_cr hcr) ..
  obtain ⟨lines, hlines⟩ := List.head?_eq_some_iff.mp hfirst
  rw [← stringLines_of_no_cr hcr] at hlines
  have hlength : (before ++ UChar.bsl :: blanks).length = (LineStats.ofString text).firstLine := by
    have h := hmeasured.lengthFirst
    rw [hlines, ha] at h
    exact Option.some.inj h
  obtain ⟨rest, rfl⟩ := prefix_of_stringLines hlines
  have hstart : ((before ++ UChar.bsl :: blanks) ++ rest).getD 0 0 ≠ UChar.semi := by
    cases before <;> simp_all
  rw [ha, analyzeString, hnone, ← hlength, List.take_left, endsInBackslash_reverse hblanks]
  simpa using hstart

/-- A text in a block ends where the block does, and is decoded as it was. -/
theorem writeContent_block (hcfg : cfg.Standard) (hu : 0 < cfg.lineUnfolding)
    (hp : 0 < cfg.prefixRemoving) (htext : isCifText cfg.cifVersion text = true)
    (ha : a = analyzeString text allowUnquoted allowTripleQuoted lineLength)
    (hdelim : a.delimLength = 2)
    (hlast : a.folds = true ∨ a.containsTextDelim = true → text.getLast? ≠ some UChar.nl)
    (hhead : a.folds = true → a.containsTextDelim = false → text.head? ≠ some UChar.semi)
    (hcontent : writeContent a.folds a.containsTextDelim text = .ok content) :
    ¬ textDelim <:+: content ∧ decodeText cfg content = text := by
  have hcr := cr_notMem_of_isCifTextFrom htext
  have hzero := zero_notMem_of_isCifTextFrom htext
  have hpair : ∀ {s : UStr}, ¬ HasDelim s → ¬ textDelim <:+: s := fun hno h => hno ⟨_, .inl rfl, h⟩
  have hdelimiter : a.containsTextDelim = true ↔ HasDelim text := by
    rw [ha]
    exact containsTextDelim_iff text allowUnquoted allowTripleQuoted lineLength
  by_cases hraw : a.folds = false ∧ a.containsTextDelim = false
  · obtain rfl : text = content := by simpa [writeContent, hraw] using hcontent
    refine ⟨hpair fun h => absurd (hdelimiter.mpr h) (by simp [hraw]), ?_⟩
    refine decodeText_of_unreserved hcfg hu hp hcr hzero fun before blanks hfirst hblanks => ?_
    by_contra hsemi
    have hreserved := hasReservedStart_of_delimLength hcr ha hdelim hfirst hblanks hsemi
    simp [StringAnalysis.folds, hreserved] at hraw
  · have hused : a.folds = true ∨ a.containsTextDelim = true := by
      cases hfolds : a.folds <;> simp_all
    have hne : text ≠ [] := by
      rintro rfl
      rw [ha] at hdelim
      cases allowUnquoted <;> cases allowTripleQuoted <;> exact absurd hdelim (by decide)
    constructor
    · refine hpair fun h => ?_
      have hplain : a.containsTextDelim = false → ¬ HasDelim text := by
        rw [← hdelimiter]
        simp
      obtain ⟨line, hline, hexposes⟩ := (hasDelim_writeContent hused hplain hcontent).mp h
      cases hmarked : a.containsTextDelim with
      | true =>
        rw [Exposes, if_pos hmarked] at hexposes
        exact hexposes (separates_of_no_cr fun h => hcr (Marks.mem_of_mem_splitOn hline h))
      | false =>
        rw [hmarked] at hexposes
        refine hhead (hused.resolve_right (by simp [hmarked])) hmarked ?_
        exact (exists_exposes_iff (hplain hmarked)).mp ⟨line, hline, hexposes⟩
    · rw [decodeText_writeContent hcfg hu hp hused hne hcr hzero hcontent, visibleLines, if_neg,
        List.intercalate_splitOn]
      intro hempty
      rcases Marks.eq_of_getLast_splitOn hempty with hnil | hnl
      · exact hne hnil
      · exact hlast hused hnl

end Block

end CifApi
