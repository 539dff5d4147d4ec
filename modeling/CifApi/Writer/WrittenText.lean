import Mathlib.Data.List.Forall2
import CifApi.Writer.TextSegments

/-! Text blocks as they are written and decoded again. -/
namespace CifApi

variable {σ : Type}

section Lines

variable {fold forPrefix : Bool}

/-- A logical line and how it is written: an empty one as it is, another one in segments. -/
inductive WrittenAs (fold forPrefix : Bool) : UStr → CutLine UChar → Prop
  | empty : WrittenAs fold forPrefix [] ⟨[], []⟩
  | segments {line last : UStr} {segments : List UStr}
    (h : Segments fold forPrefix line segments last) :
    WrittenAs fold forPrefix line (.ofSegments (protects fold line) segments last)

theorem writeLogicalLine_eq_ok {line out : UStr} (hne : line ≠ [])
    (h : writeLogicalLine fold forPrefix line = .ok out) :
    ∃ c, WrittenAs fold forPrefix line c ∧ out = printed List.isEmpty forPrefix [c] := by
  obtain ⟨body, hbody, h⟩ := bind_eq_ok.mp h
  obtain ⟨segments, last, hsegments, rfl⟩ := writeSegments_eq_ok (Nat.le_refl _) hne hbody
  obtain rfl := Except.ok.inj h
  refine ⟨_, .segments hsegments, ?_⟩
  rw [printed_ofSegments hsegments]
  cases protects fold line <;> simp

theorem writeLogicalLine_nil : writeLogicalLine fold forPrefix [] = .ok [] := by
  cases fold <;> rfl

/-- Lines that can be written are written one after another. -/
theorem writeLogicalLines_eq_ok {lines : List UStr} {out : UStr}
    (h : writeLogicalLines fold forPrefix lines = .ok out) :
    ∃ cs, List.Forall₂ (WrittenAs fold forPrefix) (visibleLines lines) cs
      ∧ out = printed List.isEmpty forPrefix cs := by
  induction lines generalizing out with
  | nil =>
    obtain rfl := Except.ok.inj h
    exact ⟨[], .nil, rfl⟩
  | cons line lines ih =>
    cases lines with
    | nil =>
      rw [writeLogicalLines] at h
      by_cases hne : line = []
      · subst hne
        obtain rfl := Except.ok.inj (writeLogicalLine_nil.symm.trans h)
        exact ⟨[], .nil, rfl⟩
      · obtain ⟨c, hc, rfl⟩ := writeLogicalLine_eq_ok hne h
        refine ⟨[c], ?_, rfl⟩
        simp only [visibleLines, List.getLast?_singleton, Option.some.injEq, hne, if_false]
        exact .cons hc .nil
    | cons next lines =>
      rw [writeLogicalLines] at h
      obtain ⟨first, hfirst, h⟩ := bind_eq_ok.mp h
      obtain ⟨rest, hrest, h⟩ := bind_eq_ok.mp h
      obtain ⟨cs, hcs, rfl⟩ := ih hrest
      obtain rfl := Except.ok.inj h
      rw [visibleLines_cons]
      by_cases hne : line = []
      · subst hne
        obtain rfl := Except.ok.inj hfirst
        exact ⟨⟨[], []⟩ :: cs, .cons .empty hcs, rfl⟩
      · rw [writeTerminatedLine, if_neg hne] at hfirst
        obtain ⟨c, hc, rfl⟩ := writeLogicalLine_eq_ok hne hfirst
        exact ⟨c :: cs, .cons hc hcs, (printed_cons c cs).symm⟩

theorem writeLogicalLine_eq_ok_iff {line : UStr} :
    (∃ out, writeLogicalLine fold forPrefix line = .ok out)
    ↔ ¬ (fold = true ∧ forPrefix = false ∧ ∃ s, s <:+ line ∧ Unfoldable s) := by
  rw [← @writeSegments_eq_ok_iff fold forPrefix (protects fold line) _ _ (Nat.le_refl line.length)]
  constructor
  · rintro ⟨out, hout⟩
    obtain ⟨body, hbody, _⟩ := bind_eq_ok.mp hout
    exact ⟨body, hbody⟩
  · rintro ⟨body, hbody⟩
    exact ⟨_, bind_eq_ok.mpr ⟨body, hbody, rfl⟩⟩

/-- Lines can be written just where each of them can. -/
theorem writeLogicalLines_eq_ok_iff {lines : List UStr} :
    (∃ out, writeLogicalLines fold forPrefix lines = .ok out)
    ↔ ∀ line ∈ lines, ¬ (fold = true ∧ forPrefix = false ∧ ∃ s, s <:+ line ∧ Unfoldable s) := by
  induction lines with
  | nil => exact ⟨fun _ _ h => absurd h List.not_mem_nil, fun _ => ⟨[], rfl⟩⟩
  | cons line lines ih =>
    cases lines with
    | nil => simpa [writeLogicalLines] using @writeLogicalLine_eq_ok_iff fold forPrefix line
    | cons next lines =>
      have hfirst : (∃ out, writeTerminatedLine fold forPrefix line = .ok out)
          ↔ ∃ out, writeLogicalLine fold forPrefix line = .ok out := by
        unfold writeTerminatedLine
        by_cases hne : line = []
        · subst hne
          exact ⟨fun _ => ⟨[], writeLogicalLine_nil⟩, fun _ => ⟨_, rfl⟩⟩
        · rw [if_neg hne]
      rw [List.forall_mem_cons, ← ih, ← writeLogicalLine_eq_ok_iff, ← hfirst]
      constructor
      · rintro ⟨out, hout⟩
        rw [writeLogicalLines] at hout
        obtain ⟨first, hfirst, hout⟩ := bind_eq_ok.mp hout
        obtain ⟨rest, hrest, _⟩ := bind_eq_ok.mp hout
        exact ⟨⟨first, hfirst⟩, rest, hrest⟩
      · rintro ⟨⟨first, hfirst⟩, rest, hrest⟩
        exact ⟨_, bind_eq_ok.mpr ⟨first, hfirst, bind_eq_ok.mpr ⟨rest, hrest, rfl⟩⟩⟩

end Lines

section Encode

variable {cfg : Config σ} {fold forPrefix : Bool}

theorem protects_append {before blanks : UStr} (h : ∀ c ∈ blanks, c = UChar.tab ∨ c = UChar.sp) :
    protects fold (before ++ UChar.bsl :: blanks) = fold := by
  have hblanks : ∀ protect, blanks.foldl (fun protect c =>
      if c = UChar.tab || c = UChar.sp then protect else if c = UChar.bsl then fold
        else false) protect = protect := by
    intro protect
    induction blanks with
    | nil => rfl
    | cons c blanks ih =>
      have hc := h c (List.mem_cons_self ..)
      rw [List.foldl_cons, if_pos (by simpa using hc),
        ih fun d hd => h d (List.mem_cons_of_mem _ hd)]
  have hne : UChar.bsl ≠ UChar.tab ∧ UChar.bsl ≠ UChar.sp := by decide
  rw [protects, List.foldl_append, List.foldl_cons, hblanks]
  simp [hne]

theorem protects_false (line : UStr) : protects false line = false := by
  unfold protects
  induction line with
  | nil => rfl
  | cons c line ih =>
    have hstep : (if c = UChar.tab || c = UChar.sp then false else if c = UChar.bsl then false else
        false) = false := by
      simp
    rw [List.foldl_cons, hstep, ih]

/-- The end of a line that needs no protection is not taken for a cut. -/
theorem WrittenAs.writes {line : UStr} {c : CutLine UChar} (h : WrittenAs fold forPrefix line c) :
    Writes fold line c := by
  cases h with
  | empty => exact ⟨rfl, by simp, fun _ => rfl, by simp⟩
  | @segments _ last segments hsegments =>
    refine ⟨by rw [CutLine.text_ofSegments, hsegments.line_eq], CutLine.blanks_ofSegments, ?_, ?_⟩
    · rintro rfl
      simp [CutLine.ofSegments, protects_false, hsegments.unfolded rfl]
    · rintro rfl before blanks hrest
      by_contra hblanks
      push Not at hblanks
      cases hprotects : protects true line with
      | true => simp [CutLine.ofSegments, hprotects] at hrest
      | false =>
        simp only [CutLine.ofSegments, hprotects, Bool.false_eq_true, if_false] at hrest
        have htrue := @protects_append true (segments.flatten ++ before) blanks hblanks
        rw [List.append_assoc, ← hrest, hsegments.line_eq] at htrue
        simp [hprotects] at htrue

/-- Text that is written by the protocols is decoded to its lines, but for an empty last one. -/
theorem decodeText_writeContent (h : cfg.Standard) (hu : 0 < cfg.lineUnfolding)
    (hp : 0 < cfg.prefixRemoving) (hused : fold = true ∨ forPrefix = true) {text content : UStr}
    (hne : text ≠ []) (hcr : UChar.cr ∉ text) (hzero : 0 ∉ text)
    (hcontent : writeContent fold forPrefix text = .ok content) :
    decodeText cfg content = [UChar.nl].intercalate (visibleLines (text.splitOn UChar.nl)) := by
  have hon : ¬ ((!fold && !forPrefix) = true) := by
    rcases hused with rfl | rfl <;> simp
  rw [writeContent, if_neg hon] at hcontent
  obtain ⟨body, hbody, hcontent⟩ := bind_eq_ok.mp hcontent
  obtain ⟨cs, hcs, rfl⟩ := writeLogicalLines_eq_ok hbody
  obtain rfl := Except.ok.inj hcontent
  exact decodeText_printed h hu hp hused (hcs.imp fun _ _ hc => hc.writes) (visibleLines_ne_nil hne)
    (fun _ => List.isEmpty_iff.mp) fun _ hline _ hc => unit_of_mem_visibleLines hcr hzero hline hc

theorem writeText_eq_ok {text content : UStr} :
    writeText fold forPrefix text = .ok (textDelim ++ content ++ textDelim)
    ↔ writeContent fold forPrefix text = .ok content := by
  unfold writeText
  rw [bind_eq_ok]
  constructor
  · rintro ⟨content', hcontent, heq⟩
    have heq := Except.ok.inj heq
    simp only [List.append_assoc, List.append_cancel_left_eq, List.append_cancel_right_eq] at heq
    rw [← heq, hcontent]
  · exact fun hcontent => ⟨content, hcontent, rfl⟩

/-- A text can be written by the protocols just where each line of it can. -/
theorem writeContent_eq_ok_iff (hused : fold = true ∨ forPrefix = true) {text : UStr} :
    (∃ content, writeContent fold forPrefix text = .ok content)
      ↔ ∀ line ∈ text.splitOn UChar.nl, ¬ (fold = true ∧ forPrefix = false ∧ ∃ s, s <:+ line
        ∧ Unfoldable s) := by
  have hon : ¬ ((!fold && !forPrefix) = true) := by
    rcases hused with rfl | rfl <;> simp
  rw [← writeLogicalLines_eq_ok_iff, writeContent, if_neg hon]
  constructor
  · rintro ⟨content, hcontent⟩
    obtain ⟨body, hbody, _⟩ := bind_eq_ok.mp hcontent
    exact ⟨body, hbody⟩
  · rintro ⟨body, hbody⟩
    exact ⟨_, bind_eq_ok.mpr ⟨body, hbody, rfl⟩⟩

/-- A text block is decoded to the text just where it is neither folded nor prefixed, or the text
does not end in a line feed and each line can be written. -/
theorem decodeText_writeText_iff (h : cfg.Standard) (hu : 0 < cfg.lineUnfolding)
    (hp : 0 < cfg.prefixRemoving) {text : UStr} (hne : text ≠ []) (hcr : UChar.cr ∉ text)
    (hzero : 0 ∉ text) {allowUnquoted allowTripleQuoted : Bool} {a : StringAnalysis}
    (ha : a = analyzeString text allowUnquoted allowTripleQuoted lineLength)
    (hdelim : a.delim = textDelim) :
    (∃ content, writeText a.folds a.containsTextDelim text = .ok (textDelim ++ content ++ textDelim)
      ∧ decodeText cfg content = text)
    ↔ (a.folds = false ∧ a.containsTextDelim = false) ∨ (text.getLast? ≠ some UChar.nl
      ∧ ∀ line ∈ text.splitOn UChar.nl,
        ¬ (a.folds = true ∧ a.containsTextDelim = false ∧ ∃ s, s <:+ line ∧ Unfoldable s)) := by
  have hexact : a.Exact text := by
    rw [ha]
    exact (analyzeString_exact_iff _ _ _ _).mpr (by simp [firstIsCrlf_of_no_cr hcr])
  simp only [writeText_eq_ok]
  by_cases hraw : a.folds = false ∧ a.containsTextDelim = false
  · refine ⟨fun _ => .inl hraw, fun _ => ⟨text, by simp [writeContent, hraw], ?_⟩⟩
    refine decodeText_of_unreserved h hu hp hcr hzero fun before blanks hhead hblanks => ?_
    by_contra hsemi
    rw [← stringLines_of_no_cr hcr] at hhead
    have hreserved := hexact.hasReservedStart hdelim before blanks hhead hblanks hsemi
    simp [StringAnalysis.folds, hreserved] at hraw
  · have hused : a.folds = true ∨ a.containsTextDelim = true := by
      cases hfolds : a.folds <;> simp_all
    rw [or_iff_right hraw, ← writeContent_eq_ok_iff hused]
    have hdecode := @decodeText_writeContent _ cfg a.folds a.containsTextDelim h hu hp hused text
    constructor
    · rintro ⟨content, hcontent, heq⟩
      refine ⟨?_, content, hcontent⟩
      intro hlast
      obtain ⟨t, rfl⟩ := List.getLast?_eq_some_iff.mp hlast
      rw [hdecode hne hcr hzero hcontent, visibleLines_append, List.intercalate_splitOn] at heq
      simp at heq
    · rintro ⟨hlast, content, hcontent⟩
      refine ⟨content, hcontent, ?_⟩
      rw [hdecode hne hcr hzero hcontent, visibleLines, if_neg, List.intercalate_splitOn]
      intro hempty
      rcases Marks.eq_of_getLast_splitOn hempty with hnil | hnl
      · exact hne hnil
      · exact hlast hnl

/-- A text with folded lines and prefixes is decoded as it was. -/
theorem decodeText_writeText_folded :
    let cfg : Config Unit := .initV2 (Options.create .ignoring Icu.ascii Platform.exact 2)
    let text := units "'''\"\"\"\\\n;b \n\nc\\ "
    let a := analyzeString text true true lineLength
    a.folds = true ∧ a.containsTextDelim = true
      ∧ ∃ content, writeText a.folds a.containsTextDelim text
        = .ok (textDelim ++ content ++ textDelim)
        ∧ decodeText cfg content = text := by
  refine ⟨by decide +kernel, by decide +kernel, ?_⟩
  refine (decodeText_writeText_iff (.inl rfl) (by decide) (by decide) (by decide) (by decide)
    (by decide) rfl (by decide +kernel)).mpr (.inr ⟨by decide, fun line _ hline => ?_⟩)
  exact absurd hline.2.1 (by decide +kernel)

/-- A text that ends in a line feed loses it where it is folded. -/
theorem decodeText_writeText_lineFeed :
    let cfg : Config Unit := .initV2 (Options.create .ignoring Icu.ascii Platform.exact 2)
    let text := units "'''\"\"\"\\\n"
    let content := units "\\\n'''\"\"\"\\\\\n"
    let a := analyzeString text true true lineLength
    a.delim = textDelim ∧ writeText a.folds a.containsTextDelim text
      = .ok (textDelim ++ content ++ textDelim)
      ∧ decodeText cfg content = units "'''\"\"\"\\"
      ∧ ¬ ∃ content, writeText a.folds a.containsTextDelim text
        = .ok (textDelim ++ content ++ textDelim)
        ∧ decodeText cfg content = text := by
  intro cfg text content a
  have hwrite : writeText a.folds a.containsTextDelim text
      = .ok (textDelim ++ content ++ textDelim) := by decide +kernel
  refine ⟨by decide +kernel, hwrite, by decide +kernel, ?_⟩
  rintro ⟨content', hcontent, hdecode⟩
  rw [hwrite] at hcontent
  obtain rfl : content = content' := by simpa using hcontent
  revert hdecode
  decide +kernel

end Encode

end CifApi
