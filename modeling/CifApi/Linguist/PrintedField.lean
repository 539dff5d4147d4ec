import Mathlib.Data.List.Forall2
import CifApi.Linguist.FoldLength

/-! Text fields as the linguist program prints them and as they are decoded again. -/
namespace CifApi.Linguist

variable {σ : Type}

section Segments

variable {doPrefix : Bool}

/-- The assertions hold, and the line is printed in segments, the last of them protected where it
needs to be. -/
theorem printSegments_eq_some {n : Nat} {line out : UStr} (hn : line.length ≤ n) (hne : line ≠ [])
    (h : printSegments doPrefix n line = some out) : ∃ segments last,
      Segments true doPrefix line segments last
      ∧ UChar.nl :: out
        = printed List.isEmpty doPrefix [.ofSegments (protectsEnd last) segments last]
          ++ [UChar.nl] := by
  induction n generalizing line out with
  | zero => exact absurd (List.eq_nil_of_length_eq_zero (Nat.le_zero.mp hn)) hne
  | succ n ih =>
    have hcases :=
      @computeFoldLength_cases line (foldTarget doPrefix) foldWindow doPrefix (by cases doPrefix
      <;> decide)
    rw [printSegments] at h
    generalize computeFoldLength line (foldTarget doPrefix) foldWindow doPrefix = len at h hcases
    simp only at h
    split at h
    · rename_i hlen
      split at h
      · obtain rfl := Option.some.inj h
        refine ⟨[], line, .whole hne, ?_⟩
        rw [printed_ofSegments (@Segments.whole true doPrefix line hne)]
        cases hprotects : protectsEnd line <;> simp_all
      · rename_i hnot
        obtain ⟨rest, hrest, h⟩ := Option.bind_eq_some_iff.mp h
        obtain rfl := Option.some.inj h
        obtain ⟨segments, last, hsegments, hprinted⟩ := ih (by simp; omega) (by simp; omega) hrest
        have hcons : Segments true doPrefix line (line.take len :: segments) last := by
          refine hsegments.cons hlen.1 ?_
          rintro rfl hsemi
          have hget : line.getD len 0 = UChar.semi := by simp [hsemi]
          rcases hcases with ⟨hwhole, _⟩ | ⟨_, _, _, _, hcategory⟩ | ⟨_, _, _, _, hother⟩
            | ⟨_, _, hzero, _⟩
          · exact hnot hwhole
          · exact hcategory (foldCategory_semi hget)
          · exact hother hget
          · omega
        refine ⟨line.take len :: segments, last, hcons, ?_⟩
        rw [printed_ofSegments hcons, List.flatMap_cons]
        rw [printed_ofSegments hsegments] at hprinted
        simp only [List.append_assoc, List.cons_append, List.nil_append] at hprinted ⊢
        rw [hprinted]
    · simp at h

theorem printSegments_eq_some_of_lt {n : Nat} {line : UStr}
    (hpos : 0 < computeFoldLength line (foldTarget doPrefix) foldWindow doPrefix)
    (hlt : computeFoldLength line (foldTarget doPrefix) foldWindow doPrefix < line.length) :
    (∃ out, printSegments doPrefix (n + 1) line = some out)
      ↔ ∃ rest, printSegments doPrefix n
        (line.drop (computeFoldLength line (foldTarget doPrefix) foldWindow doPrefix))
          = some rest := by
  rw [printSegments]
  simp only
  rw [if_pos ⟨hpos, Nat.le_of_lt hlt⟩, if_neg (Nat.ne_of_lt hlt)]
  constructor
  · rintro ⟨out, hout⟩
    obtain ⟨rest, hrest, _⟩ := Option.bind_eq_some_iff.mp hout
    exact ⟨rest, hrest⟩
  · rintro ⟨rest, hrest⟩
    exact ⟨_, Option.bind_eq_some_iff.mpr ⟨rest, hrest, rfl⟩⟩

/-- The assertions hold for a line just where, without a prefix, it does not end in what is never
folded. -/
theorem printSegments_eq_some_iff {n : Nat} {line : UStr} (hn : line.length ≤ n) (hne : line ≠ []) :
    (∃ out, printSegments doPrefix n line = some out) ↔
      ¬ (doPrefix = false ∧ ∃ s, s <:+ line ∧ Stuck s) := by
  induction n generalizing line with
  | zero => exact absurd (List.eq_nil_of_length_eq_zero (Nat.le_zero.mp hn)) hne
  | succ n ih =>
    have hlength : 0 < line.length := List.length_pos_of_ne_nil hne
    have hwindow : 0 < foldTarget doPrefix - foldWindow := by cases doPrefix <;> decide
    have hlast : ∀ len, 0 < len → len < line.length →
        (doPrefix = false → ∀ t s, line = t ++ s → Stuck s → len ≤ t.length) →
        ((∃ rest, printSegments doPrefix n (line.drop len) = some rest)
          ↔ ¬ (doPrefix = false ∧ ∃ s, s <:+ line ∧ Stuck s)) := by
      intro len hpos hlt hstuck
      rw [ih (by simp; omega) (by simp; omega)]
      refine not_congr (and_congr_right fun hpre => ?_)
      constructor
      · exact fun ⟨s, hs, h⟩ => ⟨s, hs.trans (List.drop_suffix _ _), h⟩
      · rintro ⟨s, ⟨t, ht⟩, hs⟩
        -- the line is folded before what cannot be
        have hle := hstuck hpre t s ht.symm hs
        exact ⟨s, ⟨t.drop len, by rw [← ht, List.drop_append_of_le_length hle]⟩, hs⟩
    have hstuck : doPrefix = false → ∀ t s, line = t ++ s → Stuck s →
        computeFoldLength line (foldTarget doPrefix) foldWindow doPrefix ≤ t.length := by
      rintro rfl t s rfl hs
      exact hs.computeFoldLength_le t
    rcases @computeFoldLength_cases line (foldTarget doPrefix) foldWindow doPrefix
      (by cases doPrefix <;> decide) with
      ⟨hwhole, hshort⟩ | ⟨hlong, _, hlow, hhigh, _⟩ | ⟨hlong, _, hpos, hhigh, _⟩
        | ⟨hlong, hquiet, hzero, hsemis⟩
    · rw [printSegments]
      simp only [hwhole]
      rw [if_pos ⟨hlength, Nat.le_refl _⟩, if_pos trivial]
      refine ⟨?_, fun _ => ⟨_, rfl⟩⟩
      rintro _ ⟨rfl, s, hs, hstuck⟩
      have hle := hs.length_le
      have hlong := hstuck.long
      omega
    · rw [printSegments_eq_some_of_lt (by omega) (by omega)]
      exact hlast _ (by omega) (by omega) hstuck
    · rw [printSegments_eq_some_of_lt hpos (by omega)]
      exact hlast _ hpos (by omega) hstuck
    · rw [printSegments]
      simp only [hzero]
      rw [if_neg (by omega)]
      refine ⟨by simp, fun hnot => absurd ?_ hnot⟩
      cases doPrefix with
      | true => exact absurd hquiet (not_quiet_true (by decide) (by decide))
      | false => exact ⟨rfl, line, List.suffix_refl _, hlong, hquiet, hsemis⟩

theorem printSegments_nil : printSegments doPrefix 1 [] = none := by
  cases doPrefix <;> rfl

end Segments

section Lines

variable {doFold doPrefix : Bool}

/-- A logical line and how it is printed: whole, or folded. -/
inductive PrintedAs (doFold doPrefix : Bool) : UStr → CutLine UChar → Prop
  | whole {line : UStr} (h : doFold = false) : PrintedAs doFold doPrefix line ⟨[], line⟩
  | segments {line last : UStr} {segments : List UStr} (hfold : doFold = true)
    (h : Segments true doPrefix line segments last) :
    PrintedAs doFold doPrefix line (.ofSegments (protectsEnd last) segments last)

/-- Where lines are folded, an empty one is printed without the prefix. -/
def bareLine (doFold : Bool) (line : UStr) : Bool := doFold && line.isEmpty

theorem protectsEnd_of_blanks {before blanks : UStr}
    (h : ∀ d ∈ blanks, d = UChar.tab ∨ d = UChar.sp) :
    protectsEnd (before ++ UChar.bsl :: blanks) = true := by
  unfold protectsEnd
  rw [List.getLast?_append, List.getLast?_cons]
  cases hlast : blanks.getLast? with
  | none => simp
  | some d =>
    rcases h d (List.mem_of_getLast? hlast) with rfl | rfl <;> simp

theorem PrintedAs.writes {line : UStr} {c : CutLine UChar} (h : PrintedAs doFold doPrefix line c) :
    Writes doFold line c := by
  cases h with
  | whole hfold => exact ⟨rfl, by simp, fun _ => rfl, by simp [hfold]⟩
  | @segments last segments hfold hsegments =>
    refine ⟨by rw [CutLine.text_ofSegments, hsegments.line_eq], CutLine.blanks_ofSegments,
      by simp [hfold], ?_⟩
    rintro _ before blanks hrest
    by_contra hblanks
    push Not at hblanks
    cases hprotects : protectsEnd last with
    | true => simp [CutLine.ofSegments, hprotects] at hrest
    | false =>
      simp only [CutLine.ofSegments, hprotects, Bool.false_eq_true, if_false] at hrest
      rw [hrest, protectsEnd_of_blanks hblanks] at hprotects
      simp at hprotects

theorem printLine_eq_some {line out : UStr} (hon : doFold = true ∨ doPrefix = true)
    (h : printLine doFold doPrefix line = some out) : ∃ c, PrintedAs doFold doPrefix line c
      ∧ UChar.nl :: out = printed (bareLine doFold) doPrefix [c] ++ [UChar.nl] := by
  unfold printLine at h
  cases doFold with
  | true =>
    rw [if_pos rfl] at h
    have hne : line ≠ [] := by
      rintro rfl
      simp [printSegments_nil] at h
    obtain ⟨segments, last, hsegments, hprinted⟩ := printSegments_eq_some (Nat.le_succ _) hne h
    have hbare : bareLine true = List.isEmpty := rfl
    exact ⟨_, .segments rfl hsegments, by rw [hbare, hprinted]⟩
  | false =>
    obtain rfl : doPrefix = true := hon.resolve_left (by simp)
    obtain rfl := Option.some.inj h
    exact ⟨⟨[], line⟩, .whole rfl, by simp [printed, CutLine.written, bareLine]⟩

/-- The assertions hold for a line just where it has a unit, if it is folded, and can be folded. -/
theorem printLine_eq_some_iff {line : UStr} : (∃ out, printLine doFold doPrefix line = some out)
    ↔ (doFold = true → line ≠ [] ∧ ¬ (doPrefix = false ∧ ∃ s, s <:+ line ∧ Stuck s)) := by
  unfold printLine
  cases doFold with
  | true =>
    simp only [if_true, forall_const]
    by_cases hne : line = []
    · subst hne
      simp [printSegments_nil]
    · rw [printSegments_eq_some_iff (Nat.le_succ _) hne]
      simp [hne]
  | false => simp

/-- Where the assertions hold, the lines are printed one after another. -/
theorem printLines_eq_some {lines : List UStr} {out : UStr} (hon : doFold = true ∨ doPrefix = true)
    (h : printLines doFold doPrefix lines = some out) : ∃ cs,
      List.Forall₂ (PrintedAs doFold doPrefix) (visibleLines lines) cs
      ∧ UChar.nl :: out = printed (bareLine doFold) doPrefix cs ++ [UChar.nl] := by
  induction lines generalizing out with
  | nil =>
    obtain rfl := Option.some.inj h
    exact ⟨[], .nil, rfl⟩
  | cons line lines ih =>
    cases lines with
    | nil =>
      rw [printLines] at h
      by_cases hne : line = []
      · rw [if_pos hne] at h
        obtain rfl := Option.some.inj h
        exact ⟨[], by simp [visibleLines, hne], rfl⟩
      · rw [if_neg hne] at h
        obtain ⟨c, hc, hprinted⟩ := printLine_eq_some hon h
        refine ⟨[c], ?_, hprinted⟩
        simp only [visibleLines, List.getLast?_singleton, Option.some.injEq, hne, if_false]
        exact .cons hc .nil
    | cons next lines =>
      rw [printLines] at h
      obtain ⟨first, hfirst, h⟩ := Option.bind_eq_some_iff.mp h
      obtain ⟨rest, hrest, h⟩ := Option.bind_eq_some_iff.mp h
      obtain rfl := Option.some.inj h
      obtain ⟨c, hc, hprinted⟩ := printLine_eq_some hon hfirst
      obtain ⟨cs, hcs, hprinteds⟩ := ih hrest
      rw [visibleLines_cons]
      refine ⟨c :: cs, .cons hc hcs, ?_⟩
      rw [printed_cons, List.append_assoc, ← hprinteds, ← List.cons_append, hprinted]
      simp

theorem printLines_eq_some_iff {lines : List UStr} :
    (∃ out, printLines doFold doPrefix lines = some out)
    ↔ ∀ line ∈ visibleLines lines, doFold = true →
      line ≠ [] ∧ ¬ (doPrefix = false ∧ ∃ s, s <:+ line ∧ Stuck s) := by
  induction lines with
  | nil => exact ⟨fun _ _ h => absurd h List.not_mem_nil, fun _ => ⟨[], rfl⟩⟩
  | cons line lines ih =>
    cases lines with
    | nil =>
      by_cases hne : line = []
      · subst hne
        simp [printLines, visibleLines]
      · simp only [printLines, hne, if_false, printLine_eq_some_iff, visibleLines,
          List.getLast?_singleton, Option.some.injEq, List.forall_mem_singleton]
    | cons next lines =>
      rw [visibleLines_cons, List.forall_mem_cons, ← ih, ← printLine_eq_some_iff]
      constructor
      · rintro ⟨out, hout⟩
        rw [printLines] at hout
        obtain ⟨first, hfirst, hout⟩ := Option.bind_eq_some_iff.mp hout
        obtain ⟨rest, hrest, _⟩ := Option.bind_eq_some_iff.mp hout
        exact ⟨⟨first, hfirst⟩, rest, hrest⟩
      · rintro ⟨⟨first, hfirst⟩, rest, hrest⟩
        exact ⟨_, Option.bind_eq_some_iff.mpr ⟨first, hfirst,
          Option.bind_eq_some_iff.mpr ⟨rest, hrest, rfl⟩⟩⟩

/-- Folded without a prefix, a line begins with a semicolon just where one of the text does. -/
theorem head_printed_iff {lines : List UStr} {cs : List (CutLine UChar)}
    (hcs : List.Forall₂ (PrintedAs true false) lines cs) :
    (∃ l ∈ cs.flatMap (CutLine.written UChar.bsl), l.head? = some UChar.semi)
      ↔ ∃ line ∈ lines, line.head? = some UChar.semi := by
  induction hcs with
  | nil => simp
  | @cons line c _ _ hc _ ih =>
    have hline : (∃ l ∈ c.written UChar.bsl, l.head? = some UChar.semi) ↔
        line.head? = some UChar.semi := by
      cases hc with
      | whole hfold => simp at hfold
      | segments _ h => exact h.head_written _
    rw [List.flatMap_cons]
    simp only [List.mem_append, List.mem_cons, or_and_right, exists_or, hline, ih, exists_eq_left]

end Lines

section Decode

variable {cfg : Config σ} {doFold doPrefix : Bool}

/-- What is printed of a text by the protocols: the lines are those of the text but for an empty
last one, and that is what they are decoded to. -/
theorem printTextField_spec (h : cfg.Standard) (hu : 0 < cfg.lineUnfolding)
    (hp : 0 < cfg.prefixRemoving) (hon : doFold = true ∨ doPrefix = true) {text content : UStr}
    (hne : text ≠ []) (hcr : UChar.cr ∉ text) (hzero : 0 ∉ text)
    (hprint : printTextField doFold doPrefix text = some (textDelim ++ content ++ textDelim)) :
    decodeText cfg content = [UChar.nl].intercalate (visibleLines (text.splitOn UChar.nl))
    ∧ ((∃ line ∈ (content.splitOn UChar.nl).tail, line.head? = some UChar.semi)
      ↔ doPrefix = false ∧ ∃ line ∈ visibleLines (text.splitOn UChar.nl),
        line.head? = some UChar.semi) := by
  have hused : ¬ ((!(doPrefix || doFold)) = true) := by
    rcases hon with rfl | rfl <;> simp
  rw [printTextField, if_neg hused, stringLines_of_no_cr hcr] at hprint
  obtain ⟨body, hbody, hprint⟩ := Option.bind_eq_some_iff.mp hprint
  obtain ⟨cs, hcs, hprinted⟩ := printLines_eq_some hon hbody
  have hcontent : content = (if doPrefix then units "> \\" else []) ++ (if doFold then units "\\"
      else []) ++ printed (bareLine doFold) doPrefix cs := by
    have heq := Option.some.inj hprint
    have hdelim : ∀ s : UStr, s ++ textDelim = s ++ [UChar.nl] ++ [UChar.semi] := by
      intro s
      simp [textDelim]
    simp only [List.append_assoc, List.append_cancel_left_eq] at heq
    rw [hdelim, ← List.append_assoc, ← List.append_assoc, ← List.append_assoc] at heq
    have heq := List.append_cancel_right heq
    rw [List.append_assoc _ [UChar.nl] body, List.singleton_append, hprinted,
      ← List.append_assoc] at heq
    rw [← List.append_cancel_right heq]
  have hchars : ∀ line ∈ visibleLines (text.splitOn UChar.nl), ∀ c ∈ line, c ≠ UChar.nl
      ∧ c ≠ UChar.cr ∧ c ≠ 0 :=
    fun line hline c hc => unit_of_mem_visibleLines hcr hzero hline hc
  have hwrites := hcs.imp fun _ _ hc => hc.writes
  have hvisible := visibleLines_ne_nil hne
  have hbare : ∀ line, bareLine doFold line = true → line = [] := by
    intro line hline
    simp only [bareLine, Bool.and_eq_true, List.isEmpty_iff] at hline
    exact hline.2
  rw [hcontent]
  refine ⟨decodeText_printed h hu hp hon hwrites hvisible hbare hchars, ?_⟩
  rw [splitOn_printed h hon hwrites hvisible (fun line hline hmem =>
    (hchars line hline _ hmem).1 rfl) hbare]
  cases doPrefix with
  | true =>
    have hpre : ∀ line : UStr,
        (if bareLine doFold line then line else prefixText true ++ line).head?
        ≠ some UChar.semi := by
      intro line
      split
      · rename_i hline
        simp [hbare line hline]
      · exact show some (62 : UChar) ≠ some UChar.semi by decide
    simp [hpre]
  | false =>
    obtain rfl : doFold = true := hon.resolve_right (by simp)
    have hid : (fun line : UStr => if bareLine true line then line else prefixText false ++ line)
        = id := by
      funext line
      simp [prefixText]
    rw [hid, List.map_id, head_printed_iff hcs]
    simp

theorem head_splitOn_iff {text : UStr} (hcr : UChar.cr ∉ text) :
    (∃ line ∈ text.splitOn UChar.nl, line.head? = some UChar.semi)
      ↔ text.head? = some UChar.semi ∨ ∃ line ∈ (text.splitOn UChar.nl).tail,
        line.head? = some UChar.semi := by
  obtain ⟨first, lines, hsplit⟩ := List.exists_cons_of_ne_nil (List.splitOn_ne_nil UChar.nl text)
  rw [head_stringLines ((stringLines_of_no_cr hcr).trans hsplit), hsplit]
  simp

theorem printTextField_eq_some_iff (hon : doFold = true ∨ doPrefix = true) {text : UStr}
    (hcr : UChar.cr ∉ text) :
    (∃ content, printTextField doFold doPrefix text = some (textDelim ++ content ++ textDelim))
      ↔ ∀ line ∈ visibleLines (text.splitOn UChar.nl), doFold = true →
        line ≠ [] ∧ ¬ (doPrefix = false ∧ ∃ s, s <:+ line ∧ Stuck s) := by
  have hused : ¬ ((!(doPrefix || doFold)) = true) := by
    rcases hon with rfl | rfl <;> simp
  rw [← printLines_eq_some_iff, printTextField, if_neg hused, stringLines_of_no_cr hcr]
  constructor
  · rintro ⟨content, hprint⟩
    obtain ⟨body, hbody, _⟩ := Option.bind_eq_some_iff.mp hprint
    exact ⟨body, hbody⟩
  · rintro ⟨body, hbody⟩
    obtain ⟨cs, _, hprinted⟩ := printLines_eq_some hon hbody
    refine ⟨(if doPrefix then units "> \\" else []) ++ (if doFold then units "\\" else [])
      ++ printed (bareLine doFold) doPrefix cs, Option.bind_eq_some_iff.mpr ⟨body, hbody, ?_⟩⟩
    have hdelim : ∀ s : UStr, s ++ textDelim = s ++ [UChar.nl] ++ [UChar.semi] := by
      intro s
      simp [textDelim]
    rw [hdelim, List.append_assoc _ [UChar.nl] body, List.singleton_append, hprinted]
    simp

/-- A text field is printed without a failed assertion, has no line that begins with a semicolon,
and is decoded to the text, just where it is neither folded nor prefixed, or the text does not end
in a line feed and, if it is folded, has no empty line and, without a prefix, neither begins with a
semicolon nor has a line that cannot be folded. -/
theorem printTextField_iff (h : cfg.Standard) (hu : 0 < cfg.lineUnfolding)
    (hp : 0 < cfg.prefixRemoving) {text : UStr} (hcr : UChar.cr ∉ text) (hzero : 0 ∉ text)
    {allowUnquoted allowTripleQuoted : Bool} {a : StringAnalysis}
    (ha : a = analyzeString text allowUnquoted allowTripleQuoted maxLineLength)
    (hdelim : a.delim = textDelim) :
    (∃ content, printTextField (folds a) (prefixes a) text
      = some (textDelim ++ content ++ textDelim)
      ∧ (∀ line ∈ (content.splitOn UChar.nl).tail, line.head? ≠ some UChar.semi)
      ∧ decodeText cfg content = text)
    ↔ (folds a = false ∧ prefixes a = false) ∨ (text.getLast? ≠ some UChar.nl ∧ (folds a = true →
      [] ∉ text.splitOn UChar.nl ∧ (prefixes a = false → text.head? ≠ some UChar.semi
        ∧ ¬ ∃ line ∈ text.splitOn UChar.nl, ∃ s, s <:+ line ∧ Stuck s))) := by
  have hexact : a.Exact text := by
    rw [ha]
    exact (analyzeString_exact_iff _ _ _ _).mpr (by simp [firstIsCrlf_of_no_cr hcr])
  have hne : text ≠ [] := by
    rintro rfl
    subst ha
    revert hdelim
    cases allowUnquoted <;> cases allowTripleQuoted <;> decide +kernel
  have htail : a.containsTextDelim = false → ¬ ∃ line ∈ (text.splitOn UChar.nl).tail,
      line.head? = some UChar.semi := by
    intro hcontains
    rw [← stringLines_of_no_cr hcr, ← hexact.containsTextDelim, hcontains]
    simp
  by_cases hraw : folds a = false ∧ prefixes a = false
  · refine ⟨fun _ => .inl hraw, fun _ => ⟨text, by simp [printTextField, hraw], ?_, ?_⟩⟩
    · intro line hline hsemi
      refine htail ?_ ⟨line, hline, hsemi⟩
      have hprefixes := hraw.2
      simp only [prefixes, Bool.or_eq_false_iff] at hprefixes
      exact hprefixes.1
    · refine decodeText_of_unreserved h hu hp hcr hzero fun before blanks hhead hblanks => ?_
      by_contra hsemi
      rw [← stringLines_of_no_cr hcr] at hhead
      have hreserved := hexact.hasReservedStart hdelim before blanks hhead hblanks hsemi
      simp [folds, hreserved] at hraw
  · have hon : folds a = true ∨ prefixes a = true := by
      cases hfolds : folds a <;> simp_all
    have hspec :=
      fun content =>
        @printTextField_spec _ cfg (folds a) (prefixes a) h hu hp hon text content hne hcr hzero
    have hprintable := @printTextField_eq_some_iff (folds a) (prefixes a) hon text hcr
    rw [or_iff_right hraw]
    by_cases hlast : text.getLast? = some UChar.nl
    · refine ⟨?_, fun hright => absurd hlast hright.1⟩
      rintro ⟨content, hprint, _, hdecode⟩
      obtain ⟨t, rfl⟩ := List.getLast?_eq_some_iff.mp hlast
      rw [(hspec content hprint).1, visibleLines_append, List.intercalate_splitOn] at hdecode
      simp at hdecode
    · have hvisible : visibleLines (text.splitOn UChar.nl) = text.splitOn UChar.nl := by
        refine if_neg fun hempty => ?_
        rcases Marks.eq_of_getLast_splitOn hempty with hnil | hnl
        · exact hne hnil
        · exact hlast hnl
      rw [hvisible] at hprintable hspec
      constructor
      · rintro ⟨content, hprint, hheads, _⟩
        have hlines := hprintable.mp ⟨content, hprint⟩
        have hsemi := (hspec content hprint).2
        refine ⟨hlast, fun hfold => ⟨fun hmem => (hlines [] hmem hfold).1 rfl,
          fun hpre => ⟨fun hhead => ?_, ?_⟩⟩⟩
        · obtain ⟨line, hline, hhead⟩ := hsemi.mpr ⟨hpre, (head_splitOn_iff hcr).mpr (.inl hhead)⟩
          exact hheads line hline hhead
        · rintro ⟨line, hline, hstuck⟩
          exact (hlines line hline hfold).2 ⟨hpre, hstuck⟩
      · rintro ⟨_, hright⟩
        obtain ⟨content, hprint⟩ := hprintable.mpr fun line hline hfold =>
          ⟨fun hnil => (hright hfold).1 (hnil ▸ hline), fun ⟨hpre, hstuck⟩ =>
            ((hright hfold).2 hpre).2 ⟨line, hline, hstuck⟩⟩
        obtain ⟨hdecode, hsemi⟩ := hspec content hprint
        refine ⟨content, hprint, fun line hline hhead => ?_,
          by rw [hdecode, List.intercalate_splitOn]⟩
        obtain ⟨hpre, hsome⟩ := hsemi.mp ⟨line, hline, hhead⟩
        have hfold : folds a = true := hon.resolve_right (by simp [hpre])
        have hcontains : a.containsTextDelim = false := by
          simp only [prefixes, Bool.or_eq_false_iff] at hpre
          exact hpre.1
        rcases (head_splitOn_iff hcr).mp hsome with hfirst | hrest
        · exact ((hright hfold).2 hpre).1 hfirst
        · exact htail hcontains hrest

/-- A text with a trailing blank and a line that begins with a semicolon is folded, prefixed and
decoded. -/
theorem printTextField_folded :
    let cfg : Config Unit := .initV2 (Options.create .ignoring Icu.ascii Platform.exact 2)
    let text := units "a \n'''\"\"\"\n;b"
    let a := analyzeString text true true maxLineLength
    folds a = true ∧ prefixes a = true
      ∧ ∃ content, printTextField (folds a) (prefixes a) text
        = some (textDelim ++ content ++ textDelim)
        ∧ (∀ line ∈ (content.splitOn UChar.nl).tail, line.head? ≠ some UChar.semi)
          ∧ decodeText cfg content = text := by
  refine ⟨by decide +kernel, by decide +kernel, ?_⟩
  refine (printTextField_iff (.inl rfl) (by decide) (by decide) (by decide) (by decide) rfl
    (by decide +kernel)).mpr (.inr ⟨by decide, fun _ => ⟨by decide, fun hpre => ?_⟩⟩)
  exact absurd hpre (by decide +kernel)

/-- An assertion fails at an empty line of a text that is folded for a trailing blank. -/
theorem printTextField_emptyLine :
    let cfg : Config Unit := .initV2 (Options.create .ignoring Icu.ascii Platform.exact 2)
    let text := units "a \n\n'''\"\"\""
    let a := analyzeString text true true maxLineLength
    a.delim = textDelim ∧ printTextField (folds a) (prefixes a) text = none
      ∧ ¬ ∃ content, printTextField (folds a) (prefixes a) text
        = some (textDelim ++ content ++ textDelim)
        ∧ (∀ line ∈ (content.splitOn UChar.nl).tail, line.head? ≠ some UChar.semi)
          ∧ decodeText cfg content = text := by
  intro cfg text a
  have hnone : printTextField (folds a) (prefixes a) text = none := by decide +kernel
  refine ⟨by decide +kernel, hnone, ?_⟩
  rintro ⟨content, hprint, _⟩
  simp [hnone] at hprint

end Decode

end CifApi.Linguist
