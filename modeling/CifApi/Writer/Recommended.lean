import CifApi.Scanner.ValueToken
import CifApi.Writer.BlockLines

/-! The delimiters that `cif_analyze_string` recommends. -/
namespace CifApi

open Exec Buffer

variable {σ : Type}

section Recommendation

variable {str delim : UStr} {allowUnquoted allowTripleQuoted : Bool} {lengthLimit : Int}

/-- What is known of a string for which a delimiter of quotes, or none, is recommended. -/
inductive Recommended (str : UStr) (allowTripleQuoted : Bool) : UStr → Prop
  | unquoted (hline : UChar.nl ∉ str) (hplain : canBeUnquoted str = true) :
    Recommended str allowTripleQuoted []
  | quoted {c : UChar} (hc : c = UChar.sq ∨ c = UChar.dq) (hline : UChar.nl ∉ str) (hno : c ∉ str) :
    Recommended str allowTripleQuoted [c]
  | triple {c : UChar} (hallow : allowTripleQuoted = true) (hc : c = UChar.sq ∨ c = UChar.dq)
    (hlast : str.getLast? ≠ some c) (hno : ¬ List.replicate 3 c <:+: str) :
    Recommended str allowTripleQuoted (List.replicate 3 c)

theorem notMem_of_numLines (hcr : UChar.cr ∉ str) (h : (LineStats.ofString str).numLines = 1) :
    UChar.nl ∉ str := by
  obtain ⟨line, lines, hlines⟩ := List.exists_cons_of_ne_nil (List.splitOn_ne_nil UChar.nl str)
  have hnum := (LineStats.ofString_spec ((stringLines_of_no_cr hcr).trans hlines)).1
  have hnil : lines = [] := List.eq_nil_of_length_eq_zero (by omega)
  subst hnil
  have heq : str = line := (Marks.eq_of_splitOn hlines).trans (by simp)
  have hline : UChar.nl ∉ line :=
    Marks.notMem_of_mem_splitOn (by rw [hlines]; exact List.mem_cons_self ..)
  exact heq ▸ hline

/-- What a string that can be unquoted is made of. -/
theorem canBeUnquoted_spec (hcr : UChar.cr ∉ str) (hnl : UChar.nl ∉ str)
    (h : canBeUnquoted str = true) :
    ∃ c rest, str = c :: rest ∧ c ∉ unquotedNonstarts ∧ (∀ e ∈ rest, e ∉ unquotedStops)
      ∧ isReservedString str = false := by
  unfold canBeUnquoted at h
  cases str with
  | nil => simp at h
  | cons c rest =>
    simp only [List.getD_cons_zero, Bool.and_eq_true, decide_eq_true_eq, Bool.not_eq_true',
      Nat.add_eq_zero_iff, List.count_eq_zero, ne_eq] at h
    obtain ⟨⟨⟨⟨⟨⟨⟨⟨⟨_, hcounts⟩, hsq⟩, hdq⟩, hhash⟩, _⟩, hunder⟩, hsemi⟩, _⟩, hreserved⟩ := h
    have hstop : ∀ e ∈ c :: rest, e ∉ unquotedStops := by
      intro e he hmem
      simp only [unquotedStops, List.mem_cons, List.not_mem_nil, or_false] at hmem
      rcases hmem with rfl | rfl | rfl | rfl | rfl | rfl | rfl | rfl <;> simp_all
    refine ⟨c, rest, rfl, ?_, fun e he => hstop e (List.mem_cons_of_mem _ he), hreserved⟩
    rw [unquotedNonstarts, List.mem_append, not_or]
    exact ⟨hstop c (List.mem_cons_self ..), by simp [hsq, hdq, hhash, hunder, hsemi]⟩

theorem tripleDelimiter?_spec (hallow : allowTripleQuoted = true)
    (h : tripleDelimiter? str = some delim) :
    Recommended str allowTripleQuoted delim := by
  unfold tripleDelimiter? at h
  split at h
  · rename_i hsq
    simp only [Bool.and_eq_true, decide_eq_true_eq, Bool.not_eq_true',
      decide_eq_false_iff_not] at hsq
    obtain rfl := Option.some.inj h
    exact .triple hallow (.inl rfl) hsq.1 hsq.2
  · split at h
    · rename_i hdq
      simp only [Bool.and_eq_true, decide_eq_true_eq, Bool.not_eq_true',
        decide_eq_false_iff_not] at hdq
      obtain rfl := Option.some.inj h
      exact .triple hallow (.inr rfl) hdq.1 hdq.2
    · simp at h

theorem quoteDelimiter?_spec (hcr : UChar.cr ∉ str)
    (h : quoteDelimiter? str allowUnquoted allowTripleQuoted lengthLimit (LineStats.ofString str)
      = some delim) :
    Recommended str allowTripleQuoted delim := by
  unfold quoteDelimiter? at h
  split at h
  · split at h
    · rename_i hlines
      have hline := notMem_of_numLines hcr hlines
      split at h
      · rename_i hunquoted
        rw [Bool.and_eq_true] at hunquoted
        obtain rfl := Option.some.inj h
        exact .unquoted hline hunquoted.2
      · split at h
        · rename_i hsq
          simp only [Bool.and_eq_true, decide_eq_true_eq, List.count_eq_zero] at hsq
          obtain rfl := Option.some.inj h
          exact .quoted (.inl rfl) hline hsq.2
        · split at h
          · rename_i hdq
            simp only [Bool.and_eq_true, decide_eq_true_eq, List.count_eq_zero] at hdq
            obtain rfl := Option.some.inj h
            exact .quoted (.inr rfl) hline hdq.2
          · split at h
            · rename_i htriple
              rw [Bool.and_eq_true] at htriple
              exact tripleDelimiter?_spec htriple.1 h
            · simp at h
    · split at h
      · rename_i htriple
        simp only [Bool.and_eq_true] at htriple
        exact tripleDelimiter?_spec htriple.1.1 h
      · simp at h
  · simp at h

/-- A delimiter of another length than a text block's has been chosen for what it stands around. -/
theorem recommended_of_delimLength (hcr : UChar.cr ∉ str)
    (h : (analyzeString str allowUnquoted allowTripleQuoted lengthLimit).delimLength
      ∈ ([0, 1, 3] : List Nat)) :
    Recommended str allowTripleQuoted
      (analyzeString str allowUnquoted allowTripleQuoted lengthLimit).delim := by
  cases hquote : quoteDelimiter? str allowUnquoted allowTripleQuoted lengthLimit
    (LineStats.ofString str) with
  | none => simp [analyzeString, StringAnalysis.delimLength, hquote, textDelim] at h
  | some delim =>
    have hspec := quoteDelimiter?_spec hcr hquote
    simpa [analyzeString, hquote] using hspec

end Recommendation

section Scanned

variable {cfg : Config σ} {s : Scanner σ} {str rest : UStr} {before after : UChar}

/-- A string between the delimiters recommended for it, and blanks around them, is scanned as one
token without an error, if no line that ends within it is too long. -/
theorem nextToken_recommended (hcfg : cfg.Standard) (str : UStr)
    (allowUnquoted allowTripleQuoted : Bool) (lengthLimit : Int)
    (hstr : isCifText cfg.cifVersion str = true)
    (hversion : 2 ≤ cfg.cifVersion ∨ allowTripleQuoted = false)
    (hlength : (analyzeString str allowUnquoted allowTripleQuoted lengthLimit).delimLength
      ∈ ([0, 1, 3] : List Nat))
    (hbefore : cfg.classOf before = .ws) (hafter : cfg.classOf after = .ws)
    (hfits : fits (s.column + 3) str = true)
    (h : Shows s.toBuffer 0 []
      (before :: ((analyzeString str allowUnquoted allowTripleQuoted lengthLimit).delim ++ str
      ++ (analyzeString str allowUnquoted allowTripleQuoted lengthLimit).delim) ++ after :: rest)) :
    Halts (nextToken cfg) s (fun _ t =>
      t.ttype = (if (analyzeString str allowUnquoted allowTripleQuoted lengthLimit).delimLength
        = 0 then .value else .qvalue)
        ∧ t.tvalue = str ∧ (∃ start past, Shows t.toBuffer start past (after :: rest))
        ∧ Unreported s t)
      (fun _ _ => False) := by
  have hcr := cr_notMem_of_isCifTextFrom hstr
  have hspec := recommended_of_delimLength hcr hlength
  have hws : cfg.metaClassOf after = .ws := Config.metaClassOf_of_ws hafter
  have hcolon : after ≠ UChar.colon := by
    rintro rfl
    exact absurd (hcfg.classOf_ws_iff.mp hafter) (by decide)
  have hquote : ∀ {c : UChar}, c = UChar.sq ∨ c = UChar.dq →
      (cfg.metaClassOf c = .general ∨ cfg.metaClassOf c = .no) ∧ cfg.classOf c ≠ .hash := by
    intro c hc
    simp [Config.metaClassOf, hcfg.classOf_quote hc, CharClass.metaClass]
  have hplain : ∀ {c : UChar}, c = UChar.sq ∨ c = UChar.dq → ∀ text, (∀ d ∈ text, d = c) →
      isCifText cfg.cifVersion text = true := by
    intro c hc text htext
    refine isCifText_of_ascii fun d hd => .inr (.inr ?_)
    rw [htext d hd]
    rcases hc with rfl | rfl <;> decide
  have hreads : ∀ {c : UChar} {text tail : List UChar} {t : Scanner σ}, c = UChar.sq
      ∨ c = UChar.dq →
      Shows t.toBuffer 0 [c] (text ++ tail) → isCifText cfg.cifVersion text = true →
      Reads cfg.cifVersion t false [c] text tail t := by
    intro c text tail t hc ht htext
    have hlead : lastLead [c] = none := by
      rcases hc with rfl | rfl <;> rfl
    exact ⟨ht, .refl t, by rw [hlead]; rfl, by rw [hlead]; exact htext⟩
  unfold StringAnalysis.delimLength at *
  generalize (analyzeString str allowUnquoted allowTripleQuoted lengthLimit).delim = delim at *
  have hfound : ∀ {ttype : TokenType}, ttype = (if delim.length = 0 then .value else .qvalue) →
      Halts (nextToken cfg) s (fun _ t => t.ttype = ttype
        ∧ Found s str (after :: rest) t) (fun _ _ => False) →
      Halts (nextToken cfg) s (fun _ t => t.ttype = (if delim.length = 0 then .value else .qvalue)
        ∧ t.tvalue = str
        ∧ (∃ start past, Shows t.toBuffer start past (after :: rest))
          ∧ Unreported s t) (fun _ _ => False) := by
    rintro ttype rfl hhalts
    refine hhalts.imp ?_ (fun _ _ he => he)
    rintro _ t ⟨httype, hfound⟩
    obtain ⟨first, last, _, hshows⟩ := hfound.holds.shows
    exact ⟨httype, hfound.holds.tvalue_eq, ⟨_, _, hshows⟩, hfound.unreported⟩
  cases hspec with
  | unquoted hline hplain =>
    obtain ⟨c, text, rfl, hc, htext, hreserved⟩ := canBeUnquoted_spec hcr hline hplain
    have hhash : cfg.classOf c ≠ .hash := by
      intro heq
      exact hcfg.classOf_of_notMem hc (by simp [heq])
    have hclass := hcfg.metaClassOf_of_notMem fun hmem => hc (List.mem_append_left _ hmem)
    have hwhole := isCifTextFrom_append hstr (hcfg.isCifText_of_ws hafter)
    refine hfound (if_pos rfl).symm ?_
    have hshows : Shows s.toBuffer 0 [] (before :: c :: (text ++ after :: rest)) := by simpa using h
    refine halts_nextToken hshows hbefore hclass hhash (fun _ => hcfg.keywordOf_eq_none hreserved)
      fun t ht _ => ?_
    exact halts_scanLexeme_unquoted hcfg hc htext hws hwhole ht
  | @quoted c hc hline hno =>
    have hshows : Shows s.toBuffer 0 [] (before :: c :: (str ++ [c] ++ after :: rest)) := by
      simpa using h
    refine hfound (if_neg (by simp)).symm ?_
    refine halts_nextToken hshows hbefore (hquote hc).1 (hquote hc).2 (by simp) fun t ht _ => ?_
    refine halts_scanLexeme_quoted hcfg hc hcolon (halts_scanDelimString hcfg hc hno hline hws ?_)
    exact hreads hc ht (isCifTextFrom_append hstr (hplain hc [c] (by simp)))
  | @triple c hallow hc hlast hno =>
    have hversion' : 2 ≤ cfg.cifVersion := hversion.resolve_right (by simp [hallow])
    have hshows : Shows s.toBuffer 0 []
        (before :: c :: (c :: c :: (str ++ List.replicate 3 c) ++ after :: rest)) := by
      simpa using h
    refine hfound (if_neg (by simp)).symm ?_
    refine halts_nextToken hshows hbefore (hquote hc).1 (hquote hc).2 (by simp) fun t ht hcolumn =>
      ?_
    have hcolumn' : t.column ≤ s.column + 2 := hcolumn ▸ addColumn_two_le s.column
    refine halts_scanLexeme_quoted hcfg hc hcolon
      (halts_scanDelimString_triple hcfg hversion' hc hlast hno (Nat.succ_le_succ hcolumn') hfits
        ?_)
    refine hreads hc ht ?_
    exact isCifTextFrom_append (hplain hc [c, c] (by simp))
      (isCifTextFrom_append hstr (hplain hc (List.replicate 3 c) (by simp)))

/-- A scanner that is to go on in some column with a text. -/
def scannerAt (column : Nat) (text : List UChar) : Scanner Unit where
  toBuffer := Buffer.initial [text]
  ttype := .end_
  tvalueLength := 0
  line := 1
  column := column
  skipDepth := 0
  world := ⟨(), {}⟩
  log := []

theorem shows_scannerAt {column : Nat} {text : List UChar} (hne : text ≠ [])
    (hcr : UChar.cr ∉ text) :
    Shows (scannerAt column text).toBuffer 0 [] text :=
  ⟨sound_initial (by simpa using hne), rfl, Nat.le_refl _, rfl, by simp [scannerAt, Buffer.initial],
    hcr, fun _ => rfl⟩

/-- A string with both kinds of quotes on two lines, the first of which comes close to the limit. -/
theorem nextToken_recommended_triple :
    Halts (nextToken (.initV2 (.create .dying .ascii .exact 2)))
      (scannerAt 2030 (units " '''it's \"so\"\nnow''' "))
      (fun _ t => t.ttype = .qvalue ∧ t.tvalue = units "it's \"so\"\nnow"
        ∧ (∃ start past, Shows t.toBuffer start past (units " "))
        ∧ Unreported (scannerAt 2030 (units " '''it's \"so\"\nnow''' ")) t) (fun _ _ => False) :=
  nextToken_recommended (.inl rfl) (units "it's \"so\"\nnow") true true 2048 (by decide +kernel)
    (.inl (by decide))
    (by decide +kernel) (by decide +kernel) (by decide +kernel) (by decide +kernel)
    (shows_scannerAt (by decide +kernel) (by decide +kernel))

/-- The first line goes beyond the limit within the string, and that is reported. -/
theorem nextToken_overlength :
    let str := units "it's \"so\"\nnow"
    let a := analyzeString str true true 2048
    let text := UChar.sp :: (a.delim ++ str ++ a.delim) ++ [UChar.sp]
    isCifText 2 str = true ∧ a.delimLength = 3 ∧ Shows (scannerAt 2040 text).toBuffer 0 [] text
      ∧ (nextToken (.initV2 (.create .dying .ascii .exact 2)) (scannerAt 2040 text)).map
        (fun r => match r.1 with | .ok _ => Code.ok | .error e => e)
          = some Code.overlengthLine := by
  refine ⟨by decide +kernel, by decide +kernel,
    shows_scannerAt (by decide +kernel) (by decide +kernel), ?_⟩
  decide +kernel

end Scanned

end CifApi
