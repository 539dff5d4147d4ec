import CifApi.Parser.TextFields

/-! Texts that are written by the line-folding and prefix protocols are decoded as they were. -/
namespace CifApi

variable {σ : Type}

namespace Config

variable (cfg : Config σ)

/-- The same scanner, with the backslash an ordinary character. -/
def plainBackslash : Config σ :=
  { cfg with charClass := fun c => if c = UChar.bsl then .general else cfg.charClass c }

variable {cfg}

theorem classOf_plainBackslash {c : UChar} (hc : c ≠ UChar.bsl) :
    cfg.plainBackslash.classOf c = cfg.classOf c := by
  have hclass : cfg.plainBackslash.charClass c = cfg.charClass c := if_neg hc
  rw [classOf, hclass]
  rfl

theorem classOf_plainBackslash_bsl : cfg.plainBackslash.classOf UChar.bsl = .general := by
  rw [classOf, if_pos (by decide)]
  simp [plainBackslash]

theorem charClassV2_filter (extraWs extraEol : List UChar) (c : UChar) :
    charClassV2 (extraWs.filter (· ≠ UChar.bsl)) (extraEol.filter (· ≠ UChar.bsl)) c
      = if c = UChar.bsl then .general else charClassV2 extraWs extraEol c := by
  by_cases hc : c = UChar.bsl
  · subst hc
    simp [charClassV2, fixedClass, show 32 ≤ UChar.bsl ∧ UChar.bsl < 127 by decide]
  · simp [charClassV2, hc]

theorem Tabled.plainBackslash (h : cfg.Tabled) : cfg.plainBackslash.Tabled := by
  obtain ⟨ws, eol, hws, heol, htable⟩ := h
  refine ⟨ws.filter (· ≠ UChar.bsl), eol.filter (· ≠ UChar.bsl),
    fun hmem => hws (List.mem_filter.mp hmem).1, fun hmem => heol (List.mem_filter.mp hmem).1, ?_⟩
  rcases htable with heq | heq
  · refine .inl (funext fun c => ?_)
    rw [charClassV2_filter]
    simp [Config.plainBackslash, heq]
  · refine .inr (funext fun c => ?_)
    simp only [Config.plainBackslash, heq]
    by_cases hc : c = UChar.bsl
    · subst hc
      exact (charClassV2_filter ws eol UChar.bsl).symm
    · rw [if_neg hc]
      unfold charClassV1
      split
      · rfl
      · rfl
      · rfl
      · rfl
      · rw [charClassV2_filter, if_neg hc]

theorem marks_plainBackslash : cfg.plainBackslash.marks = cfg.marks := by
  have hblank : cfg.plainBackslash.marks.blank = cfg.marks.blank := by
    funext c
    by_cases hc : c = UChar.bsl
    · simp [marks, hc]
    · simp [marks, classOf_plainBackslash hc]
  simpa [marks] using hblank

end Config

section Plain

variable {cfg : Config σ}

theorem decodeLine_plainBackslash {folded : Bool} {text : List UChar}
    (h : folded = true ∨ UChar.bsl ∉ text) (out : List UChar) (temp : Option (List UChar)) :
    decodeLine cfg.plainBackslash folded text out temp = decodeLine cfg folded text out temp := by
  induction text generalizing out temp with
  | nil => rfl
  | cons c rest ih =>
    have hrest := ih (h.imp_right fun hno hmem => hno (List.mem_cons_of_mem _ hmem))
    by_cases hc : c = UChar.bsl
    · obtain rfl := h.resolve_right (by simp [hc])
      simp [decodeLine, hc, hrest]
    · rw [decodeLine, decodeLine, Config.classOf_plainBackslash hc]
      simp only [hrest]

theorem decodeLine_suffix (folded : Bool) (text out : List UChar) (temp : Option (List UChar)) :
    (decodeLine cfg folded text out temp).2 <:+ text := by
  induction text generalizing out temp with
  | nil => exact List.suffix_refl _
  | cons c rest ih =>
    have hcons := List.suffix_cons c rest
    rw [decodeLine]
    split
    · exact (ih _ _).trans hcons
    · split
      · simp only
        split
        · exact (skipNl_suffix rest).trans hcons
        · exact hcons
      · exact (ih _ _).trans hcons
      · exact (ih _ _).trans hcons

theorem stripPrefix_suffix (linePrefix text : List UChar) :
    stripPrefix linePrefix text <:+ text := by
  unfold stripPrefix
  split
  · exact List.drop_suffix _ _
  · exact List.suffix_refl _

theorem decodeLines_plainBackslash {linePrefix : List UChar} {folded : Bool} {n : Nat}
    {text : List UChar} (h : folded = true ∨ UChar.bsl ∉ text) (out : List UChar) :
    decodeLines cfg.plainBackslash linePrefix folded n text out
      = decodeLines cfg linePrefix folded n text out := by
  induction n generalizing text out with
  | zero => rfl
  | succ n ih =>
    have hstrip : folded = true ∨ UChar.bsl ∉ stripPrefix linePrefix text :=
      h.imp_right fun hno hmem => hno ((stripPrefix_suffix _ _).subset hmem)
    have hrest : folded = true
        ∨ UChar.bsl ∉ (decodeLine cfg folded (stripPrefix linePrefix text) out none).2 :=
      hstrip.imp_right fun hno hmem => hno ((decodeLine_suffix folded _ out none).subset hmem)
    rw [decodeLines, decodeLines, decodeLine_plainBackslash hstrip]
    simp only [ih hrest]

theorem openingLine_plainBackslash (text : List UChar) :
    openingLine cfg.plainBackslash text = openingLine cfg text ∧
    afterOpening cfg.plainBackslash text = afterOpening cfg text := by
  have hpred : (fun c => decide (c = UChar.bsl) || decide (cfg.plainBackslash.classOf c ≠ .eol))
      = fun c => decide (c = UChar.bsl) || decide (cfg.classOf c ≠ .eol) := by
    funext c
    by_cases hc : c = UChar.bsl
    · simp [hc]
    · rw [Config.classOf_plainBackslash hc]
  unfold openingLine afterOpening
  rw [hpred]
  exact ⟨rfl, rfl⟩

end Plain

section Encoded

variable {cfg : Config σ} {m : Marks UChar}

/-- Neither a line terminator nor the terminator of strings. -/
def Inline (cfg : Config σ) (c : UChar) : Prop := cfg.classOf c ≠ .eol ∧ c ≠ 0

theorem copyText_of_inline (h : cfg.Tabled) {text : List UChar}
    (htext : ∀ c ∈ text, c = UChar.nl ∨ cfg.classOf c ≠ .eol) :
    copyText cfg false text = text := by
  induction text with
  | nil => rfl
  | cons c rest ih =>
    have hrest := ih fun d hd => htext d (List.mem_cons_of_mem _ hd)
    rcases htext c (List.mem_cons_self ..) with rfl | hc
    · have hne : UChar.nl ≠ UChar.cr := by decide
      rw [copyText_eol h.classOf_nl, if_neg hne, hrest]
    · rw [copyText_cons hc, hrest]

/-- What is written consists of units that are read as they are. -/
theorem content_units (h : cfg.Tabled) (e : Encoding cfg.marks)
    (hbsl : cfg.classOf UChar.bsl ≠ .eol) (hpre : ∀ c ∈ e.linePrefix, Inline cfg c)
    (hlines : ∀ line ∈ e.lines, ∀ c ∈ line.text, Inline cfg c) :
    ∀ c ∈ e.content, (c = UChar.nl ∨ cfg.classOf c ≠ .eol) ∧ c ≠ 0 := by
  intro c hc
  rcases e.mem_content hc with rfl | rfl | hblank | hc | ⟨line, hline, hc⟩
  · exact ⟨.inl rfl, show UChar.nl ≠ 0 by decide⟩
  · exact ⟨.inr hbsl, show UChar.bsl ≠ 0 by decide⟩
  · have hws : cfg.classOf c = .ws := by
      simp only [Config.marks, Bool.and_eq_true, decide_eq_true_eq] at hblank
      exact hblank.1.1
    refine ⟨.inr (by simp [hws]), ?_⟩
    rintro rfl
    simp [h.classOf_zero] at hws
  · exact ⟨.inr (hpre c hc).1, (hpre c hc).2⟩
  · exact ⟨.inr (hlines line hline c hc).1, (hlines line hline c hc).2⟩

theorem header_units (e : Encoding cfg.marks) (hpre : ∀ c ∈ e.linePrefix, Inline cfg c) :
    ∀ c ∈ e.header, c = UChar.bsl ∨ cfg.classOf c ≠ .eol := by
  intro c hc
  unfold Encoding.header at hc
  simp only [List.mem_append] at hc
  rcases hc with (hc | hmark) | hblank
  · exact .inr (hpre c hc).1
  · split at hmark <;> exact .inl (by simpa [Config.marks] using hmark)
  · have hws := List.all_eq_true.mp e.blanks_blank c hblank
    simp only [Config.marks, Bool.and_eq_true, decide_eq_true_eq] at hws
    exact .inr (by simp [hws.1.1])

theorem openingLine_content (h : cfg.Tabled) (e : Encoding cfg.marks)
    (hpre : ∀ c ∈ e.linePrefix, Inline cfg c) :
    openingLine cfg e.content = e.header := by
  have hunits : ∀ c ∈ e.header, (decide (c = UChar.bsl) || decide (cfg.classOf c ≠ .eol))
      = true := by
    intro c hc
    simpa using header_units e hpre c hc
  have hnl : cfg.marks.newline = UChar.nl := rfl
  have hne : UChar.nl ≠ UChar.bsl := by decide
  unfold openingLine
  rw [e.content_eq, List.takeWhile_append_of_pos hunits, hnl, List.takeWhile_cons_of_neg,
    List.append_nil]
  simp [hne, h.classOf_nl]

theorem head_content (e : Encoding cfg.marks) : e.content.head? ≠ some UChar.semi := by
  have hdelimiter := e.linePrefix_delimiter
  have hne : UChar.bsl ≠ UChar.semi := by decide
  rw [e.content_eq]
  unfold Encoding.header
  cases hpre : e.linePrefix with
  | nil => simp [Config.marks, hne]
  | cons c linePrefix =>
    rw [hpre] at hdelimiter
    simpa [Config.marks] using hdelimiter

theorem decodeText_content_of_plain (h : cfg.Tabled) (hbsl : cfg.classOf UChar.bsl ≠ .eol)
    (hu : 0 < cfg.lineUnfolding) (hp : 0 < cfg.prefixRemoving) (hm : cfg.marks = m) (e : Encoding m)
    (hpre : ∀ c ∈ e.linePrefix, Inline cfg c)
    (hlines : ∀ line ∈ e.lines, ∀ c ∈ line.text, Inline cfg c) :
    decodeText cfg e.content = e.text := by
  subst hm
  have hunits := content_units h e hbsl hpre hlines
  have hopening := openingLine_content h e hpre
  have hnot : ¬ Misleads cfg e.content := by
    intro hmisleads
    cases hmisleads with
    | lone _ hu' => exact hu' hu
    | folded _ _ _ hp' => exact hp' hp
    | prefixed _ _ _ _ hu' => exact hu' hu
    | terminator hsig hsig' =>
      rw [hopening, e.signature_header] at hsig hsig'
      by_cases hboth : (e.folded && decide (e.linePrefix ≠ [])) = true
      · rcases hsig' e.linePrefix (by rw [hboth]) with hnil | hp'
        · simp [hnil] at hboth
        · exact hp' hp
      · exact hsig e.linePrefix (by rw [Bool.not_eq_true _ |>.mp hboth])
    | backslash hclass _ => exact hbsl hclass
  have hdecode :=
    decodeText_eq_of_not_misleads h (fun hmem =>
      (hunits 0 hmem).2 rfl) (head_content e) (.inl hu) hnot
  rw [hdecode, copyText_of_inline h fun c hc => (hunits c hc).1]
  simpa [hu, hp] using e.decode_content

theorem treated_header (hu : 0 < cfg.lineUnfolding) (hp : 0 < cfg.prefixRemoving)
    (e : Encoding cfg.marks) :
    treated cfg e.header = some (e.linePrefix, e.folded) := by
  unfold treated
  rw [e.signature_header]
  by_cases hnil : e.linePrefix = []
  · have hfolded : e.folded = true := e.used.resolve_left fun hne => hne hnil
    simp [hnil, hfolded, hu, hp]
  · cases hfolded : e.folded <;> simp [hnil, hu, hp]

theorem afterOpening_content (h : cfg.Tabled) (e : Encoding cfg.marks)
    (hpre : ∀ c ∈ e.linePrefix, Inline cfg c) :
    afterOpening cfg e.content = UChar.nl
      :: [UChar.nl].intercalate ((e.lines.flatMap (CutLine.written UChar.bsl)).map e.prefixed) := by
  have happend := @openingLine_append _ cfg e.content
  rw [openingLine_content h e hpre] at happend
  exact List.append_cancel_left (happend.trans e.content_eq)

/-- Where no line is cut, no backslash is written after the first line but those of the text. -/
theorem mark_notMem_written (e : Encoding cfg.marks) (hfolded : e.folded = false)
    (hpre : UChar.bsl ∉ e.linePrefix) (hlines : ∀ line ∈ e.lines, UChar.bsl ∉ line.text) :
    UChar.bsl ∉ [UChar.nl].intercalate
      ((e.lines.flatMap (CutLine.written UChar.bsl)).map e.prefixed) := by
  intro hmem
  rcases Marks.mem_intercalate hmem with hnl | ⟨l, hl, hc⟩
  · exact absurd hnl (by decide)
  · obtain ⟨w, hw, rfl⟩ := List.mem_map.mp hl
    obtain ⟨line, hline, hw⟩ := List.mem_flatMap.mp hw
    have hpieces := e.unfolded hfolded line hline
    rw [CutLine.written, hpieces, List.map_nil, List.nil_append, List.mem_singleton] at hw
    subst hw
    rcases e.mem_prefixed hc with hc | hc
    · exact hpre hc
    · exact hlines line hline (by simpa [CutLine.text, hpieces] using hc)

theorem decodeText_content_plainBackslash (h : cfg.Tabled) (hbsl : cfg.classOf UChar.bsl = .eol)
    (hu : 0 < cfg.lineUnfolding) (hp : 0 < cfg.prefixRemoving) (e : Encoding cfg.marks)
    (hpre : ∀ c ∈ e.linePrefix, Inline cfg c)
    (hlines : ∀ line ∈ e.lines, ∀ c ∈ line.text, Inline cfg c) :
    decodeText cfg.plainBackslash e.content = decodeText cfg e.content := by
  obtain ⟨hopening, hafter⟩ := @openingLine_plainBackslash _ cfg e.content
  have hrest : afterFirstLine cfg.plainBackslash e.content = afterFirstLine cfg e.content := by
    unfold afterFirstLine
    rw [hafter]
  have htreated : treated cfg.plainBackslash e.header = treated cfg e.header := by
    unfold treated
    rw [Config.marks_plainBackslash]
    rfl
  have hused : (!e.folded && decide (e.linePrefix = [])) = false := by
    rcases e.used with hne | hfolded
    · simp [hne]
    · simp [hfolded]
  rw [decodeText_eq h (head_content e) (.inl hu),
    decodeText_eq h.plainBackslash (head_content e) (.inl hu), hopening,
    openingLine_content h e hpre, htreated, treated_header hu hp, hrest]
  simp only [hused, Bool.false_eq_true, if_false]
  rw [decodeLines_plainBackslash]
  cases hfolded : e.folded with
  | true => exact .inl rfl
  | false =>
    have hno : ∀ {c}, Inline cfg c → c ≠ UChar.bsl := fun hc heq => hc.1 (heq ▸ hbsl)
    have hnot := mark_notMem_written e hfolded (fun hmem => hno (hpre _ hmem) rfl)
      fun line hline hmem => hno (hlines line hline _ hmem) rfl
    have hne : UChar.nl ≠ UChar.cr := by decide
    refine .inr ?_
    unfold afterFirstLine
    rw [afterOpening_content h e hpre]
    simpa [hne] using hnot

/-- What conforms to the protocols is decoded as it was, where both are on. -/
theorem decodeText_content (h : cfg.Tabled) (hu : 0 < cfg.lineUnfolding)
    (hp : 0 < cfg.prefixRemoving) (e : Encoding cfg.marks) (hpre : ∀ c ∈ e.linePrefix, Inline cfg c)
    (hlines : ∀ line ∈ e.lines, ∀ c ∈ line.text, Inline cfg c) :
    decodeText cfg e.content = e.text := by
  by_cases hbsl : cfg.classOf UChar.bsl = .eol
  · have hinline : ∀ {c}, Inline cfg c → Inline cfg.plainBackslash c := by
      intro c hc
      have hne : c ≠ UChar.bsl := fun heq => hc.1 (heq ▸ hbsl)
      exact ⟨by rw [Config.classOf_plainBackslash hne]; exact hc.1, hc.2⟩
    rw [← decodeText_content_plainBackslash h hbsl hu hp e hpre hlines]
    refine decodeText_content_of_plain h.plainBackslash ?_ hu hp Config.marks_plainBackslash e
      (fun c hc => hinline (hpre c hc)) fun line hline c hc => hinline (hlines line hline c hc)
    simp [Config.classOf_plainBackslash_bsl]
  · exact decodeText_content_of_plain h hbsl hu hp rfl e hpre hlines

/-- A text written with a prefix and cut lines, one after a backslash and one to keep its final
backslash. -/
theorem decodeText_content_cut :
    let cfg : Config Unit := .initV2 (Options.create .ignoring Icu.ascii Platform.exact 2)
    ∃ e : Encoding cfg.marks, e.content = units "> \\\\ \n> ab\\\\ \t\n> cd\n> x\\ \\\n> \n> "
      ∧ e.text = units "ab\\cd\nx\\ \n" ∧ decodeText cfg e.content = e.text := by
  intro cfg
  refine ⟨{
    linePrefix := units "> "
    folded := true
    blanks := units " "
    lines := [⟨[(units "ab\\", units " \t")], units "cd"⟩, ⟨[(units "x\\ ", [])], []⟩, ⟨[], []⟩]
    used := .inr rfl
    linePrefix_mark := by decide
    linePrefix_newline := by decide
    linePrefix_delimiter := by decide
    blanks_blank := by decide
    lines_ne_nil := by decide
    pieces_newline := by decide
    pieces_blank := by decide
    rest_newline := by decide
    unfolded := by decide
    uncut := by decide }, by decide, by decide, ?_⟩
  have htabled : cfg.Tabled := tabled_initV2 _ (by decide) (by decide)
  refine decodeText_content htabled (by decide) (by decide) _ ?_ ?_
  · unfold Inline
    decide
  · unfold Inline
    decide

end Encoded

end CifApi
