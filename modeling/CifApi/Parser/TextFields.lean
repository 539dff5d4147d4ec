import CifApi.Parser.TextLines

/-! What `decode_text` makes of text fields, by the protocols that they are written in. -/
namespace CifApi

variable {σ : Type}

section FirstLine

variable (cfg : Config σ)

/-- The units of a text's first line as it is scanned for a signature, where a backslash is no
terminator. -/
def openingLine (text : List UChar) : List UChar :=
  text.takeWhile fun c => c = UChar.bsl || cfg.classOf c ≠ .eol

/-- The terminator of that line and the text after the first unit of it. -/
def afterOpening (text : List UChar) : List UChar :=
  text.dropWhile fun c => c = UChar.bsl || cfg.classOf c ≠ .eol

/-- What the units of a line add to the statistics. -/
def FirstLine.overLine : List UChar → Nat → FirstLine → FirstLine
  | [], _, st => st
  | c :: line, pos, st =>
    if c = UChar.bsl then overLine line (pos + 1) ⟨pos, st.backslashCount + 1, false⟩
    else if cfg.classOf c = .ws then overLine line (pos + 1) st
    else overLine line (pos + 1) { st with nonws := true }

variable {cfg}

theorem openingLine_append (text : List UChar) :
    openingLine cfg text ++ afterOpening cfg text = text :=
  List.takeWhile_append_dropWhile

theorem mem_openingLine {text : List UChar} {c : UChar} (hc : c ∈ openingLine cfg text) :
    c = UChar.bsl ∨ cfg.classOf c ≠ .eol := by
  simpa using List.mem_takeWhile_imp hc

theorem scanFirstLine_append (h : cfg.Tabled) {line : List UChar}
    (hline : ∀ c ∈ line, c = UChar.bsl ∨ cfg.classOf c ≠ .eol) (rest : List UChar) (pos : Nat)
    (st : FirstLine) (copied : List UChar) :
    scanFirstLine cfg (line ++ rest) pos st copied
      = scanFirstLine cfg rest (pos + line.length) (st.overLine cfg line pos)
      (line.reverse ++ copied) := by
  induction line generalizing pos st copied with
  | nil => rfl
  | cons c line ih =>
    have hrest :=
      fun pos st copied => ih (fun d hd => hline d (List.mem_cons_of_mem _ hd)) pos st copied
    rw [List.cons_append, scanFirstLine]
    by_cases hbsl : c = UChar.bsl
    · rw [if_pos hbsl, hrest]
      simp [FirstLine.overLine, hbsl, Nat.add_comm, Nat.add_left_comm]
    · have hclass := (hline c (List.mem_cons_self ..)).resolve_left hbsl
      have hcr : c ≠ UChar.cr := fun heq => hclass (heq ▸ h.classOf_cr)
      have hnl : c ≠ UChar.nl := fun heq => hclass (heq ▸ h.classOf_nl)
      rw [if_neg hbsl, if_neg hcr, if_neg hnl]
      cases hc : cfg.classOf c with
      | eol => exact absurd hc hclass
      | ws =>
        rw [hrest]
        simp [FirstLine.overLine, hbsl, hc, Nat.add_comm, Nat.add_left_comm]
      | _ => simp [FirstLine.overLine, hbsl, hc, hrest, Nat.add_comm, Nat.add_left_comm]

theorem scanFirstLine_eol {c : UChar} (hc : cfg.classOf c = .eol) (hbsl : c ≠ UChar.bsl)
    (rest : List UChar) (pos : Nat) (st : FirstLine) (copied : List UChar) :
    scanFirstLine cfg (c :: rest) pos st copied
      = (st, (if c = UChar.cr then UChar.nl else c) :: copied, if c = UChar.cr then skipNl rest else
        rest) := by
  rw [scanFirstLine, if_neg hbsl]
  by_cases hcr : c = UChar.cr
  · simp [hcr]
  · by_cases hnl : c = UChar.nl
    · have hne : UChar.nl ≠ UChar.cr := by decide
      simp [hnl, hne]
    · simp [hcr, hnl, hc]

theorem FirstLine.overLine_append (line line' : List UChar) (pos : Nat) (st : FirstLine) :
    st.overLine cfg (line ++ line') pos
      = (st.overLine cfg line pos).overLine cfg line' (pos + line.length) := by
  induction line generalizing pos st with
  | nil => rfl
  | cons c line ih =>
    rw [List.cons_append, FirstLine.overLine, FirstLine.overLine]
    split
    · rw [ih, List.length_cons, Nat.add_assoc, Nat.add_comm 1]
    · split
      · rw [ih, List.length_cons, Nat.add_assoc, Nat.add_comm 1]
      · rw [ih, List.length_cons, Nat.add_assoc, Nat.add_comm 1]

theorem FirstLine.overLine_of_notMem {line : List UChar} (h : UChar.bsl ∉ line) (pos : Nat)
    (st : FirstLine) :
    st.overLine cfg line pos = { st with nonws := st.nonws || line.any fun c => cfg.classOf c
      ≠ .ws } := by
  induction line generalizing pos st with
  | nil => simp [FirstLine.overLine]
  | cons c line ih =>
    have hc : c ≠ UChar.bsl := fun heq => h (heq ▸ List.mem_cons_self ..)
    have hline : UChar.bsl ∉ line := fun hmem => h (List.mem_cons_of_mem _ hmem)
    rw [FirstLine.overLine, if_neg hc]
    by_cases hws : cfg.classOf c = .ws
    · rw [if_pos hws, ih hline]
      simp [hws]
    · rw [if_neg hws, ih hline]
      simp [hws]

theorem FirstLine.overLine_backslashCount (line : List UChar) (pos : Nat) (st : FirstLine) :
    (st.overLine cfg line pos).backslashCount = st.backslashCount + line.count UChar.bsl := by
  induction line generalizing pos st with
  | nil => rfl
  | cons c line ih =>
    rw [FirstLine.overLine]
    by_cases hc : c = UChar.bsl
    · rw [if_pos hc, ih, hc, List.count_cons_self]
      simp [Nat.add_assoc, Nat.add_comm 1]
    · rw [if_neg hc, List.count_cons_of_ne hc]
      split <;> exact ih _ _

/-- The statistics of a line, by its last backslash. -/
theorem FirstLine.overLine_last {before after : List UChar} (h : UChar.bsl ∉ after) :
    FirstLine.overLine cfg (before ++ UChar.bsl :: after) 0 {}
      = ⟨before.length, before.count UChar.bsl + 1, after.any fun c => cfg.classOf c ≠ .ws⟩ := by
  rw [overLine_append, overLine, if_pos rfl, overLine_of_notMem h, overLine_backslashCount]
  simp

/-- The units that are copied for the terminator of the first line. -/
def closingUnits (cfg : Config σ) (text : List UChar) : List UChar :=
  (afterOpening cfg text).take 1 |>.map fun c => if c = UChar.cr then UChar.nl else c

/-- The text after the first line and its terminator. -/
def afterFirstLine (cfg : Config σ) (text : List UChar) : List UChar :=
  match afterOpening cfg text with
  | [] => []
  | c :: rest => if c = UChar.cr then skipNl rest else rest

theorem afterOpening_eq_cons {text rest : List UChar} {c : UChar}
    (h : afterOpening cfg text = c :: rest) :
    c ≠ UChar.bsl ∧ cfg.classOf c = .eol := by
  have hhead :=
    List.head?_dropWhile_not (fun c => decide (c = UChar.bsl) || decide (cfg.classOf c ≠ .eol)) text
  unfold afterOpening at h
  rw [h] at hhead
  simpa using hhead

theorem scanFirstLine_eq (h : cfg.Tabled) (text : List UChar) :
    scanFirstLine cfg text 0 {} []
      = (FirstLine.overLine cfg (openingLine cfg text) 0 {},
          (openingLine cfg text ++ closingUnits cfg text).reverse, afterFirstLine cfg text) := by
  have happend :=
    @scanFirstLine_append _ _ h (openingLine cfg text) (fun c hc => mem_openingLine hc)
    (afterOpening cfg text) 0 {} []
  rw [openingLine_append] at happend
  rw [happend]
  unfold closingUnits afterFirstLine
  cases hafter : afterOpening cfg text with
  | nil => simp [scanFirstLine]
  | cons c rest =>
    obtain ⟨hbsl, heol⟩ := afterOpening_eq_cons hafter
    rw [scanFirstLine_eol heol hbsl]
    simp

/-- What `decode_text` takes a first line to say, where one of the protocols is on at least. -/
def treated (cfg : Config σ) (line : List UChar) : Option (List UChar × Bool) :=
  match cfg.marks.signature line with
  | some (linePrefix, false) =>
    if 0 < cfg.prefixRemoving then some (linePrefix, linePrefix = [] && 0 < cfg.lineUnfolding)
      else some ([], true)
  | some (linePrefix, true) =>
    if 0 < cfg.prefixRemoving && linePrefix ≠ [] then some (linePrefix, 0 < cfg.lineUnfolding)
      else none
  | none => none

theorem any_not_ws_of_blank {blanks : List UChar} (h : blanks.all cfg.marks.blank = true) :
    (blanks.any fun c => cfg.classOf c ≠ .ws) = false := by
  rw [List.any_eq_false]
  intro c hc
  have hblank := List.all_eq_true.mp h c hc
  simp only [Config.marks, Bool.and_eq_true, decide_eq_true_eq] at hblank
  simp [hblank.1.1]

theorem blank_of_not_any {after : List UChar} (h : cfg.Tabled) (hbsl : UChar.bsl ∉ after)
    (hws : (after.any fun c => cfg.classOf c ≠ .ws) = false) : after.all cfg.marks.blank
      = true := by
  rw [List.any_eq_false] at hws
  rw [List.all_eq_true]
  intro c hc
  have hclass : cfg.classOf c = .ws := by simpa using hws c hc
  have hne : c ≠ UChar.bsl := fun heq => hbsl (heq ▸ hc)
  have hnl : c ≠ UChar.nl := fun heq => by simp [heq, h.classOf_nl] at hclass
  simp [Config.marks, hclass, hne, hnl]

theorem exists_last_mark {line : List UChar} (h : UChar.bsl ∈ line) :
    ∃ before after, line = before ++ UChar.bsl :: after ∧ UChar.bsl ∉ after := by
  obtain ⟨as, bs, heq, hno⟩ := List.eq_append_cons_of_mem (List.mem_reverse.mpr h)
  refine ⟨bs.reverse, as.reverse, ?_, by simpa using hno⟩
  have hrev := congrArg List.reverse heq
  simpa using hrev

theorem overLine_of_signature_one {line linePrefix : List UChar}
    (h : cfg.marks.signature line = some (linePrefix, false)) :
    FirstLine.overLine cfg line 0 {} = ⟨linePrefix.length, 1, false⟩ := by
  obtain ⟨hno, blanks, hblanks, rfl⟩ := Marks.eq_of_signature h
  have hover :=
    @FirstLine.overLine_last _ cfg linePrefix blanks (Marks.mark_notMem_of_blank hblanks)
  have hcount : linePrefix.count UChar.bsl = 0 := List.count_eq_zero_of_not_mem hno
  rwa [any_not_ws_of_blank hblanks, hcount] at hover

theorem overLine_of_signature_two {line linePrefix : List UChar}
    (h : cfg.marks.signature line = some (linePrefix, true)) :
    FirstLine.overLine cfg line 0 {} = ⟨linePrefix.length + 1, 2, false⟩ := by
  obtain ⟨hno, blanks, hblanks, rfl⟩ := Marks.eq_of_signature h
  have hover :=
    @FirstLine.overLine_last _ cfg (linePrefix ++ [UChar.bsl]) blanks
    (Marks.mark_notMem_of_blank hblanks)
  have hcount : linePrefix.count UChar.bsl = 0 := List.count_eq_zero_of_not_mem hno
  rw [any_not_ws_of_blank hblanks, List.count_append, hcount] at hover
  simpa [Config.marks] using hover

/-- A line that says nothing is not taken to. -/
theorem not_signed_of_signature_none (h : cfg.Tabled) {line rest : List UChar}
    (hsig : cfg.marks.signature line = none) {prefixLength : Int}
    (hlength : prefixLength = (FirstLine.overLine cfg line 0 {}).prefixLength + 1
      - (FirstLine.overLine cfg line 0 {}).backslashCount ∨ prefixLength = 0) :
    (!(FirstLine.overLine cfg line 0 {}).nonws
      && ((FirstLine.overLine cfg line 0 {}).backslashCount = 1
      || ((FirstLine.overLine cfg line 0 {}).backslashCount = 2 && 0 < prefixLength
        && (line ++ rest)[prefixLength.toNat]? = some UChar.bsl))) = false := by
  by_cases hmem : UChar.bsl ∈ line
  · obtain ⟨before, after, rfl, hafter⟩ := exists_last_mark hmem
    rw [FirstLine.overLine_last hafter] at hlength ⊢
    by_contra hsigned
    simp only [Bool.not_eq_false, Bool.and_eq_true, Bool.not_eq_true', Bool.or_eq_true,
      decide_eq_true_eq] at hsigned hlength
    obtain ⟨hws, hcount⟩ := hsigned
    have hblanks := blank_of_not_any h hafter hws
    rcases hcount with hone | ⟨⟨htwo, hpos⟩, hmark⟩
    · have hno : UChar.bsl ∉ before := List.count_eq_zero.mp (by omega)
      simp [show UChar.bsl = cfg.marks.mark from rfl, Marks.signature_one hno hblanks] at hsig
    · -- the unit before the last backslash is the other one
      have hlen : prefixLength = before.length - 1 := by omega
      have hne : before ≠ [] := by
        rintro rfl
        simp at htwo
      obtain ⟨linePrefix, c, rfl⟩ := List.eq_nil_or_concat before |>.resolve_left hne
      have hc : c = UChar.bsl := by
        have hidx : prefixLength.toNat = linePrefix.length := by
          simp at hlen
          omega
        rw [hidx] at hmark
        simpa using hmark
      subst hc
      rw [List.concat_eq_append] at htwo hsig
      have hno : UChar.bsl ∉ linePrefix := by
        rw [List.count_append] at htwo
        exact List.count_eq_zero.mp (by simpa using htwo)
      have hsome := @Marks.signature_two _ _ cfg.marks linePrefix after hno hblanks
      rw [List.append_assoc, List.singleton_append] at hsig
      exact absurd (hsig.symm.trans hsome) (by simp)
  · rw [FirstLine.overLine_of_notMem hmem]
    simp

/-- The text decoded, by what its first line is taken to say. -/
theorem decodeText_eq (h : cfg.Tabled) {text : List UChar} (hsemi : text.head? ≠ some UChar.semi)
    (hon : 0 < cfg.lineUnfolding ∨ 0 < cfg.prefixRemoving) :
    decodeText cfg text = match treated cfg (openingLine cfg text) with
      | some (linePrefix, folded) =>
        if !folded && linePrefix = [] then cstr (copyText cfg false (afterFirstLine cfg text))
        else cstr
          (decodeLines cfg linePrefix folded (afterFirstLine cfg text).length
          (afterFirstLine cfg text) []).reverse
      | none =>
        cstr (openingLine cfg text ++ closingUnits cfg text
        ++ copyText cfg false (afterFirstLine cfg text)) := by
  have hoff : ¬ (text.head? = some UChar.semi
      || (decide (cfg.lineUnfolding ≤ 0) && decide (cfg.prefixRemoving ≤ 0)))
      = true := by
    simp only [Bool.or_eq_true, Bool.and_eq_true, decide_eq_true_eq]
    rintro (heq | ⟨hu, hp⟩)
    · exact hsemi heq
    · omega
  have htext := @openingLine_append _ cfg text
  rw [decodeText, if_neg hoff, scanFirstLine_eq h]
  simp only
  generalize openingLine cfg text = line at htext ⊢
  cases hsig : cfg.marks.signature line with
  | none =>
    have hnot := @not_signed_of_signature_none _ cfg h line (afterOpening cfg text) hsig
      (if 0 < cfg.prefixRemoving then (FirstLine.overLine cfg line 0 {}).prefixLength + 1
        - (FirstLine.overLine cfg line 0 {}).backslashCount else 0) (by split <;> simp)
    rw [htext] at hnot
    simp only [hnot, treated, hsig]
    simp
  | some said =>
    obtain ⟨linePrefix, two⟩ := said
    obtain ⟨hno, blanks, hblanks, hline⟩ := Marks.eq_of_signature hsig
    have htake : text.take linePrefix.length = linePrefix := by
      rw [← htext, hline, List.append_assoc, List.take_left]
    cases two with
    | false =>
      rw [overLine_of_signature_one hsig]
      by_cases hp : 0 < cfg.prefixRemoving
      · simp [treated, hsig, hp, htake]
      · have hu : 0 < cfg.lineUnfolding := hon.resolve_right hp
        simp [treated, hsig, hp, hu]
    | true =>
      rw [overLine_of_signature_two hsig]
      by_cases hp : 0 < cfg.prefixRemoving
      · have hmark : text[linePrefix.length]? = some UChar.bsl := by
          rw [← htext, hline]
          simp [Config.marks]
        have hlen : (linePrefix.length : Int) + 1 + 1 - 2 = linePrefix.length := by omega
        by_cases hnil : linePrefix = []
        · subst hnil
          simp [treated, hsig, hp]
        · simp [treated, hsig, hp, hlen, hmark, hnil, htake]
      · simp [treated, hsig, hp]

end FirstLine

section Lengths

variable {cfg : Config σ}

theorem length_copyText_append {line : List UChar}
    (hline : ∀ c ∈ line, c = UChar.bsl ∨ cfg.classOf c ≠ .eol) (rest : List UChar) :
    (copyText cfg false (line ++ rest)).length
      = line.length + (copyText cfg false rest).length := by
  induction line with
  | nil => simp
  | cons c line ih =>
    have hrest := ih fun d hd => hline d (List.mem_cons_of_mem _ hd)
    rw [List.cons_append]
    by_cases heol : cfg.classOf c = .eol
    · obtain rfl := (hline c (List.mem_cons_self ..)).resolve_right fun hne => hne heol
      have hne : UChar.bsl ≠ UChar.cr := by decide
      rw [copyText_eol heol, if_neg hne]
      simp [hrest]
      omega
    · rw [copyText_cons heol]
      simp [hrest]
      omega

/-- A line read is no longer than it was. -/
theorem length_decodeLine_le (folded : Bool) (text out : List UChar) {temp : Option (List UChar)}
    (htemp : ∀ t, temp = some t → t.length ≤ out.length) :
    (decodeLine cfg folded text out temp).1.length
      + (copyText cfg false (decodeLine cfg folded text out temp).2).length
      ≤ out.length + (copyText cfg false text).length := by
  induction text generalizing out temp with
  | nil => simp [decodeLine, copyText]
  | cons c rest ih =>
    rw [decodeLine]
    split
    · rename_i hc
      simp only [Bool.and_eq_true, decide_eq_true_eq] at hc
      have hrest := @ih (c :: out) (some out) (by simp)
      have hlen := @length_copyText_append _ cfg [c] (by simp [hc.1]) rest
      simp only [List.singleton_append, List.length_cons, List.length_nil] at hlen hrest
      omega
    · split
      · rename_i hc
        rw [copyText_eol hc]
        simp only [List.length_cons]
        cases htemp' : temp with
        | none => simp; omega
        | some t =>
          have hle := htemp t htemp'
          simp
          omega
      · rename_i hc
        have hrest := @ih (c :: out) temp fun t ht => Nat.le_succ_of_le (htemp t ht)
        rw [copyText_cons (by simp [hc])]
        simp only [List.length_cons] at hrest ⊢
        omega
      · rename_i hc _
        have hrest := @ih (c :: out) none (by simp)
        rw [copyText_cons hc]
        simp only [List.length_cons] at hrest ⊢
        omega

theorem length_decodeLines_le (linePrefix : List UChar) (folded : Bool) (n : Nat)
    (text out : List UChar) :
    (decodeLines cfg linePrefix folded n text out).length
      ≤ out.length + (copyText cfg false text).length := by
  induction n generalizing text out with
  | zero => exact Nat.le_add_right _ _
  | succ n ih =>
    rw [decodeLines]
    split
    · exact Nat.le_add_right _ _
    · have hline :=
        @length_decodeLine_le _ cfg folded (stripPrefix linePrefix text) out none (by simp)
      have hstrip : (copyText cfg false (stripPrefix linePrefix text)).length
          ≤ (copyText cfg false text).length := by
        unfold stripPrefix
        split
        · exact length_copyText_drop_le ..
        · exact Nat.le_refl _
      have hrest := ih (decodeLine cfg folded (stripPrefix linePrefix text) out none).2
        (decodeLine cfg folded (stripPrefix linePrefix text) out none).1
      exact Nat.le_trans hrest (Nat.le_trans hline (Nat.add_le_add_left hstrip _))

theorem length_cstr_le (s : List UChar) : (cstr s).length ≤ s.length :=
  (List.takeWhile_sublist _).length_le

/-- A text whose first line is taken to say something loses that line at least. -/
theorem length_decodeText_lt (h : cfg.Tabled) {text : List UChar}
    (hsemi : text.head? ≠ some UChar.semi) (hon : 0 < cfg.lineUnfolding ∨ 0 < cfg.prefixRemoving)
    (hmark : UChar.bsl ∈ openingLine cfg text)
    (htreated : treated cfg (openingLine cfg text) ≠ none) :
    (decodeText cfg text).length < (copyText cfg false text).length := by
  have hafter : (copyText cfg false (afterFirstLine cfg text)).length
      ≤ (copyText cfg false (afterOpening cfg text)).length := by
    unfold afterFirstLine
    cases hrest : afterOpening cfg text with
    | nil => exact Nat.le_refl _
    | cons c rest =>
      rw [copyText_eol (afterOpening_eq_cons hrest).2]
      simp
  have hline : 0 < (openingLine cfg text).length := List.length_pos_of_mem hmark
  have htext :=
    @length_copyText_append _ cfg (openingLine cfg text) (fun c hc => mem_openingLine hc)
    (afterOpening cfg text)
  rw [openingLine_append] at htext
  rw [decodeText_eq h hsemi hon]
  cases heq : treated cfg (openingLine cfg text) with
  | none => exact absurd heq htreated
  | some said =>
    obtain ⟨linePrefix, folded⟩ := said
    simp only
    split
    · have hcstr := length_cstr_le (copyText cfg false (afterFirstLine cfg text))
      omega
    · have hcstr := length_cstr_le
        (decodeLines cfg linePrefix folded (afterFirstLine cfg text).length
          (afterFirstLine cfg text) []).reverse
      have hlines := @length_decodeLines_le _ cfg linePrefix folded (afterFirstLine cfg text).length
        (afterFirstLine cfg text) []
      simp only [List.length_reverse, List.length_nil] at hcstr hlines
      omega

end Lengths

section Decoded

variable {cfg : Config σ}

theorem afterFirstLine_suffix (text : List UChar) : afterFirstLine cfg text <:+ text := by
  have hsuffix : afterOpening cfg text <:+ text := List.dropWhile_suffix _
  unfold afterFirstLine
  cases hrest : afterOpening cfg text with
  | nil => exact List.nil_suffix
  | cons c rest =>
    rw [hrest] at hsuffix
    have hcons := (List.suffix_cons c rest).trans hsuffix
    simp only
    split
    · exact (skipNl_suffix rest).trans hcons
    · exact hcons

theorem zero_notMem_decodeLine {folded : Bool} {text out : List UChar} {temp : Option (List UChar)}
    (htext : 0 ∉ text) (hout : 0 ∉ out) (htemp : ∀ t, temp = some t → 0 ∉ t) :
    0 ∉ (decodeLine cfg folded text out temp).1 ∧ 0 ∉ (decodeLine cfg folded text out temp).2 := by
  induction text generalizing out temp with
  | nil => exact ⟨hout, List.not_mem_nil⟩
  | cons c rest ih =>
    have hc : (0 : UChar) ≠ c := fun heq => htext (heq ▸ List.mem_cons_self ..)
    have hrest : 0 ∉ rest := fun hmem => htext (List.mem_cons_of_mem _ hmem)
    have hcons : 0 ∉ c :: out := by simp [hc, hout]
    rw [decodeLine]
    split
    · exact ih hrest hcons (by simpa using hout)
    · split
      · refine ⟨?_, ?_⟩
        · cases htemp' : temp with
          | none => by_cases hnl : c = UChar.nl <;> simp_all
          | some t => exact htemp t htemp'
        · simp only
          split
          · exact fun hmem => hrest ((skipNl_suffix rest).subset hmem)
          · exact hrest
      · exact ih hrest hcons htemp
      · exact ih hrest hcons (by simp)

theorem zero_notMem_decodeLines {linePrefix : List UChar} {folded : Bool} {n : Nat}
    {text out : List UChar} (htext : 0 ∉ text) (hout : 0 ∉ out) :
    0 ∉ decodeLines cfg linePrefix folded n text out := by
  induction n generalizing text out with
  | zero => exact hout
  | succ n ih =>
    rw [decodeLines]
    split
    · exact hout
    · obtain ⟨hline, hrest⟩ := @zero_notMem_decodeLine _ cfg folded _ out none
        (@zero_notMem_stripPrefix linePrefix _ htext) hout (by simp)
      exact ih hrest hline

/-- The lines after the first. -/
def furtherLines (cfg : Config σ) (text : List UChar) : List (List UChar) :=
  if afterOpening cfg text = [] then []
    else (copyText cfg false (afterFirstLine cfg text)).splitOn UChar.nl

theorem readLines_furtherLines (linePrefix : List UChar) (folded : Bool) (text : List UChar) :
    cfg.marks.readLines linePrefix folded (furtherLines cfg text)
      = cfg.marks.readLines linePrefix folded
        ((copyText cfg false (afterFirstLine cfg text)).splitOn UChar.nl) := by
  unfold furtherLines
  split
  · rename_i hnil
    simp [afterFirstLine, hnil, copyText, Marks.readLines, Marks.joinLines, Marks.dropPrefix]
  · rfl

theorem copyText_eq_openingLine {text : List UChar}
    (hplain : cfg.classOf UChar.bsl ≠ .eol ∨ UChar.bsl ∉ openingLine cfg text) :
    copyText cfg false text = openingLine cfg text
      ++ if afterOpening cfg text = [] then []
        else UChar.nl :: copyText cfg false (afterFirstLine cfg text) := by
  have hclass : ∀ c ∈ openingLine cfg text, cfg.classOf c ≠ .eol := by
    intro c hc
    rcases mem_openingLine hc with rfl | hne
    · exact hplain.resolve_right fun hno => hno hc
    · exact hne
  have happend := copyText_append hclass (afterOpening cfg text)
  rw [openingLine_append] at happend
  rw [happend]
  unfold afterFirstLine
  cases hrest : afterOpening cfg text with
  | nil => simp [copyText]
  | cons c rest =>
    rw [copyText_eol (afterOpening_eq_cons hrest).2]
    simp

theorem splitOn_copyText (h : cfg.Tabled) {text : List UChar}
    (hplain : cfg.classOf UChar.bsl ≠ .eol ∨ UChar.bsl ∉ openingLine cfg text) :
    (copyText cfg false text).splitOn UChar.nl = openingLine cfg text :: furtherLines cfg text := by
  have hno : UChar.nl ∉ openingLine cfg text := by
    intro hmem
    rcases mem_openingLine hmem with heq | hne
    · exact absurd heq (by decide)
    · exact hne h.classOf_nl
  rw [copyText_eq_openingLine hplain, furtherLines]
  split
  · rw [List.append_nil, List.splitOn_eq_singleton hno]
  · exact List.splitOn_append_cons_self_of_not_mem hno _

/-- A text whose first line says nothing is copied. -/
theorem decodeText_of_untreated (h : cfg.Tabled) {text : List UChar} (htext : 0 ∉ text)
    (hsemi : text.head? ≠ some UChar.semi) (hon : 0 < cfg.lineUnfolding ∨ 0 < cfg.prefixRemoving)
    (htreated : treated cfg (openingLine cfg text) = none) :
    decodeText cfg text
      = openingLine cfg text ++ closingUnits cfg text
        ++ copyText cfg false (afterFirstLine cfg text) := by
  have hrest : 0 ∉ afterFirstLine cfg text :=
    fun hmem => htext ((afterFirstLine_suffix text).subset hmem)
  rw [decodeText_eq h hsemi hon, htreated]
  refine cstr_of_zero_notMem ?_
  simp only [List.mem_append, not_or]
  refine ⟨⟨fun hmem => htext ((List.takeWhile_subset _) hmem), ?_⟩, zero_notMem_copyText hrest⟩
  intro hmem
  obtain ⟨c, hc, heq⟩ := List.mem_map.mp hmem
  split at heq
  · exact absurd heq (by decide)
  · have hmem' : c ∈ text := (List.dropWhile_suffix _).subset (List.mem_of_mem_take hc)
    exact htext (heq ▸ hmem')

/-- A line that says something has a backslash. -/
theorem mark_mem_of_treated {line : List UChar} (h : treated cfg line ≠ none) :
    UChar.bsl ∈ line := by
  unfold treated at h
  cases hsig : cfg.marks.signature line with
  | none => simp [hsig] at h
  | some said =>
    obtain ⟨_, blanks, _, hline⟩ := @Marks.eq_of_signature _ _ _ _ said.1 said.2 hsig
    rw [hline]
    simp [Config.marks]

/-- The prefix that is removed begins the line. -/
theorem mem_of_treated {line linePrefix : List UChar} {folded : Bool}
    (h : treated cfg line = some (linePrefix, folded)) :
    ∀ c ∈ linePrefix, c ∈ line := by
  unfold treated at h
  split at h
  · rename_i hsig
    obtain ⟨_, blanks, _, hline⟩ := Marks.eq_of_signature hsig
    split at h
    · obtain ⟨rfl, _⟩ := Prod.mk.inj (Option.some.inj h)
      exact fun c hc => hline ▸ List.mem_append_left _ hc
    · obtain ⟨rfl, _⟩ := Prod.mk.inj (Option.some.inj h)
      simp
  · rename_i hsig
    obtain ⟨_, blanks, _, hline⟩ := Marks.eq_of_signature hsig
    split at h
    · obtain ⟨rfl, _⟩ := Prod.mk.inj (Option.some.inj h)
      exact fun c hc => hline ▸ List.mem_append_left _ hc
    · simp at h
  · simp at h

/-- The text decoded is what the lines after the first stand for. -/
theorem decodeText_of_treated (h : cfg.Tabled) {text : List UChar} (htext : 0 ∉ text)
    (hsemi : text.head? ≠ some UChar.semi) (hon : 0 < cfg.lineUnfolding ∨ 0 < cfg.prefixRemoving)
    (hbsl : cfg.classOf UChar.bsl ≠ .eol) {linePrefix : List UChar} {folded : Bool}
    (htreated : treated cfg (openingLine cfg text) = some (linePrefix, folded)) :
    decodeText cfg text = cfg.marks.readLines linePrefix folded (furtherLines cfg text) := by
  have hrest : 0 ∉ afterFirstLine cfg text :=
    fun hmem => htext ((afterFirstLine_suffix text).subset hmem)
  have hunits : ∀ c ∈ linePrefix, cfg.classOf c ≠ .eol ∧ c ≠ 0 := by
    intro c hc
    have hmem := mem_of_treated htreated c hc
    refine ⟨?_, fun heq => htext (heq ▸ (List.takeWhile_subset _) hmem)⟩
    rcases mem_openingLine hmem with rfl | hne
    · exact hbsl
    · exact hne
  rw [decodeText_eq h hsemi hon, htreated, readLines_furtherLines]
  simp only
  split
  · rename_i hnone
    simp only [Bool.and_eq_true, Bool.not_eq_true', decide_eq_true_eq] at hnone
    obtain ⟨rfl, rfl⟩ := hnone
    have hdrop : Marks.dropPrefix ([] : List UChar) = id :=
      funext fun line => by simp [Marks.dropPrefix]
    rw [cstr_of_zero_notMem (zero_notMem_copyText hrest), Marks.readLines]
    simp only [hdrop, List.map_id, Bool.false_eq_true, if_false]
    rw [Marks.joinLines_eq_intercalate]
    exact (List.intercalate_splitOn UChar.nl).symm
  · have hlines :=
      @decodeLines_eq _ cfg h hbsl linePrefix folded hunits _ _ [] (Nat.le_refl _) hrest
    have hnot :=
      @zero_notMem_decodeLines _ cfg linePrefix folded (afterFirstLine cfg text).length _ [] hrest
      List.not_mem_nil
    rw [cstr_of_zero_notMem (by simpa using hnot), hlines]
    simp

/-- What misleads `decode_text`, where the text does not begin with a semicolon and a protocol is
on. -/
inductive Misleads (cfg : Config σ) (text : List UChar) : Prop
  /-- A lone backslash is dropped with its line, though folded lines are not to be unfolded. -/
  | lone (hsig : cfg.marks.signature (openingLine cfg text) = some ([], false)) (hu : ¬ 0
    < cfg.lineUnfolding)
  /-- A backslash after a prefix is taken for the sign of folded lines, though prefixes are not to
  be removed. -/
  | folded (linePrefix : List UChar) (hne : linePrefix ≠ [])
      (hsig : cfg.marks.signature (openingLine cfg text) = some (linePrefix, false)) (hp : ¬ 0
        < cfg.prefixRemoving)
  /-- The prefix before two backslashes is removed, though folded lines are not to be unfolded. -/
  | prefixed (linePrefix : List UChar) (hne : linePrefix ≠ [])
      (hsig : cfg.marks.signature (openingLine cfg text) = some (linePrefix, true)) (hp : 0
        < cfg.prefixRemoving)
      (hu : ¬ 0 < cfg.lineUnfolding)
  /-- An extra terminator of a first line that says nothing is copied as it is. -/
  | terminator (hsig : ∀ linePrefix, cfg.marks.signature (openingLine cfg text)
    ≠ some (linePrefix, false))
      (hsig' : ∀ linePrefix, cfg.marks.signature (openingLine cfg text) = some (linePrefix, true) →
        linePrefix = [] ∨ ¬ 0 < cfg.prefixRemoving)
      (c : UChar) (hc : (afterOpening cfg text).head? = some c) (hnl : c ≠ UChar.nl) (hcr : c
        ≠ UChar.cr)
  /-- A backslash in the first line is not taken for the extra terminator that it is. -/
  | backslash (hclass : cfg.classOf UChar.bsl = .eol) (hmem : UChar.bsl ∈ openingLine cfg text)

/-- The first line says nothing, or nothing that is not also seen where it is decoded. -/
theorem head_of_signature {text linePrefix : List UChar} {two : Bool} {c : UChar}
    (hsig : cfg.marks.signature (openingLine cfg text) = some (c :: linePrefix, two)) :
    text.head? = some c := by
  obtain ⟨_, blanks, _, hline⟩ := Marks.eq_of_signature hsig
  rw [← @openingLine_append _ cfg text, hline]
  rfl

/-- A text that is not decoded is copied but for an extra terminator of its first line. -/
theorem copied_eq_iff {text : List UChar}
    (hplain : cfg.classOf UChar.bsl ≠ .eol ∨ UChar.bsl ∉ openingLine cfg text) :
    openingLine cfg text ++ closingUnits cfg text ++ copyText cfg false (afterFirstLine cfg text)
      = copyText cfg false text ↔ ∀ c, (afterOpening cfg text).head? = some c → c = UChar.nl
        ∨ c = UChar.cr := by
  rw [copyText_eq_openingLine hplain, List.append_assoc, List.append_cancel_left_eq]
  unfold closingUnits
  cases hrest : afterOpening cfg text with
  | nil => simp [afterFirstLine, hrest, copyText]
  | cons c rest =>
    by_cases hcr : c = UChar.cr
    · simp [hcr]
    · simp [hcr]

/-- Where a backslash is an extra terminator, a first line that has one is not decoded as it should
be. -/
theorem decodeText_ne_of_backslash (h : cfg.Tabled) {text : List UChar} (htext : 0 ∉ text)
    (hsemi : text.head? ≠ some UChar.semi) (hon : 0 < cfg.lineUnfolding ∨ 0 < cfg.prefixRemoving)
    (hclass : cfg.classOf UChar.bsl = .eol) (hmem : UChar.bsl ∈ openingLine cfg text) :
    decodeText cfg text ≠ copyText cfg false text := by
  intro heq
  by_cases htreated : treated cfg (openingLine cfg text) = none
  · obtain ⟨before, after, hline, hbefore⟩ := List.eq_append_cons_of_mem hmem
    have hclassOf : ∀ c ∈ before, cfg.classOf c ≠ .eol := by
      intro c hc
      have hmem' : c ∈ openingLine cfg text := hline ▸ List.mem_append_left _ hc
      exact (mem_openingLine hmem').resolve_left fun hbsl => hbefore (hbsl ▸ hc)
    have hopening := @openingLine_append _ cfg text
    rw [hline, List.append_assoc, List.cons_append] at hopening
    have hne : UChar.bsl ≠ UChar.cr := by decide
    have hcopy := copyText_append hclassOf (UChar.bsl :: (after ++ afterOpening cfg text))
    rw [hopening, copyText_eol hclass, if_neg hne] at hcopy
    rw [decodeText_of_untreated h htext hsemi hon htreated, hline, hcopy] at heq
    simp only [List.append_assoc, List.append_cancel_left_eq, List.cons_append,
      List.cons.injEq] at heq
    exact absurd heq.1 (by decide)
  · have hlt := length_decodeText_lt h hsemi hon hmem htreated
    rw [heq] at hlt
    exact absurd hlt (Nat.lt_irrefl _)

theorem mark_notMem_copyText (hclass : cfg.classOf UChar.bsl = .eol) (afterCr : Bool)
    (text : List UChar) :
    UChar.bsl ∉ copyText cfg afterCr text := by
  have hnl : UChar.bsl ≠ UChar.nl := by decide
  induction text generalizing afterCr with
  | nil => exact List.not_mem_nil
  | cons c rest ih =>
    rw [copyText]
    split
    · exact ih false
    · split
      · simpa [hnl] using ih _
      · rename_i hc
        have hne : UChar.bsl ≠ c := by
          rintro rfl
          simp [hclass, hnl] at hc
        simpa [hne] using ih _

/-- What is taken out of a first line is what it says, but where it misleads. -/
theorem treated_eq (hon : 0 < cfg.lineUnfolding ∨ 0 < cfg.prefixRemoving) {text : List UChar}
    (hsemi : text.head? ≠ some UChar.semi) (hnot : ¬ Misleads cfg text) :
    treated cfg (openingLine cfg text)
      = cfg.marks.treatment (0 < cfg.lineUnfolding) (0 < cfg.prefixRemoving)
      (cfg.marks.signature (openingLine cfg text)) := by
  have hdelimiter : cfg.marks.delimiter = UChar.semi := rfl
  unfold treated
  cases hsig : cfg.marks.signature (openingLine cfg text) with
  | none => rfl
  | some said =>
    obtain ⟨linePrefix, two⟩ := said
    by_cases hu : 0 < cfg.lineUnfolding
    · by_cases hp : 0 < cfg.prefixRemoving
      · cases linePrefix with
        | nil => cases two <;> simp [Marks.treatment, hu, hp]
        | cons c linePrefix =>
          have hc : c ≠ UChar.semi := fun heq => hsemi (heq ▸ head_of_signature hsig)
          cases two <;> simp [Marks.treatment, hu, hp, hdelimiter, hc]
      · cases two with
        | true => cases linePrefix <;> simp [Marks.treatment, hp]
        | false =>
          cases linePrefix with
          | nil => simp [Marks.treatment, hu, hp]
          | cons c linePrefix => exact absurd (.folded _ (by simp) hsig hp) hnot
    · have hp : 0 < cfg.prefixRemoving := hon.resolve_left hu
      cases linePrefix with
      | nil =>
        cases two with
        | true => simp [Marks.treatment]
        | false => exact absurd (.lone hsig hu) hnot
      | cons c linePrefix =>
        cases two with
        | true => exact absurd (.prefixed _ (by simp) hsig hp hu) hnot
        | false =>
          have hc : c ≠ UChar.semi := fun heq => hsemi (heq ▸ head_of_signature hsig)
          simp [Marks.treatment, hu, hp, hdelimiter, hc]

/-- A first line that says nothing ends as it should where it does not mislead. -/
theorem terminator_of_not_misleads {text : List UChar} (hnot : ¬ Misleads cfg text)
    (htreated : treated cfg (openingLine cfg text) = none) (hplain : ∀ linePrefix,
      cfg.marks.signature (openingLine cfg text) ≠ some (linePrefix, false)) :
    ∀ c, (afterOpening cfg text).head? = some c → c = UChar.nl ∨ c = UChar.cr := by
  intro c hc
  by_contra hne
  obtain ⟨hnl, hcr⟩ := not_or.mp hne
  refine hnot (.terminator hplain ?_ c hc hnl hcr)
  intro linePrefix hsig
  rw [treated, hsig] at htreated
  by_cases hnil : linePrefix = []
  · exact .inl hnil
  · refine .inr fun hp => ?_
    simp [hp, hnil] at htreated

/-- The text that the protocols say, by the first line. -/
theorem decode_copyText (h : cfg.Tabled) {unfolding removing : Bool} {text : List UChar}
    (hplain : cfg.classOf UChar.bsl ≠ .eol ∨ UChar.bsl ∉ openingLine cfg text) :
    cfg.marks.decode unfolding removing (copyText cfg false text)
      = match cfg.marks.treatment unfolding removing (cfg.marks.signature (openingLine cfg text))
        with
        | some (linePrefix, folded) => cfg.marks.readLines linePrefix folded (furtherLines cfg text)
        | none => copyText cfg false text := by
  have hnl : cfg.marks.newline = UChar.nl := rfl
  unfold Marks.decode
  rw [hnl, splitOn_copyText h hplain]
  cases htreatment : cfg.marks.treatment unfolding removing
    (cfg.marks.signature (openingLine cfg text)) <;>
    simp [htreatment]

/-- Where the first line is dropped though it says nothing, the text is not what it should be. -/
theorem decodeText_ne_of_dropped (h : cfg.Tabled) {text : List UChar}
    (hsemi : text.head? ≠ some UChar.semi) (hon : 0 < cfg.lineUnfolding ∨ 0 < cfg.prefixRemoving)
    (hplain : cfg.classOf UChar.bsl ≠ .eol ∨ UChar.bsl ∉ openingLine cfg text)
    (htreated : treated cfg (openingLine cfg text) ≠ none)
    (htreatment : cfg.marks.treatment (0 < cfg.lineUnfolding) (0 < cfg.prefixRemoving)
      (cfg.marks.signature (openingLine cfg text)) = none) :
    decodeText cfg text
      ≠ cfg.marks.decode (0 < cfg.lineUnfolding) (0 < cfg.prefixRemoving)
      (copyText cfg false text) := by
  have hlt := length_decodeText_lt h hsemi hon (mark_mem_of_treated htreated) htreated
  rw [decode_copyText h hplain, htreatment]
  intro heq
  rw [heq] at hlt
  exact absurd hlt (Nat.lt_irrefl _)

theorem decodeText_ne_of_misleads (h : cfg.Tabled) {text : List UChar} (htext : 0 ∉ text)
    (hsemi : text.head? ≠ some UChar.semi) (hon : 0 < cfg.lineUnfolding ∨ 0 < cfg.prefixRemoving)
    (hmisleads : Misleads cfg text) :
    decodeText cfg text
      ≠ cfg.marks.decode (0 < cfg.lineUnfolding) (0 < cfg.prefixRemoving)
      (copyText cfg false text) := by
  by_cases hbsl : cfg.classOf UChar.bsl = .eol ∧ UChar.bsl ∈ openingLine cfg text
  · rw [Marks.decode_of_mark_notMem (mark_notMem_copyText hbsl.1 false text)]
    exact decodeText_ne_of_backslash h htext hsemi hon hbsl.1 hbsl.2
  · have hplain : cfg.classOf UChar.bsl ≠ .eol ∨ UChar.bsl ∉ openingLine cfg text :=
      not_and_or.mp hbsl
    cases hmisleads with
    | lone hsig hu =>
      have hp : 0 < cfg.prefixRemoving := hon.resolve_left hu
      refine decodeText_ne_of_dropped h hsemi hon hplain (by simp [treated, hsig, hp]) ?_
      simp [Marks.treatment, hsig, hu]
    | folded linePrefix hne hsig hp =>
      refine decodeText_ne_of_dropped h hsemi hon hplain (by simp [treated, hsig, hp]) ?_
      cases linePrefix with
      | nil => exact absurd rfl hne
      | cons c linePrefix => simp [Marks.treatment, hsig, hp]
    | prefixed linePrefix hne hsig hp hu =>
      refine decodeText_ne_of_dropped h hsemi hon hplain (by simp [treated, hsig, hp, hne]) ?_
      cases linePrefix with
      | nil => exact absurd rfl hne
      | cons c linePrefix => simp [Marks.treatment, hsig, hu]
    | terminator hsig hsig' c hc hnl hcr =>
      have hnone : treated cfg (openingLine cfg text) = none := by
        unfold treated
        split
        · rename_i heq
          exact absurd heq (hsig _)
        · rename_i linePrefix heq
          rcases hsig' linePrefix heq with hnil | hp
          · simp [hnil]
          · simp [hp]
        · rfl
      have hnone' : cfg.marks.treatment (0 < cfg.lineUnfolding) (0 < cfg.prefixRemoving)
          (cfg.marks.signature (openingLine cfg text)) = none := by
        unfold Marks.treatment
        split
        · rename_i heq
          exact absurd heq (hsig _)
        · rename_i heq
          exact absurd heq (hsig _)
        · rename_i heq
          rcases hsig' _ heq with hnil | hp
          · simp at hnil
          · simp [hp]
        · rfl
      rw [decode_copyText h hplain, hnone', decodeText_of_untreated h htext hsemi hon hnone]
      intro heq
      rcases (copied_eq_iff hplain).mp heq c hc with hc' | hc'
      · exact hnl hc'
      · exact hcr hc'
    | backslash hclass hmem => exact absurd ⟨hclass, hmem⟩ hbsl

theorem decodeText_eq_of_not_misleads (h : cfg.Tabled) {text : List UChar} (htext : 0 ∉ text)
    (hsemi : text.head? ≠ some UChar.semi) (hon : 0 < cfg.lineUnfolding ∨ 0 < cfg.prefixRemoving)
    (hnot : ¬ Misleads cfg text) :
    decodeText cfg text
      = cfg.marks.decode (0 < cfg.lineUnfolding) (0 < cfg.prefixRemoving)
      (copyText cfg false text) := by
  have hplain : cfg.classOf UChar.bsl ≠ .eol ∨ UChar.bsl ∉ openingLine cfg text :=
    not_and_or.mp fun hboth => hnot (.backslash hboth.1 hboth.2)
  rw [decode_copyText h hplain, ← treated_eq hon hsemi hnot]
  cases htreated : treated cfg (openingLine cfg text) with
  | some said =>
    obtain ⟨linePrefix, folded⟩ := said
    have hmem : UChar.bsl ∈ openingLine cfg text :=
      @mark_mem_of_treated _ cfg _ (by simp [htreated])
    have hbsl := hplain.resolve_right fun hno => hno hmem
    exact decodeText_of_treated h htext hsemi hon hbsl htreated
  | none =>
    rw [decodeText_of_untreated h htext hsemi hon htreated]
    refine (copied_eq_iff hplain).mpr (terminator_of_not_misleads hnot htreated ?_)
    intro linePrefix hsig
    rw [treated, hsig] at htreated
    simp only at htreated
    split at htreated <;> simp at htreated

/-- A text field is decoded by the protocols, just where it begins with a semicolon, both are off,
or nothing misleads. -/
theorem decodeText_eq_decode_iff (h : cfg.Tabled) {text : List UChar} (htext : 0 ∉ text) :
    decodeText cfg text
        = cfg.marks.decode (0 < cfg.lineUnfolding) (0 < cfg.prefixRemoving) (cfg.lineFeeds text)
      ↔ text.head? = some UChar.semi ∨ (cfg.lineUnfolding ≤ 0 ∧ cfg.prefixRemoving ≤ 0)
        ∨ ¬ Misleads cfg text := by
  rw [← copyText_eq_lineFeeds h]
  by_cases hsemi : text.head? = some UChar.semi
  · have hsemiClass : cfg.classOf UChar.semi ≠ .eol := by
      rw [h.classOf_fixed (by decide) rfl (by decide)]
      decide
    have hhead : (copyText cfg false text).head? = some UChar.semi := by
      cases text with
      | nil => simp at hsemi
      | cons c rest =>
        obtain rfl : c = UChar.semi := by simpa using hsemi
        rw [copyText_cons hsemiClass]
        rfl
    have hne : cfg.marks.mark ≠ cfg.marks.delimiter := show UChar.bsl ≠ UChar.semi by decide
    rw [Marks.decode_of_delimiter hne hhead, decodeText, if_pos (by simp [hsemi]),
      cstr_of_zero_notMem (zero_notMem_copyText htext)]
    simp [hsemi]
  · by_cases hon : 0 < cfg.lineUnfolding ∨ 0 < cfg.prefixRemoving
    · have hoff : ¬ (cfg.lineUnfolding ≤ 0 ∧ cfg.prefixRemoving ≤ 0) := by omega
      constructor
      · intro heq
        exact .inr (.inr fun hmisleads => decodeText_ne_of_misleads h htext hsemi hon hmisleads heq)
      · rintro (heq | heq | hnot)
        · exact absurd heq hsemi
        · exact absurd heq hoff
        · exact decodeText_eq_of_not_misleads h htext hsemi hon hnot
    · obtain ⟨hu, hp⟩ := not_or.mp hon
      have hoff : cfg.lineUnfolding ≤ 0 ∧ cfg.prefixRemoving ≤ 0 :=
        ⟨Int.not_lt.mp hu, Int.not_lt.mp hp⟩
      rw [decodeText, if_pos (by simp [hoff]), cstr_of_zero_notMem (zero_notMem_copyText htext)]
      simp only [hu, hp, decide_false, Marks.decode_off, hoff]
      simp

/-- A lone backslash is lost with its line where lines are not to be unfolded. -/
theorem decodeText_lone :
    let cfg : Config Unit :=
  .initV2 { Options.create .ignoring Icu.ascii Platform.exact 2 with lineFoldingModifier := -1 }
    let text := units "\\\nabc"
    cfg.lineUnfolding = 0 ∧ cfg.prefixRemoving = 1 ∧ decodeText cfg text = units "abc"
      ∧ cfg.marks.decode (0 < cfg.lineUnfolding) (0 < cfg.prefixRemoving) (cfg.lineFeeds text)
        = text := by
  refine ⟨rfl, rfl, ?_, ?_⟩ <;> decide +kernel

theorem tabled_initV2 (o : Options σ) (hws : 0 ∉ o.extraWsChars) (heol : 0 ∉ o.extraEolChars) :
    (Config.initV2 o).Tabled := ⟨_, _, hws, heol, .inl rfl⟩

/-- Lines folded are unfolded, where they are to be. -/
theorem decodeText_folded :
    let cfg : Config Unit := .initV2 (Options.create .ignoring Icu.ascii Platform.exact 2)
    let text := units "\\\nab\\ \nc"
    decodeText cfg text = units "abc"
      ∧ (decodeText cfg text
          = cfg.marks.decode (0 < cfg.lineUnfolding) (0 < cfg.prefixRemoving) (cfg.lineFeeds text)
        ↔ text.head? = some UChar.semi ∨ (cfg.lineUnfolding ≤ 0 ∧ cfg.prefixRemoving ≤ 0)
          ∨ ¬ Misleads cfg text) := by
  refine ⟨by decide +kernel, ?_⟩
  exact decodeText_eq_decode_iff (tabled_initV2 _ (by decide) (by decide)) (by decide)

end Decoded

end CifApi
