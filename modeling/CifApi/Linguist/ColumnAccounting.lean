import CifApi.Linguist.FieldLines
import CifApi.Linguist.Handlers

/-! The column that the linguist program keeps count of, and the length of the lines it prints. -/
namespace CifApi.Linguist

open Exec Lines

/-- A line with nothing in it but values, names, keywords and the separators the program puts
between them. -/
def Bare (line : List OutUnit) : Prop := ∀ u ∈ line, u.origin = .data

/-- The counter is right, and bare lines are within the limit. -/
structure Sound (out : List OutUnit) (column : Nat) : Prop where
  column_eq : column = (current OutUnit.isEol out).length
  fits : ∀ line ∈ lines OutUnit.isEol out, Bare line → line.length ≤ maxLineLength

/-- After a print operation the counter is right, and bare lines are within the limit. -/
def Event.Accounted : Event → Prop
  | .wrote _ _ out column => Sound out column
  | _ => True

/-- What a print operation relies on for its accounting: a value or key on one line is at the start
of its line, and so is a line feed that is not counted; a name is no longer than a line; and the
prefix does not make a line too long in a text field that is not folded. -/
def Site.Careful (before : Nat) : Site → Prop
  | .oneLine | .unaccounted => before = 0
  | .name str => str.length ≤ maxLineLength
  | .textField doFold doPrefix text =>
    doFold = false → doPrefix = true → ∀ line ∈ stringLines text, line.length + 2 ≤ maxLineLength
  | .other => True

def Event.Careful : Event → Prop
  | .wrote site before _ _ => site.Careful before
  | _ => True

/-- A run so far is accounted for just where its print operations were careful. -/
structure Tracked (c : Context) : Prop where
  accounted_iff : (∀ e ∈ c.record, e.Accounted) ↔ ∀ e ∈ c.record, e.Careful
  sound : (∀ e ∈ c.record, e.Careful) → Sound c.out c.column

section Sound

variable {out : List OutUnit} {column : Nat} {origin : Origin} {text : UStr} {c : Context}
  {site : Site}

/-- Text as it is added to the output. -/
def tagged (origin : Origin) (text : UStr) : List OutUnit := text.map (⟨·, origin⟩)

theorem lines_tagged (origin : Origin) (text : UStr) :
    lines OutUnit.isEol (tagged origin text) = (lines isEol text).map (tagged origin) :=
  lines_map fun _ => rfl

theorem bare_tagged {line : UStr} (h : Bare (tagged origin line)) : line = [] ∨ origin = .data := by
  cases line with
  | nil => exact .inl rfl
  | cons u line => exact .inr (h ⟨u, origin⟩ (List.mem_cons_self ..))

/-- What is added continues the current line, and its other lines are new. -/
theorem Sound.append (h : Sound out column) (origin : Origin) (text : UStr)
    (hfirst : ∀ head, (lines isEol text).head? = some head → head ≠ [] → origin = .data →
      column + head.length ≤ maxLineLength)
    (hnew : ∀ line ∈ (lines isEol text).tail, origin = .data → line.length ≤ maxLineLength) :
    Sound (out ++ tagged origin text)
      (if (lines isEol text).tail = [] then column + text.length else
        (current isEol text).length) := by
  constructor
  · rw [length_current_append, lines_tagged, ← h.column_eq]
    have hcurrent : (current OutUnit.isEol (tagged origin text)).length
        = (current isEol text).length := by
      obtain ⟨init, head, tail, htext, _, _⟩ := @exists_lines_append _ isEol text []
      rw [current, lines_tagged, htext, List.map_append, getLastD_append_of_ne_nil (by simp)]
      simp [tagged]
    simp only [hcurrent, ← List.map_tail, List.map_eq_nil_iff]
    rw [tagged, List.length_map]
  · refine forall_lines_append h.fits ?_ ?_
    · intro head hhead hbare
      rw [lines_tagged, List.head?_map, Option.map_eq_some_iff] at hhead
      obtain ⟨line, hline, rfl⟩ := hhead
      have hsplit := List.forall_mem_append.mp hbare
      by_cases hline' : line = []
      · subst hline'
        rw [tagged, List.map_nil, List.append_nil]
        exact h.fits _ current_mem_lines hsplit.1
      · rw [List.length_append, ← h.column_eq, tagged, List.length_map]
        exact hfirst line hline hline' ((bare_tagged hsplit.2).resolve_left hline')
    · intro line hline hbare
      rw [lines_tagged, ← List.map_tail, List.mem_map] at hline
      obtain ⟨line, hline, rfl⟩ := hline
      rw [tagged, List.length_map]
      rcases bare_tagged hbare with rfl | hdata
      · exact Nat.zero_le _
      · exact hnew line hline hdata

/-- Text without a terminator is written on in the current line. -/
theorem Sound.unbroken (h : Sound out column) (origin : Origin) {text : UStr}
    (htext : ∀ u ∈ text, isEol u = false)
    (hfit : origin = .data → column + text.length ≤ maxLineLength) :
    Sound (out ++ tagged origin text) (column + text.length) := by
  have happend := h.append origin text
  rw [lines_of_unbroken htext] at happend
  refine happend ?_ (by simp)
  intro head hhead _
  rw [← Option.some.inj hhead]
  exact hfit

/-- A line feed before the text puts it on a line of its own. -/
theorem Sound.newLine (h : Sound out column) (htext : ∀ u ∈ text, isEol u = false)
    (hfit : origin = .data → text.length ≤ maxLineLength) :
    Sound (out ++ tagged origin (UChar.nl :: text)) text.length := by
  have happend := h.append origin (UChar.nl :: text)
  rw [lines_break _ rfl, lines_of_unbroken htext] at happend
  have hcurrent : current isEol (UChar.nl :: text) = text := by
    rw [current, lines_break _ rfl, lines_of_unbroken htext]
    rfl
  rw [hcurrent] at happend
  refine happend ?_ ?_
  · intro head hhead hne
    exact absurd (Option.some.inj hhead).symm hne
  · intro line hline hdata
    rw [List.mem_singleton.mp hline]
    exact hfit hdata

end Sound

section Tracked

variable {c t : Context} {e : Event} {site : Site} {origin : Origin} {text : UStr} {column : Nat}

theorem Tracked.of_eq (h : Tracked c) (hrecord : t.record = c.record) (hout : t.out = c.out)
    (hcolumn : t.column = c.column) : Tracked t := by
  constructor
  · rw [hrecord]
    exact h.accounted_iff
  · rw [hrecord, hout, hcolumn]
    exact h.sound

theorem Tracked.note (h : Tracked c) (haccounted : e.Accounted) (hcareful : e.Careful) :
    Tracked (c.note e) := by
  constructor
  · rw [Context.note, List.forall_mem_cons, List.forall_mem_cons, h.accounted_iff]
    exact and_congr_left fun _ => iff_of_true haccounted hcareful
  · intro hall
    exact h.sound (List.forall_mem_cons.mp hall).2

/-- A print operation keeps a run accounted for if, where the counter is right, it is careful just
where the counter is right afterwards. -/
theorem Tracked.write (h : Tracked c)
    (hwrite : Sound c.out c.column →
      (site.Careful c.column ↔ Sound (c.out ++ tagged origin text) column)) :
    Tracked (c.write site origin text column) := by
  constructor
  · rw [Context.write, Context.note, List.forall_mem_cons, List.forall_mem_cons]
    constructor
    · rintro ⟨hsound, hall⟩
      have hcareful := h.accounted_iff.mp hall
      exact ⟨(hwrite (h.sound hcareful)).mpr hsound, hcareful⟩
    · rintro ⟨hsite, hall⟩
      exact ⟨(hwrite (h.sound hall)).mp hsite, h.accounted_iff.mpr hall⟩
  · intro hall
    obtain ⟨hsite, hrest⟩ := List.forall_mem_cons.mp hall
    exact (hwrite (h.sound hrest)).mp hsite

/-- The runs that are accounted for just where their print operations were careful stay so. -/
def accounting : Discipline Halt Context where
  step := fun c t => Tracked c → Tracked t
  halt := fun _ c t => Tracked c → Tracked t
  refl := fun _ h => h
  trans := fun h h' hc => h' (h hc)
  step_halt := fun h h' hc => h' (h hc)

theorem keeps_modify {g : Context → Context} (h : ∀ c, Tracked c → Tracked (g c)) :
    Keeps False accounting (modify g) := h

theorem keeps_fail {α : Type} (result : Int) : Keeps False accounting (fail result : Print α) :=
  fun _ h => h

/-- A print operation that needs no care. -/
theorem post_put (h : Sound c.out c.column → Sound (c.out ++ tagged origin text) column) :
    Post False (put .other origin text column) c (fun _ t => Tracked c → Tracked t) fun _ t =>
      Tracked c → Tracked t :=
  fun hc => hc.write fun hs => iff_of_true trivial (h hs)

end Tracked

section Whitespace

theorem unbroken_of_uncounted {ws : UStr} (h : uncounted ws = none) :
    ∀ u ∈ ws, isEol u = false := by
  induction ws with
  | nil => simp
  | cons u ws ih =>
    rw [uncounted] at h
    split at h
    · simp at h
    · rename_i hnone
      rw [List.forall_mem_cons]
      exact ⟨by simpa using h, ih hnone⟩

/-- The units that are not counted are those before the last line of the piece. -/
theorem uncounted_add {ws : UStr} {n : Nat} (h : uncounted ws = some n) :
    (lines isEol ws).tail ≠ [] ∧ n + (current isEol ws).length = ws.length := by
  induction ws generalizing n with
  | nil => simp [uncounted] at h
  | cons u ws ih =>
    have hcurrent := @length_current_append _ isEol [u] ws
    rw [List.singleton_append] at hcurrent
    rw [uncounted] at h
    cases hws : uncounted ws with
    | some k =>
      obtain ⟨htail, hlength⟩ := ih hws
      rw [if_neg htail] at hcurrent
      simp only [hws, Option.some.injEq] at h
      refine ⟨?_, by rw [hcurrent, List.length_cons]; omega⟩
      rw [lines_cons]
      split
      · exact lines_ne_nil
      · simpa using htail
    | none =>
      have hunbroken := unbroken_of_uncounted hws
      cases hu : isEol u with
      | false => simp [hws, hu] at h
      | true =>
        rw [hws] at h
        simp only [hu, if_true, Option.some.injEq] at h
        rw [lines_of_unbroken hunbroken] at hcurrent
        rw [lines_break u hu, hcurrent, ← h]
        have hempty : current isEol [u] = [] := by
          rw [current, lines_break u hu]
          rfl
        simp [hempty, lines_ne_nil, Nat.add_comm]

theorem keeps_printPiece (node : WsNode) : Keeps False accounting (printPiece node) := by
  refine keeps_modify fun c hc => ?_
  refine Tracked.note (.write (.note hc ?_ ?_) fun hs => iff_of_true ?_ ?_) ?_ ?_
  any_goals exact trivial
  have happend := hs.append .whitespace node.ws (fun _ _ _ h => absurd h (by decide))
    fun _ _ h => absurd h (by decide)
  change Sound _ (wsColumn node.ws c.column)
  rw [wsColumn]
  cases hws : uncounted node.ws with
  | none =>
    rw [lines_of_unbroken (unbroken_of_uncounted hws)] at happend
    exact happend
  | some n =>
    obtain ⟨htail, hlength⟩ := uncounted_add hws
    rw [if_neg htail] at happend
    have hcolumn : node.ws.length - n = (current isEol node.ws).length := by omega
    rw [← hcolumn] at happend
    exact happend

theorem keeps_printPieces (nodes : List WsNode) : Keeps False accounting (printPieces nodes) := by
  induction nodes with
  | nil => exact .pure _
  | cons node nodes ih =>
    rw [printPieces]
    exact (keeps_printPiece node).bind fun _ => ih.bind fun _ => .pure _

theorem keeps_printWsRun : Keeps False accounting printWsRun := by
  refine Keeps.read.bind fun c => ?_
  split
  · exact .pure _
  · refine Keeps.bind (keeps_modify ?_) fun _ => keeps_printPieces _
    exact fun _ hc => hc.of_eq rfl rfl rfl

theorem keeps_printWsRuns (k : Nat) : Keeps False accounting (printWsRuns k) := by
  induction k with
  | zero => exact .pure _
  | succ k ih =>
    rw [printWsRuns]
    exact keeps_printWsRun.bind fun _ => ih.bind fun _ => .pure _

theorem keeps_printAllWsRuns : Keeps False accounting printAllWsRuns :=
  Keeps.read.bind fun _ => keeps_printWsRuns _

theorem keeps_flushWs (runs : List (List WsNode)) : Keeps False accounting (flushWs runs) := by
  refine keeps_modify fun _ hc => .note (.note hc ?_ ?_) ?_ ?_
  all_goals exact trivial

theorem Tracked.dropStart {c : Context} (h : Tracked c) (run : List WsNode)
    (runs : List (List WsNode)) :
    Tracked (c.dropStart run runs) := by
  rw [Context.dropStart]
  split
  · exact h
  · exact (h.note (e := .freed _) trivial trivial).of_eq rfl rfl rfl

theorem keeps_consumeVersionComment : Keeps False accounting consumeVersionComment := by
  refine keeps_modify fun c hc => ?_
  rw [Context.consumeStart]
  split
  · exact hc
  · exact Tracked.dropStart (hc.note (e := .touched _) trivial trivial) ..

theorem keeps_preserveWhitespace (ws : List UChar) :
    Keeps False accounting (preserveWhitespace ws) := by
  refine keeps_modify fun c hc => ?_
  have hdelivered : Tracked
      ((c.note (.touched c.wsQueue.flatten)).note (.delivered (c.piece ws))) := by
    refine .note (.note hc ?_ ?_) ?_ ?_
    all_goals exact trivial
  exact hdelivered.of_eq rfl rfl rfl

end Whitespace

section Output

variable {c : Context} {out : List OutUnit} {text : UStr} {column : Nat}

/-- Text on a line of its own is within the limit if the output is. -/
theorem Sound.length_le_of_newLine (h : Sound (out ++ tagged .data (UChar.nl :: text)) column)
    (htext : ∀ u ∈ text, isEol u = false) : text.length ≤ maxLineLength := by
  have hline : tagged .data text ∈ lines OutUnit.isEol
      (out ++ tagged .data (UChar.nl :: text)) := by
    refine mem_lines_append ?_
    rw [lines_tagged, lines_break _ rfl, lines_of_unbroken htext]
    exact List.mem_singleton_self _
  have hfits := h.fits _ hline (by simp [Bare, tagged])
  rwa [tagged, List.length_map] at hfits

theorem Sound.length_le_of_start (hstart : Sound out 0)
    (h : Sound (out ++ tagged .data text) column) (htext : ∀ u ∈ text, isEol u = false) :
    text.length ≤ maxLineLength := by
  have hempty : current OutUnit.isEol out = [] :=
    List.eq_nil_of_length_eq_zero hstart.column_eq.symm
  have hunbroken : ∀ u ∈ tagged .data text, u.isEol = false := by
    intro u hu
    obtain ⟨x, hx, rfl⟩ := List.mem_map.mp hu
    exact htext x hx
  have hline := @current_mem_lines _ OutUnit.isEol (out ++ tagged .data text)
  rw [current_append_of_unbroken hunbroken, hempty, List.nil_append] at hline
  have hfits := h.fits _ hline (by simp [Bare, tagged])
  rwa [tagged, List.length_map] at hfits

/-- After `ensure_space` the output goes to the start of a line, or there is room for it. -/
theorem post_ensureSpace {minimumSpace dataLength : Nat} (hmin : minimumSpace ≤ 1) :
    Post False (ensureSpace minimumSpace dataLength) c
      (fun _ t => (Tracked c → Tracked t) ∧ (t.column = 0 ∨ dataLength + t.column ≤ maxLineLength))
      fun _ t => Tracked c → Tracked t := by
  rw [ensureSpace, post_bind, post_read, post_when]
  refine ⟨fun hpos => ?_, fun hzero => ⟨fun hc => hc, .inl (by omega)⟩⟩
  rw [post_ite]
  constructor
  · intro _
    refine ⟨fun hc => hc.write fun hs => iff_of_true trivial ?_, .inl rfl⟩
    exact hs.newLine (by simp) fun _ => by decide
  · intro hfits
    rw [post_when]
    constructor
    · intro hne
      refine ⟨fun hc => hc.write fun hs => iff_of_true trivial ?_, .inr ?_⟩
      · exact hs.unbroken _ (by decide) fun _ => by simp; omega
      · change dataLength + (c.column + 1) ≤ maxLineLength
        omega
    · exact fun _ => ⟨fun hc => hc, .inr (by omega)⟩

theorem keeps_ensureSpace {minimumSpace dataLength : Nat} (hmin : minimumSpace ≤ 1) :
    Keeps False accounting (ensureSpace minimumSpace dataLength) := fun _ =>
  (post_ensureSpace hmin).imp (fun _ _ h => h.1) fun _ _ h => h

/-- `print_u_literal` is careful where a line can hold the string. -/
theorem keeps_printULiteral {site : Site} {str : UStr} {line1Length : Nat} (precedingSpace : Int)
    (hstr : ∀ u ∈ str, isEol u = false) (hlength : line1Length = str.length)
    (hsite : ∀ before, site.Careful before ↔ str.length ≤ maxLineLength) :
    Keeps False accounting (printULiteral site precedingSpace str line1Length) := by
  intro c
  subst hlength
  rw [printULiteral, post_bind, post_read, post_ite]
  constructor
  · intro hne
    rw [post_ite]
    constructor
    · intro _
      rw [post_ite]
      refine ⟨fun _ hc => hc, fun _ hc => ?_⟩
      refine hc.write fun hs => (hsite _).trans ⟨?_, ?_⟩
      · exact fun hle => hs.newLine hstr fun _ => hle
      · exact fun hnew => hnew.length_le_of_newLine hstr
    · intro hfits hc
      have hroom : c.column + (precedingSpace.toNat + str.length) ≤ maxLineLength := by omega
      refine hc.write fun hs => iff_of_true ((hsite _).mpr (by omega)) ?_
      have hunbroken : ∀ u ∈ List.replicate precedingSpace.toNat UChar.sp ++ str,
          isEol u = false := by
        intro u hu
        rcases List.mem_append.mp hu with hsp | hu
        · rw [List.eq_of_mem_replicate hsp]
          rfl
        · exact hstr u hu
      have happend := hs.unbroken .data hunbroken fun _ => by simpa using hroom
      rwa [List.length_append, List.length_replicate, ← Nat.add_assoc] at happend
  · intro hzero hc
    have hcolumn : c.column = 0 := not_not.mp hzero
    refine hc.write fun hs => (hsite _).trans ⟨fun hle => ?_, fun hnew => ?_⟩
    · have happend := hs.unbroken .data hstr fun _ => by omega
      rwa [hcolumn, Nat.zero_add] at happend
    · exact (hcolumn ▸ hs).length_le_of_start hnew hstr

/-- A literal of the program is short. -/
theorem keeps_literal {str : UStr} {line1Length : Nat} (precedingSpace : Int)
    (hstr : ∀ u ∈ str, isEol u = false) (hlength : line1Length = str.length)
    (hshort : str.length ≤ maxLineLength) :
    Keeps False accounting (printULiteral .other precedingSpace str line1Length) :=
  keeps_printULiteral precedingSpace hstr hlength fun _ => iff_of_true trivial hshort

theorem keeps_name (precedingSpace : Int) {name : UStr} (hname : ∀ u ∈ name, isEol u = false) :
    Keeps False accounting (printULiteral (.name name) precedingSpace name name.length) :=
  keeps_printULiteral precedingSpace hname rfl fun _ => Iff.rfl

end Output

section Values

variable {c : Context} {text : UStr} {a : StringAnalysis} {allowUnquoted allowTripleQuoted : Bool}

/-- A value on one line is accounted for only at the start of the line. -/
theorem Tracked.oneLine (h : Tracked c) (hcr : UChar.cr ∉ text)
    (ha : a = analyzeString text allowUnquoted allowTripleQuoted maxLineLength)
    (hdelim : a.delimLength ≠ 2) (hone : ¬ (a.delimLength = 3 ∧ 1 < a.numLines)) :
    Tracked (c.write .oneLine .data (a.delim ++ text ++ a.delim) (a.lengthFirst
      + 2 * a.delimLength)) := by
  obtain ⟨hunbroken, hlength, hfits⟩ := quoted_oneLine hcr ha hdelim hone
  refine h.write fun hs => ⟨fun hstart => ?_, fun hnew => ?_⟩
  · have hzero : c.column = 0 := hstart
    have happend := hs.unbroken .data hunbroken fun _ => by omega
    rw [hlength, hzero, Nat.zero_add] at happend
    exact happend
  · have hcolumn := hnew.column_eq
    have hcurrent : (current OutUnit.isEol (c.out
        ++ tagged .data (a.delim ++ text ++ a.delim))).length
        = c.column + (a.lengthFirst + 2 * a.delimLength) := by
      rw [length_current_append, lines_tagged, lines_of_unbroken hunbroken, List.map_singleton,
        List.tail_cons,
        if_pos rfl, ← hs.column_eq, tagged, List.length_map, hlength]
    rw [hcurrent] at hcolumn
    change c.column = 0
    omega

/-- A value on several lines is accounted for where there is room for its first line. -/
theorem Tracked.manyLines (h : Tracked c) (hcr : UChar.cr ∉ text)
    (ha : a = analyzeString text allowUnquoted allowTripleQuoted maxLineLength)
    (hdelim : a.delimLength = 3) (hlines : 1 < a.numLines)
    (hroom : c.column = 0 ∨ a.lengthFirst + 3 + c.column ≤ maxLineLength) :
    Tracked (c.write .other .data (a.delim ++ text ++ a.delim) (a.lengthLast + 3)) := by
  obtain ⟨first, rest, hall, hne, hfirst, hfits, hlast, hrest⟩ := quoted_lines hcr ha hdelim hlines
  refine h.write fun hs => iff_of_true trivial ?_
  have happend := hs.append .data (a.delim ++ text ++ a.delim) ?_ ?_
  · rwa [hall, List.tail_cons, if_neg hne, hlast] at happend
  · intro head hhead _ _
    rw [hall] at hhead
    rw [← Option.some.inj hhead]
    omega
  · intro line hline _
    rw [hall] at hline
    exact hrest line hline

/-- A text field is accounted for where its prefix does not make a line too long. -/
theorem Tracked.textField {field : UStr} (h : Tracked c) (hcr : UChar.cr ∉ text)
    (ha : a = analyzeString text allowUnquoted allowTripleQuoted maxLineLength)
    (hfield : printTextField (folds a) (prefixes a) text = some field) :
    Tracked (c.write (.textField (folds a) (prefixes a) text) .data field 1) := by
  have hmeasured : a.Measured text := ha ▸ analyzeString_measured (firstIsCrlf_of_no_cr hcr) ..
  have hfits : folds a = false → (∀ line ∈ stringLines text, line.length ≤ maxLineLength)
      ∧ ∀ line, (stringLines text).head? = some line → line.length < maxLineLength := by
    intro hfold
    simp only [folds, Bool.or_eq_false_iff, decide_eq_false_iff_not] at hfold
    constructor
    · intro line hline
      have hle := hmeasured.lengthMax_le line hline
      omega
    · intro line hline
      have hfirst := hmeasured.lengthFirst
      rw [hline] at hfirst
      have heq := Option.some.inj hfirst
      omega
  obtain ⟨first, segments, hall, hiff⟩ := printTextField_lines hcr hfield hfits
  rw [FieldLines] at hall
  have hcurrent : current isEol field = [UChar.semi] := by
    rw [current, hall, getLastD_append_of_ne_nil (List.cons_ne_nil _ _)]
    rfl
  refine h.write fun hs => hiff.symm.trans ⟨fun hshort => ?_, fun hnew => ?_⟩
  · have happend := hs.append .data field ?_ ?_
    · rw [hall, if_neg (by simp), hcurrent] at happend
      exact happend
    · intro head hhead hne
      rw [hall] at hhead
      exact absurd (Option.some.inj hhead).symm hne
    · intro line hline _
      rw [hall] at hline
      simp only [List.cons_append, List.tail_cons, List.mem_cons, List.mem_append, List.not_mem_nil,
        or_false] at hline
      rcases hline with rfl | hmem | rfl
      · exact hshort.1
      · exact hshort.2 line hmem
      · decide
  · have hline : ∀ line ∈ (UChar.semi :: first) :: segments, line.length ≤ maxLineLength := by
      intro line hmem
      have hnewLine : tagged .data line ∈ lines OutUnit.isEol (c.out ++ tagged .data field) := by
        refine mem_lines_append ?_
        rw [lines_tagged, hall, ← List.map_tail]
        exact List.mem_map_of_mem (List.mem_append_left _ hmem)
      have hle := hnew.fits _ hnewLine (by simp [Bare, tagged])
      rwa [tagged, List.length_map] at hle
    exact ⟨hline _ (List.mem_cons_self ..), fun segment hs =>
      hline segment (List.mem_cons_of_mem _ hs)⟩

theorem keeps_printWsBefore (wsNeeded : Nat) : Keeps False accounting (printWsBefore wsNeeded) :=
  .ite (fun _ => keeps_printAllWsRuns) fun _ => keeps_printWsRun

theorem keeps_printValueText (hcr : UChar.cr ∉ text) (quoted : Bool) (wsNeeded : Nat) :
    Keeps False accounting (printValueText text quoted wsNeeded) := by
  rw [printValueText]
  refine (keeps_printWsBefore wsNeeded).bind fun nWs => ?_
  refine Keeps.read.bind fun d => ?_
  generalize hanalysis : analyzeString text (!quoted) (d.outputFormat ≠ .cif11) maxLineLength = a
  refine .ite (fun _ => ?_) fun hdelim => ?_
  · split
    · exact .stop fun _ h => h
    · rename_i field hfield
      exact fun c hc => hc.textField hcr hanalysis.symm hfield
  · refine .ite (fun hmany => ?_) fun hone => fun c => ?_
    · rw [Bool.and_eq_true, decide_eq_true_eq, decide_eq_true_eq] at hmany
      intro c
      refine (post_ensureSpace (by split <;> decide)).bind fun _ t ht hc => ?_
      exact (ht.1 hc).manyLines hcr hanalysis.symm hmany.1 hmany.2 ht.2
    · rw [Bool.and_eq_true, decide_eq_true_eq, decide_eq_true_eq] at hone
      refine (post_ensureSpace (by split <;> decide)).bind fun _ t ht hc => ?_
      exact (ht.1 hc).oneLine hcr hanalysis.symm hdelim hone

theorem keeps_refuse : Keeps False accounting refuse := by
  refine Keeps.read.bind fun c => ?_
  refine Keeps.bind (keeps_modify ?_) fun _ => (keeps_flushWs _).bind fun _ => keeps_fail _
  exact fun _ hc => hc.note trivial trivial

theorem keeps_printBracketed {opening closing : UChar} {contents : Print Unit}
    (hopening : isEol opening = false) (hclosing : isEol closing = false)
    (hcontents : Keeps False accounting contents) :
    Keeps False accounting (printBracketed opening closing contents) := by
  refine Keeps.read.bind fun c => .ite (fun _ => keeps_refuse) fun _ => ?_
  refine (keeps_literal _ (by simpa using hopening) rfl (by simp)).bind fun _ => ?_
  refine hcontents.bind fun _ => keeps_printWsRun.bind fun _ => ?_
  exact keeps_literal _ (by simpa using hclosing) rfl (by simp)

theorem keeps_printPlaceholder {literal : UChar} (hliteral : isEol literal = false)
    (wsNeededMax : Nat) :
    Keeps False accounting (printPlaceholder literal wsNeededMax) :=
  (keeps_printWsBefore wsNeededMax).bind fun _ =>
    keeps_literal _ (by simpa using hliteral) rfl (by simp)

theorem keeps_separateBracketed (wsNeededMax : Nat) :
    Keeps False accounting (separateBracketed wsNeededMax) :=
  keeps_printWsRun.bind fun _ => .when fun _ => keeps_ensureSpace (Nat.le_refl 1)

end Values

mutual

/-- Whether there are no carriage returns in a value, as there are none in what the parser
provides. -/
def crFree : Value → Bool
  | .char text _ => !text.contains UChar.cr
  | .numb number _ => !number.text.contains UChar.cr
  | .list elements => crFreeElements elements
  | .table entries => crFreeEntries entries
  | .na | .unk => true

def crFreeElements : List Value → Bool
  | [] => true
  | element :: elements => crFree element && crFreeElements elements

def crFreeEntries : List (UStr × UStr × Value) → Bool
  | [] => true
  | (_, key, value) :: entries => !key.contains UChar.cr && crFree value && crFreeEntries entries

end

section Values

theorem notMem_of_not_contains {text : UStr} (h : (!text.contains UChar.cr) = true) :
    UChar.cr ∉ text := by
  simpa using h

mutual

theorem keeps_printValue : ∀ (value : Value) (wsNeededMax : Nat), crFree value = true →
    Keeps False accounting (printValue value wsNeededMax)
  | .char text quoted, wsNeededMax, h => by
    rw [printValue]
    exact keeps_printValueText (notMem_of_not_contains h) quoted wsNeededMax
  | .numb number quoted, wsNeededMax, h => by
    rw [printValue]
    exact keeps_printValueText (notMem_of_not_contains h) quoted wsNeededMax
  | .na, wsNeededMax, _ => by
    rw [printValue]
    exact keeps_printPlaceholder rfl wsNeededMax
  | .unk, wsNeededMax, _ => by
    rw [printValue]
    exact keeps_printPlaceholder rfl wsNeededMax
  | .list elements, wsNeededMax, h => by
    rw [printValue]
    refine (keeps_separateBracketed wsNeededMax).bind fun _ => keeps_printBracketed rfl rfl ?_
    exact keeps_printElements elements 0 h
  | .table entries, wsNeededMax, h => by
    rw [printValue]
    refine (keeps_separateBracketed wsNeededMax).bind fun _ => keeps_printBracketed rfl rfl ?_
    exact keeps_printEntries entries 0 h

theorem keeps_printElements :
    ∀ (elements : List Value) (wsNeeded : Nat), crFreeElements elements = true →
    Keeps False accounting (printElements wsNeeded elements)
  | [], wsNeeded, _ => by
    rw [printElements]
    exact .pure _
  | element :: elements, wsNeeded, h => by
    rw [crFreeElements, Bool.and_eq_true] at h
    rw [printElements]
    exact (keeps_printValue element wsNeeded h.1).bind fun _ => keeps_printElements elements 1 h.2

theorem keeps_printEntries : ∀ (entries : List (UStr × UStr × Value)) (wsNeeded : Nat),
    crFreeEntries entries = true → Keeps False accounting (printEntries wsNeeded entries)
  | [], wsNeeded, _ => by
    rw [printEntries]
    exact .pure _
  | (_, key, value) :: entries, wsNeeded, h => by
    rw [crFreeEntries, Bool.and_eq_true, Bool.and_eq_true] at h
    rw [printEntries]
    refine (keeps_printValueText (notMem_of_not_contains h.1.1) true wsNeeded).bind fun _ => ?_
    refine (keeps_literal spaceForbidden (by decide) rfl (by decide)).bind fun _ => ?_
    exact (keeps_printValue value 0 h.1.2).bind fun _ => keeps_printEntries entries 1 h.2

end

end Values

/-- What the parser gives to the callbacks after the first one, error reports included, where codes
and names are valid; there are no carriage returns in values. -/
def Callback.Ordinary : Callback → Prop
  | .cifStart => False
  | .blockStart code | .frameStart code => ∀ str, code = .ok str → isValidName str false = true
  | .loopStart names => ∀ strs, names = .ok strs → ∀ name ∈ strs, isValidName name true = true
  | .item name value => (∀ str, name = some str → isValidName str true = true) ∧ crFree value = true
  | _ => True

section Callbacks

variable {c : Context} {name : UStr}

theorem unbroken_of_isValidName {forItem : Bool} (h : isValidName name forItem = true) :
    ∀ u ∈ name, isEol u = false := by
  intro u hu
  simp only [isValidName, Bool.and_eq_true, Bool.not_eq_true'] at h
  have hspace := h.1.2
  rw [hasWhitespace, List.any_eq_false] at hspace
  have hlarge := hspace u hu
  rw [Bool.eq_false_iff, ne_eq, isEol_iff]
  rw [decide_eq_true_eq] at hlarge
  rintro (rfl | rfl) <;> exact hlarge (by decide)

theorem length_of_isValidName {forItem : Bool} (h : isValidName name forItem = true) :
    (if forItem then 2 else 1) ≤ name.length := by
  simp only [isValidName, Bool.and_eq_true] at h
  cases forItem <;> rcases name with _ | ⟨u, _ | ⟨v, name⟩⟩ <;> simp_all

theorem keeps_answer {α : Type} (r : Except Int α) : Keeps False accounting (answer r) := by
  cases r with
  | ok a => exact .pure a
  | error result => exact keeps_fail result

theorem keeps_printCode {code : Except Int UStr} {type : UStr} (htype : ∀ u ∈ type, isEol u = false)
    (hlong : 5 ≤ type.length) (hcode : ∀ str, code = .ok str → isValidName str false = true) :
    Keeps False accounting (printCode code type) := by
  cases code with
  | error result => exact keeps_fail result
  | ok str =>
    have hvalid := hcode str rfl
    have hlength := length_of_isValidName hvalid
    have hunbroken : ∀ u ∈ type ++ str, isEol u = false := by
      intro u hu
      rcases List.mem_append.mp hu with hu | hu
      · exact htype u hu
      · exact unbroken_of_isValidName hvalid u hu
    refine keeps_printAllWsRuns.bind fun n => .ite (fun _ => ?_) fun _ => .ite (fun hshort => ?_)
      fun _ => ?_
    · refine (keeps_ensureSpace (Nat.zero_le _)).bind fun _ => ?_
      intro c hc
      exact hc.write fun hs => iff_of_true trivial (hs.unbroken _ hunbroken fun h =>
        absurd h (by decide))
    · rw [List.length_append] at hshort
      simp only [Bool.false_eq_true, if_false] at hlength
      omega
    · intro c hc
      exact hc.write fun hs => iff_of_true trivial (hs.newLine hunbroken fun h =>
        absurd h (by decide))

theorem keeps_leaveStart : Keeps False accounting leaveStart := by
  refine Keeps.read.bind fun c => .when fun _ => keeps_consumeVersionComment.bind fun _ =>
    keeps_modify ?_
  exact fun _ hc => hc.of_eq rfl rfl rfl

theorem keeps_openBlock {code : Except Int UStr}
    (hcode : ∀ str, code = .ok str → isValidName str false = true) :
    Keeps False accounting (openBlock code) := by
  refine keeps_leaveStart.bind fun _ => ?_
  refine Keeps.bind (keeps_modify ?_) fun _ => keeps_printCode (by decide) (by decide) hcode
  exact fun _ hc => hc.of_eq rfl rfl rfl

theorem keeps_flushContainer (flushed : Int) : Keeps False accounting (flushContainer flushed) := by
  refine Keeps.bind (keeps_modify ?_) fun _ => .when fun _ => keeps_fail _
  exact fun _ hc => hc.of_eq rfl rfl rfl

theorem keeps_openFrame {code : Except Int UStr}
    (hcode : ∀ str, code = .ok str → isValidName str false = true) :
    Keeps False accounting (openFrame code) := by
  refine Keeps.bind (keeps_modify ?_) fun _ => Keeps.read.bind fun c => .when fun _ => ?_
  · exact fun _ hc => hc.of_eq rfl rfl rfl
  · refine Keeps.bind (keeps_modify ?_) fun _ => keeps_printCode (by decide) (by decide) hcode
    exact fun _ hc => hc.of_eq rfl rfl rfl

theorem keeps_finishFrame (flushed : Int) : Keeps False accounting (finishFrame flushed) := by
  refine keeps_printAllWsRuns.bind fun n => Keeps.bind (keeps_modify ?_) fun _ => ?_
  · exact fun _ hc => hc.of_eq rfl rfl rfl
  · refine Keeps.read.bind fun c => Keeps.bind (.when fun _ => .ite (fun _ => ?_) fun _ => ?_)
      fun _ =>
      keeps_flushContainer flushed
    · exact keeps_literal _ (by decide) rfl (by decide)
    · intro c hc
      refine hc.write fun hs => iff_of_true trivial ?_
      have hlines : lines isEol (units "\nsave_\n") = [[], units "save_", []] := by decide
      have happend := hs.append .data (units "\nsave_\n") ?_ ?_
      · rw [current, hlines] at happend
        exact happend
      · intro head hhead hne
        rw [hlines] at hhead
        exact absurd (Option.some.inj hhead).symm hne
      · rw [hlines]
        decide

theorem keeps_newLine {c : Context} : Post False (put .other .data [UChar.nl] 0) c
    (fun _ t => Tracked c → Tracked t) fun _ t => Tracked c → Tracked t :=
  post_put fun hs => hs.newLine (by simp) fun _ => by decide

theorem keeps_printNames {names : List UStr}
    (hnames : ∀ name ∈ names, ∀ u ∈ name, isEol u = false) :
    Keeps False accounting (printNames names) := by
  induction names with
  | nil => exact .pure _
  | cons name names ih =>
    rw [printNames]
    refine keeps_printWsRun.bind fun n => Keeps.bind (.when fun _ _ => keeps_newLine) fun _ => ?_
    refine (keeps_name spaceAllowed (hnames name (by simp))).bind fun _ => ?_
    exact ih fun name hname => hnames name (List.mem_cons_of_mem _ hname)

theorem keeps_printPlaceholders (names : List UStr) :
    Keeps False accounting (printPlaceholders names) := by
  induction names with
  | nil => exact .pure _
  | cons name names ih => exact (keeps_literal _ (by decide) rfl (by decide)).bind fun _ => ih

/-- A line feed that is not counted is accounted for only at the start of a line. -/
theorem keeps_putUnaccounted : Keeps False accounting putUnaccounted := by
  intro c hc
  refine hc.write fun hs => ⟨fun hzero => ?_, fun hnew => ?_⟩
  · have hcolumn : c.column = 0 := hzero
    rw [hcolumn]
    exact hs.newLine (by simp) fun _ => by decide
  · have hcolumn := hnew.column_eq
    rw [length_current_append] at hcolumn
    exact hcolumn

theorem keeps_printLoopKeyword : Keeps False accounting printLoopKeyword := by
  refine keeps_printWsRun.bind fun n => .ite (fun _ => ?_) fun _ => ?_
  · exact keeps_literal _ (by decide) rfl (by decide)
  · intro c hc
    exact hc.write fun hs => iff_of_true trivial (hs.newLine (by decide) fun _ => by decide)

theorem keeps_printDummyPacket (names : List UStr) :
    Keeps False accounting (printDummyPacket names) := by
  refine Keeps.bind (keeps_modify ?_) fun _ => Keeps.bind (fun _ => keeps_newLine) fun _ => ?_
  · exact fun _ hc => hc.of_eq rfl rfl rfl
  · exact (keeps_printPlaceholders names).bind fun _ => keeps_putUnaccounted

theorem keeps_handleLoopStart {names : Except Int (List UStr)}
    (hnames : ∀ strs, names = .ok strs → ∀ name ∈ strs, isValidName name true = true) :
    Keeps False accounting (handleLoopStart names) := by
  refine Keeps.bind (keeps_modify ?_) fun _ => Keeps.read.bind fun c => .ite (fun _ => ?_) fun _ =>
    ?_
  · exact fun _ hc => hc.of_eq rfl rfl rfl
  · exact keeps_printAllWsRuns.bind fun _ => .pure _
  · refine Keeps.bind (keeps_modify ?_) fun _ => keeps_printLoopKeyword.bind fun _ => ?_
    · exact fun _ hc => hc.of_eq rfl rfl rfl
    · cases names with
      | error result => exact keeps_fail result
      | ok strs =>
        refine (keeps_printNames fun name hname =>
          unbroken_of_isValidName (hnames strs rfl name hname)).bind fun _ => ?_
        exact Keeps.read.bind fun c => .when fun _ => keeps_printDummyPacket strs

theorem keeps_injectNewline : Keeps False accounting injectNewline :=
  Keeps.read.bind fun _ => .when fun _ => keeps_preserveWhitespace _

theorem keeps_handleLoopEnd : Keeps False accounting handleLoopEnd := by
  refine Keeps.read.bind fun c => .when fun _ => Keeps.bind (keeps_modify ?_) fun _ =>
    keeps_injectNewline
  exact fun _ hc => hc.of_eq rfl rfl rfl

theorem keeps_keepFirstRuns (inLoop : Bool) (first : List WsNode) (runs : List (List WsNode)) :
    Keeps False accounting (keepFirstRuns inLoop first runs) := by
  have hqueue : ∀ queue, Keeps False accounting (modify (·.setQueue queue)) :=
    fun queue => keeps_modify fun _ hc => hc.of_eq rfl rfl rfl
  refine .ite (fun _ => (keeps_flushWs _).bind fun _ => hqueue _) fun _ => ?_
  cases runs with
  | nil => exact .pure _
  | cons second runs => exact (keeps_flushWs _).bind fun _ => hqueue _

theorem keeps_suppressItem : Keeps False accounting suppressItem := by
  refine Keeps.read.bind fun c => ?_
  split
  · exact .pure _
  · refine (keeps_keepFirstRuns _ _ _).bind fun _ => keeps_modify ?_
    exact fun _ hc => hc.of_eq rfl rfl rfl

theorem keeps_printDataname (hname : isValidName name true = true) :
    Keeps False accounting (printDataname name) := by
  have hunbroken := unbroken_of_isValidName hname
  have hlength := length_of_isValidName hname
  simp only [if_true] at hlength
  refine keeps_printWsRun.bind fun n => .ite (fun _ => keeps_name _ hunbroken) fun _ =>
    .ite (fun _ => ?_) fun _ => ?_
  · omega
  · intro c hc
    refine hc.write fun hs => ⟨fun hle => hs.newLine hunbroken fun _ => hle, fun hnew => ?_⟩
    exact hnew.length_le_of_newLine hunbroken

theorem keeps_printItem {name : Option UStr} {value : Value}
    (hname : ∀ str, name = some str → isValidName str true = true) (hvalue : crFree value = true) :
    Keeps False accounting (printItem name value) := by
  refine Keeps.read.bind fun c => ?_
  cases name with
  | none => exact keeps_suppressItem
  | some str =>
    refine .ite (fun _ => keeps_suppressItem) fun _ => Keeps.bind (keeps_modify ?_) fun _ => ?_
    · exact fun _ hc => hc.of_eq rfl rfl rfl
    · refine Keeps.bind (.when fun _ => keeps_printDataname (hname str rfl)) fun _ => ?_
      exact keeps_printValue value 2 hvalue

theorem keeps_handleCifEnd : Keeps False accounting handleCifEnd :=
  keeps_leaveStart.bind fun _ => keeps_printAllWsRuns.bind fun _ => .when fun _ =>
    keeps_putUnaccounted

theorem keeps_errorCallback (code : Int) : Keeps False accounting (errorCallback code) := by
  refine Keeps.bind (keeps_modify ?_) fun _ => Keeps.read.bind fun c =>
    .ite (fun _ => keeps_fail code) fun _ => ?_
  · exact fun _ hc => hc.of_eq rfl rfl rfl
  · exact .when fun _ => keeps_modify fun _ hc => hc.of_eq rfl rfl rfl

/-- Every callback with ordinary arguments. -/
theorem keeps_handle {call : Callback} (h : call.Ordinary) :
    Keeps False accounting (handle call) := by
  cases call with
  | cifStart => exact h.elim
  | blockStart code => exact keeps_openBlock h
  | blockEnd flushed => exact keeps_flushContainer flushed
  | frameStart code => exact keeps_openFrame h
  | frameEnd flushed => exact keeps_finishFrame flushed
  | loopStart names => exact keeps_handleLoopStart h
  | loopEnd => exact keeps_handleLoopEnd
  | packetStart => exact Keeps.read.bind fun _ => .when fun _ => keeps_injectNewline
  | packetEnd => exact .pure _
  | item name value => exact keeps_printItem h.1 h.2
  | whitespace ws => exact keeps_preserveWhitespace ws
  | error code => exact keeps_errorCallback code

theorem keeps_handleAll {calls : List Callback} (h : ∀ call ∈ calls, call.Ordinary) :
    Keeps False accounting (handleAll calls) := by
  induction calls with
  | nil => exact .pure _
  | cons call calls ih =>
    exact (keeps_handle (h call (by simp))).bind fun _ => ih fun c hc =>
      h c (List.mem_cons_of_mem _ hc)

end Callbacks

section Conversion

variable (outputFormat : Format) (extraWs extraEol : UStr) (haltOnError : Bool)

theorem tracked_initial : Tracked (.initial outputFormat extraWs extraEol haltOnError) where
  accounted_iff := by simp [Context.initial]
  sound := fun _ => ⟨rfl, by
    intro line hline _
    rw [List.mem_singleton.mp hline]
    exact Nat.zero_le _⟩

theorem tracked_header {c : Context} (hc : Tracked c) (hcolumn : c.column = 0) :
    Tracked (c.write .other .heading (headers c.outputFormat) 0) := by
  refine hc.write fun hs => iff_of_true trivial ?_
  have happend := hs.append .heading (headers c.outputFormat)
    (fun _ _ _ h => absurd h (by decide)) fun _ _ h => absurd h (by decide)
  have hzero : (if (lines isEol (headers c.outputFormat)).tail = [] then
      c.column + (headers c.outputFormat).length
      else (current isEol (headers c.outputFormat)).length) = 0 := by
    rw [hcolumn]
    cases c.outputFormat <;> decide
  rwa [hzero] at happend

theorem keeps_convert {calls : List Callback} (h : ∀ call ∈ calls, call.Ordinary) :
    Keeps False accounting (convert calls) := by
  intro c
  rw [convert, post_bind, post_attempt]
  refine (keeps_handleAll h c).imp ?_ ?_
  · intro _ t ht
    exact (keeps_handleCifEnd t).imp (fun _ _ hr hc => hr (ht hc)) fun _ _ hr hc => hr (ht hc)
  · intro halt t ht
    cases halt with
    | assertion => exact ht
    | code result =>
      exact (keeps_handleCifEnd t).imp (fun _ _ hr hc => hr (ht hc)) fun _ _ hr hc => hr (ht hc)

/-- A conversion of a document with valid codes and names comes to an end. Its column counter is
right after each of its print operations, and no line made only of values, names and separators is
ever longer than the limit, if and only if the values and keys on one line are each printed at the
start of a line, and so is a line feed that is not counted, no name is longer than a line, and the
prefix does not make a line too long in a text field that is not folded. -/
theorem accounted_iff_careful {calls : List Callback} (h : ∀ call ∈ calls, call.Ordinary) :
    ∃ r c, convert (.cifStart :: calls)
      (.initial outputFormat extraWs extraEol haltOnError) = some (r, c)
      ∧ ((∀ e ∈ c.record, e.Accounted) ↔ ∀ e ∈ c.record, e.Careful) := by
  have hheader := tracked_header (tracked_initial outputFormat extraWs extraEol haltOnError) rfl
  have hrun :=
    keeps_convert h
    ((Context.initial outputFormat extraWs extraEol haltOnError).write .other .heading
    (headers outputFormat) 0)
  have hconvert : convert (.cifStart :: calls) (.initial outputFormat extraWs extraEol haltOnError)
      = convert calls
        ((Context.initial outputFormat extraWs extraEol haltOnError).write .other .heading
        (headers outputFormat) 0) := rfl
  rw [hconvert]
  obtain ⟨⟨r, c⟩, hc⟩ := Halts.exists hrun
  refine ⟨r, c, hc, Tracked.accounted_iff ?_⟩
  cases r with
  | ok a => exact hrun.of_ok hc hheader
  | error e => exact hrun.of_error hc hheader

/-- An item after an error that is let pass. -/
theorem accounted_iff_careful_item : ∃ r c,
    convert [.cifStart, .blockStart (.ok (units "b")), .error Code.overlengthLine,
          .item (some (units "_a")) (.char (units "1") false)]
        (.initial .cif20 [] [] false) = some (r, c)
      ∧ ((∀ e ∈ c.record, e.Accounted) ↔ ∀ e ∈ c.record, e.Careful) := by
  refine accounted_iff_careful .cif20 [] [] false ?_
  simp only [List.forall_mem_cons, List.not_mem_nil, false_implies, implies_true, and_true]
  refine ⟨?_, trivial, ?_, by decide⟩
  · rintro str ⟨⟩
    decide
  · rintro str ⟨⟩
    decide

/-- The counter only has the units of the value, on a line with the name. -/
example : (convert [.cifStart, .blockStart (.ok (units "b")),
    .item (some (units "_a")) (.char (units "1") false)]
    (.initial .cif20 [] [] false)).map (fun p => (p.2.column, (p.2.out.map (·.unit)).drop 19))
    = some (1, units "_a 1\n") := by decide

end Conversion

end CifApi.Linguist
