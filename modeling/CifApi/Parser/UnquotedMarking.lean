import CifApi.Parser.Values
import CifApi.Writer.Recommended

/-! Marking a string unquoted, and what the scanner and the parser read in its place. -/
namespace CifApi

open Exec Buffer

variable {σ : Type}

section Marking

variable {str text : UStr} {quoted : Bool}

/-- A string that can stand without delimiters for itself. -/
structure Bare (str : UStr) : Prop where
  nonempty : str ≠ []
  not_unk : str ≠ [UChar.query]
  not_na : str ≠ [UChar.decimal]
  unreserved : isReservedString str = false
  plain : ∀ c ∈ str, c ∉ unquotedStops

/-- The strings that can be marked unquoted, and remain character values. -/
theorem setQuoted_initChar : (Value.initChar str).setQuoted false = .ok (.char text quoted)
    ↔ Bare str ∧ text = str ∧ quoted = false := by
  unfold Value.initChar Value.setQuoted Value.setQuotedImpl
  have hstops : ∀ c : UChar, c ∈ [UChar.obrk, UChar.cbrk, UChar.obrc, UChar.cbrc]
      ++ [UChar.sp, UChar.tab, UChar.nl, UChar.cr] ↔ c ∈ unquotedStops := by
    intro c
    simp only [unquotedStops, List.mem_append, List.mem_cons, List.not_mem_nil, or_false]
    tauto
  have htail : str.dropWhile (fun c => !([UChar.obrk, UChar.cbrk, UChar.obrc, UChar.cbrc]
      ++ [UChar.sp, UChar.tab, UChar.nl, UChar.cr]).contains c) = [] ↔
        ∀ c ∈ str, c ∉ unquotedStops := by
    rw [List.dropWhile_eq_nil_iff]
    simp only [List.contains_eq_mem, Bool.not_eq_true', decide_eq_false_iff_not, hstops]
  dsimp only
  rw [if_neg (by simp)]
  constructor
  · intro h
    split at h
    · exact absurd h (by simp)
    split at h
    · exact absurd h (by simp)
    split at h
    · exact absurd h (by simp)
    split at h
    · exact absurd h (by simp)
    split at h
    · rename_i hne hunk hna hres hnil
      obtain ⟨rfl, rfl⟩ : text = str ∧ quoted = false := by simpa [eq_comm] using h
      exact ⟨⟨hne, hunk, hna, by simpa using hres, htail.mp hnil⟩, rfl, rfl⟩
    · split at h
      · exact absurd h (by simp)
      · rw [if_neg (by decide)] at h
        exact absurd h (by simp)
  · rintro ⟨h, rfl, rfl⟩
    rw [if_neg h.nonempty, if_neg h.not_unk, if_neg h.not_na, if_neg (by simp [h.unreserved]),
      if_pos (htail.mpr h.plain)]

/-- Such a string does not begin like another token, or it begins like a text block. -/
theorem Bare.start (h : Bare str) :
    ∃ c rest, str = c :: rest ∧ (c = UChar.semi ∨ c ∉ unquotedNonstarts)
    ∧ ∀ e ∈ rest, e ∉ unquotedStops := by
  obtain ⟨c, rest, rfl⟩ := List.exists_cons_of_ne_nil h.nonempty
  refine ⟨c, rest, rfl, ?_, fun e he => h.plain e (List.mem_cons_of_mem _ he)⟩
  by_cases hsemi : c = UChar.semi
  · exact .inl hsemi
  · refine .inr fun hmem => ?_
    have hstop := h.plain c (List.mem_cons_self ..)
    have hres := h.unreserved
    rcases List.mem_append.mp hmem with hmem | hmem
    · exact hstop hmem
    · simp only [List.mem_cons, List.not_mem_nil, or_false] at hmem
      rcases hmem with rfl | rfl | rfl | rfl | rfl
      · exact absurd hres (by simp [isReservedString])
      · exact absurd hres (by simp [isReservedString])
      · exact absurd hres (by simp [isReservedString])
      · exact absurd hres (by simp [isReservedString])
      · exact hsemi rfl

end Marking

section Reading

variable {cfg : Config σ} {s : Scanner σ} {str rest : UStr} {before after : UChar}

/-- Between blanks within a line, it is scanned as one value. -/
theorem Bare.halts_nextToken (hbare : Bare str) (hcfg : cfg.Standard)
    (hstr : isCifText cfg.cifVersion str = true) (hbefore : cfg.classOf before = .ws)
    (hafter : cfg.classOf after = .ws) (hcolumn : Scanner.addColumn s.column 1 ≠ 0)
    (h : Shows s.toBuffer 0 [] (before :: (str ++ after :: rest))) :
    Halts (nextToken cfg) s (fun _ t => t.ttype = .value ∧ Found s str (after :: rest) t)
      (fun _ _ => False) := by
  obtain ⟨c, text, rfl, hstart, htext⟩ := hbare.start
  have hws := Config.metaClassOf_of_ws hafter
  have hclass := hcfg.metaClassOf_of_notMem (hbare.plain c (List.mem_cons_self ..))
  have hwhole := isCifTextFrom_append hstr (hcfg.isCifText_of_ws hafter)
  have hhash : cfg.classOf c ≠ .hash := by
    rcases hstart with rfl | hc
    · rw [show cfg.classOf UChar.semi
        = .semi from hcfg.tabled.classOf_fixed (by decide) rfl (by decide)]
      decide
    · intro heq
      exact hcfg.classOf_of_notMem hc (by simp [heq])
  refine CifApi.halts_nextToken h hbefore hclass hhash (fun _ =>
    hcfg.keywordOf_eq_none hbare.unreserved) fun t ht hcol => ?_
  rcases hstart with rfl | hc
  · refine halts_scanLexeme_semi hcfg ?_ htext hws hwhole ht
    rw [hcol]
    unfold Scanner.addColumn at hcolumn ⊢
    omega
  · exact halts_scanLexeme_unquoted hcfg hc htext hws hwhole ht

/-- The value of such a token is the string, unquoted. -/
theorem Bare.post_bareValue {cut : Prop} (hbare : Bare str) (hversion : 2 ≤ cfg.cifVersion)
    (hzero : 0 ∉ str) (hvalue : s.tvalue = str) {Q : Value → Scanner σ → Prop}
    {E : Int → Scanner σ → Prop} (hQ : Q (.char str false) s) :
    Post cut (bareValue cfg) s Q E := by
  have hmark := setQuoted_initChar.mpr ⟨hbare, rfl, rfl⟩
  rw [bareValue, post_bind, post_read, hvalue, if_neg hbare.not_unk, if_neg hbare.not_na,
    cstr_of_zero_notMem hzero]
  dsimp only
  rw [if_neg (Int.not_lt.mpr hversion), hmark]
  exact hQ

/-- The parser takes the token for that value, and goes on after it. -/
theorem Bare.halts_parseValue (hbare : Bare str) (hcfg : cfg.Standard)
    (hversion : 2 ≤ cfg.cifVersion) (hstr : isCifText cfg.cifVersion str = true)
    (hbefore : cfg.classOf before = .ws) (hafter : cfg.classOf after = .ws)
    (hcolumn : Scanner.addColumn s.column 1 ≠ 0)
    (h : Shows s.toBuffer 0 [] (before :: (str ++ after :: rest))) :
    Halts (parseValue cfg) s
      (fun v t => v = .char str false ∧ Shows t.toBuffer 0 [] (after :: rest) ∧ Unreported s t)
      (fun _ _ => False) := by
  obtain ⟨n, hn⟩ : ∃ n, s.tokenBound = n + 1 := ⟨4 * (s.bufferLimit + s.unread) + 3, rfl⟩
  rw [Halts, parseValue, post_fix, hn, unroll_succ, parseValueBody, post_bind]
  refine (hbare.halts_nextToken hcfg hstr hbefore hafter hcolumn h).imp ?_ (fun _ _ he => he)
  rintro _ t ⟨httype, hfound⟩
  obtain ⟨_, _, _, hshows⟩ := hfound.holds.shows
  rw [post_bind, post_read, httype]
  dsimp only
  rw [post_bind]
  refine hbare.post_bareValue hversion (zero_notMem_of_isCifTextFrom hstr) hfound.holds.tvalue_eq ?_
  rw [post_bind, post_modify, post_pure]
  exact ⟨rfl, hshows.consume, hfound.unreported⟩

/-- In CIF 2, an unquoted character value that the parser answers has been marked so. -/
theorem ensures_bareValue (hversion : 2 ≤ cfg.cifVersion) (t : Scanner σ) :
    Ensures (bareValue cfg) t
      (fun v _ => ∀ text, v = .char text false → (Value.initChar text).setQuoted false = .ok v)
      (fun _ _ => True) := by
  rw [Ensures, bareValue, post_bind, post_read]
  split
  · exact fun text h => absurd h (by simp)
  split
  · exact fun text h => absurd h (by simp)
  dsimp only
  rw [if_neg (Int.not_lt.mpr hversion)]
  split
  · rename_i value hmark
    rintro text rfl
    obtain ⟨hbare, rfl, _⟩ := setQuoted_initChar.mp hmark
    exact hmark
  · split
    · rw [post_bind]
      refine (ensures_true _).imp (fun _ _ _ => ?_) (fun _ _ he => he)
      exact fun text h => absurd h (by simp [Value.initChar])
    · trivial

theorem ensures_parseValue (hversion : 2 ≤ cfg.cifVersion) : Ensures (parseValue cfg) s
    (fun v _ => ∀ text, v = .char text false → (Value.initChar text).setQuoted false = .ok v)
    (fun _ _ => True) := by
  obtain ⟨n, hn⟩ : ∃ n, s.tokenBound = n + 1 := ⟨4 * (s.bufferLimit + s.unread) + 3, rfl⟩
  rw [Ensures, parseValue, post_fix, hn, unroll_succ, parseValueBody, post_bind]
  refine (ensures_true (nextToken cfg)).imp (fun _ t _ => ?_) (fun _ _ he => he)
  rw [post_bind, post_read]
  split
  · rw [post_bind, post_modify, parseList, bind_pure_comp, post_map]
    exact (ensures_true _).imp (fun _ _ _ text h => absurd h (by simp)) (fun _ _ he => he)
  · rw [post_bind, post_modify, parseTable, bind_pure_comp, post_map]
    exact (ensures_true _).imp (fun _ _ _ text h => absurd h (by simp)) (fun _ _ he => he)
  · exact fun text h => absurd h (by simp [Value.initChar])
  · exact fun text h => absurd h (by simp [Value.initChar])
  · rw [post_bind]
    refine (ensures_bareValue hversion t).imp (fun _ _ hv => hv) (fun _ _ he => he)
  · trivial

/-- Marking a string unquoted is faithful to the scanner: one that can be marked so, and remains a
character value, is scanned between blanks within a line as one value and parsed as that value; one
that cannot be is not parsed so. -/
theorem setQuoted_faithful (hcfg : cfg.Standard) (hversion : 2 ≤ cfg.cifVersion)
    (hbefore : cfg.classOf before = .ws) (hafter : cfg.classOf after = .ws)
    (hcolumn : Scanner.addColumn s.column 1 ≠ 0)
    (h : Shows s.toBuffer 0 [] (before :: (str ++ after :: rest))) :
    (∀ text quoted, (Value.initChar str).setQuoted false = .ok (.char text quoted) →
      isCifText cfg.cifVersion str = true →
      Halts (nextToken cfg) s (fun _ t => t.ttype = .value ∧ t.tvalue = str
        ∧ (∃ start past, Shows t.toBuffer start past (after :: rest))
        ∧ Unreported s t) (fun _ _ => False)
      ∧ Halts (parseValue cfg) s (fun v t => v = .char str false
        ∧ Shows t.toBuffer 0 [] (after :: rest)
        ∧ Unreported s t) (fun _ _ => False))
    ∧ ∀ e, (Value.initChar str).setQuoted false = .error e →
      Ensures (parseValue cfg) s (fun v _ => v ≠ .char str false) (fun _ _ => True) := by
  refine ⟨fun text quoted hmark hstr => ?_, fun e hrefused => ?_⟩
  · obtain ⟨hbare, _, _⟩ := setQuoted_initChar.mp hmark
    refine ⟨?_, hbare.halts_parseValue hcfg hversion hstr hbefore hafter hcolumn h⟩
    refine (hbare.halts_nextToken hcfg hstr hbefore hafter hcolumn h).imp ?_ (fun _ _ he => he)
    rintro _ t ⟨httype, hfound⟩
    obtain ⟨_, _, _, hshows⟩ := hfound.holds.shows
    exact ⟨httype, hfound.holds.tvalue_eq, ⟨_, _, hshows⟩, hfound.unreported⟩
  · refine (ensures_parseValue hversion).imp (fun v _ hv => ?_) (fun _ _ he => he)
    rintro rfl
    exact absurd (hv str rfl) (by simp [hrefused])

/-- In the second column, a string that begins as a text block would at the start of a line. -/
theorem setQuoted_faithful_semi :
    (∀ text quoted, (Value.initChar (units ";loop_")).setQuoted false = .ok (.char text quoted) →
      isCifText 2 (units ";loop_") = true →
      Halts (nextToken (.initV2 (.create .dying .ascii .exact 2))) (scannerAt 0 (units " ;loop_ "))
        (fun _ t => t.ttype = .value ∧ t.tvalue = units ";loop_"
          ∧ (∃ start past, Shows t.toBuffer start past (units " "))
          ∧ Unreported (scannerAt 0 (units " ;loop_ ")) t) (fun _ _ => False)
      ∧ Halts (parseValue (.initV2 (.create .dying .ascii .exact 2)))
      (scannerAt 0 (units " ;loop_ "))
        (fun v t => v = .char (units ";loop_") false ∧ Shows t.toBuffer 0 [] (units " ")
          ∧ Unreported (scannerAt 0 (units " ;loop_ ")) t) (fun _ _ => False))
    ∧ ∀ e, (Value.initChar (units ";loop_")).setQuoted false = .error e →
      Ensures (parseValue (.initV2 (.create .dying .ascii .exact 2)))
      (scannerAt 0 (units " ;loop_ "))
        (fun v _ => v ≠ .char (units ";loop_") false) (fun _ _ => True) :=
  setQuoted_faithful (.inl rfl) (by decide) (by decide +kernel) (by decide +kernel) (by decide)
    (shows_scannerAt (by decide +kernel) (by decide +kernel))

end Reading

end CifApi
