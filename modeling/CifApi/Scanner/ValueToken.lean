import CifApi.Scanner.ValueScan

/-! A value between blanks, which `next_token` scans as one token. -/
namespace CifApi

open Exec Buffer

variable {σ : Type}

/-- No calls but those of syntax callbacks have been made from `s` to `t`. -/
def Unreported (s t : Scanner σ) : Prop := ∃ events, t.log = events ++ s.log
    ∧ ∀ e ∈ events, ∃ r w, e = .element r w

section Unreported

variable {s t u : Scanner σ}

theorem Edited.unreported (h : Edited s t) : Unreported s t := ⟨[], h.2.1, by simp⟩

theorem Unreported.trans (h : Unreported s t) (h' : Unreported t u) : Unreported s u := by
  obtain ⟨events, hlog, hall⟩ := h
  obtain ⟨later, hlog', hall'⟩ := h'
  refine ⟨later ++ events, by rw [hlog', hlog, List.append_assoc], ?_⟩
  intro e he
  rcases List.mem_append.mp he with he | he
  · exact hall' e he
  · exact hall e he

theorem unreported_element (s : Scanner σ) (r : SyntaxReport) (w : World σ) :
    Unreported s ((s.setWorld w).push (.element r w)) := ⟨[.element r w], rfl, by simp⟩

end Unreported

section Blanks

variable {cfg : Config σ} {c : UChar}

theorem Config.metaClassOf_of_ws (h : cfg.classOf c = .ws) : cfg.metaClassOf c = .ws := by
  simp [Config.metaClassOf, h, CharClass.metaClass]

theorem Config.Standard.isCifText_of_ws (hcfg : cfg.Standard) (h : cfg.classOf c = .ws) :
    isCifText cfg.cifVersion [c] = true := by
  refine isCifText_of_ascii fun d hd => ?_
  obtain rfl := List.mem_singleton.mp hd
  rcases hcfg.classOf_ws_iff.mp h with rfl | rfl
  · exact .inl rfl
  · exact .inr (.inr (by decide))

end Blanks

section Token

variable {cfg : Config σ} {s s₀ : Scanner σ} {past rest text tail str : List UChar} {c d : UChar}
  {ttype : TokenType} {afterWs : Bool}

theorem Buffer.Shows.restart (h : Shows s.toBuffer 0 [] rest) :
    Shows ({ s with tvalueStart := s.textStart, tvalueLength := 0 } : Scanner σ).toBuffer 0 []
      rest :=
  h.setStart (Nat.le_refl 0) (Nat.add_zero _).symm

theorem Buffer.Shows.consume {start : Nat} (h : Shows s.toBuffer start past rest) :
    Shows s.consumeToken.toBuffer 0 [] rest :=
  ⟨⟨h.sound.size_pos, h.sound.limit_le, h.sound.next_le, Nat.le_refl _, h.sound.chunks,
    h.sound.eof⟩, rfl, Nat.le_refl _, slice_self, h.rest_prefix, h.no_cr, h.decoded⟩

/-- Spaces end before anything that is not white space. -/
theorem halts_scanWs (h : Shows s.toBuffer 0 past (c :: rest)) (hpast : past ≠ [])
    (hc : cfg.metaClassOf c ≠ .ws) :
    Halts (scanWs cfg) s (fun _ t => Shows t.toBuffer 0 past (c :: rest) ∧ Edited s t
      ∧ t.column = s.column) (fun _ _ => False) := by
  have hclass : cfg.classOf c ≠ .ws ∧ cfg.classOf c ≠ .eol := by
    constructor
    · intro heq
      simp [Config.metaClassOf, heq, CharClass.metaClass] at hc
    · intro heq
      simp [Config.metaClassOf, heq, CharClass.metaClass] at hc
  have hensures : Ensures (scanWs cfg) s
      (fun _ t => Shows t.toBuffer 0 past (c :: rest) ∧ Edited s t
        ∧ t.column = s.column) (fun _ _ => False) := by
    rw [Ensures, scanWs, post_bind]
    refine (ensures_scanUnits (I := fun _ t => Shows t.toBuffer 0 past (c :: rest) ∧ Edited s t
      ∧ t.column = s.column)
      (Q := fun _ t => Shows t.toBuffer 0 past (c :: rest) ∧ Edited s t ∧ t.column = s.column) ?_ ?_
      ⟨h, .refl s, rfl⟩).imp ?_ (fun _ _ he => he)
    · rintro sol t ⟨h, hedited, hcolumn⟩ hlt
      rw [Ensures, scanWsUnit, post_bind, post_read, h.nextUnit_eq hlt]
      dsimp only
      split
      · exact absurd ‹_› hclass.1
      · exact absurd ‹_› hclass.2
      · exact ⟨h, hedited, hcolumn⟩
    · rintro sol t ⟨h, hedited, hcolumn⟩ hnext
      refine post_getMoreChars h hnext fun more b hb _ hend => ?_
      cases more with
      | true => exact ⟨hb, hedited.trans ⟨rfl, rfl, rfl, rfl⟩, hcolumn⟩
      | false => exact absurd (hend rfl) (List.cons_ne_nil c rest)
    · rintro _ t ⟨h, hedited, hcolumn⟩
      have hend : Shows t.endToken.toBuffer 0 past (c :: rest) :=
        h.setStart (Nat.zero_le past.length) h.value_eq
      exact ⟨hend, hedited.trans ⟨rfl, rfl, rfl, rfl⟩, hcolumn⟩
  refine (Post.and hensures (returns_scanWs (v := cfg.cifVersion) (h.begun hpast))).imp
    (fun _ _ hq => hq.1) (fun _ _ he => he.1)

/-- A pass over a blank before a token. -/
theorem halts_scanToken_blank (h : Shows s.toBuffer 0 [] (d :: c :: rest))
    (hd : cfg.classOf d = .ws) (hc : cfg.metaClassOf c ≠ .ws) :
    Halts (scanToken cfg afterWs) s (fun r t => r = .inl (.error, true)
      ∧ Shows t.toBuffer 0 [] (c :: rest) ∧ Unreported s t
      ∧ t.column = Scanner.addColumn s.column 1) (fun _ _ => False) := by
  rw [Halts, scanToken, post_bind, post_modify, post_bind]
  refine post_nextChar h.restart fun t ht hedited hcolumn => ?_
  dsimp only
  rw [post_bind, hd, separateToken, post_bind, post_read]
  dsimp only [CharClass.metaClass]
  rw [post_pure, post_bind, scanLexeme, post_bind]
  refine (halts_scanWs ht (by simp) hc).imp ?_ (fun _ _ he => he)
  rintro _ u ⟨hu, hedited', hcolumn'⟩
  rw [post_pure]
  dsimp only
  have hquiet : Unreported s u := hedited.unreported.trans hedited'.unreported
  have hafter : u.column = Scanner.addColumn s.column 1 := hcolumn'.trans hcolumn
  rw [post_bind, post_read, post_bind, post_when]
  refine ⟨fun _ => ?_, fun _ => ?_⟩
  · exact ⟨rfl, hu.consume, hquiet.trans (unreported_element u _ _), hafter⟩
  · exact ⟨rfl, hu.consume, hquiet, hafter⟩

/-- A token has been found whose value is the given text, and nothing has been reported. -/
structure Found (s : Scanner σ) (str rest : List UChar) (t : Scanner σ) : Prop where
  holds : t.Holds str rest
  unreported : Unreported s t

theorem Found.of_unreported {t u : Scanner σ} (hq : Unreported s t) (h : Found t str rest u) :
    Found s str rest u :=
  ⟨h.holds, hq.trans h.unreported⟩

theorem post_separateToken {cut : Prop} {clazz : CharClass} {Q : PUnit → Scanner σ → Prop}
    {E : Int → Scanner σ → Prop} (hclazz : clazz.metaClass ≠ .ws) (hhash : clazz ≠ .hash)
    (hQ : ∀ t, t.toBuffer = s.toBuffer → t.column = s.column → Unreported s t → Q ⟨⟩ t) :
    Post cut (separateToken cfg clazz true) s Q E := by
  have hreport : Post cut (do
      when (!true) (report cfg Code.missingSpace s.line (Scanner.addColumn s.column (-1)) [])
      when (clazz ≠ .hash) do
        let s ← Exec.read
        syntaxCallback cfg .whitespace s.line s.column []) s Q E := by
    rw [post_bind, post_when]
    refine ⟨fun hno => absurd hno (by decide), fun _ => ?_⟩
    rw [post_when]
    exact ⟨fun _ => hQ _ rfl rfl (unreported_element s _ _), fun hno => absurd hhash hno⟩
  rw [separateToken, post_bind, post_read]
  cases hmeta : clazz.metaClass with
  | ws => exact absurd hmeta hclazz
  | closing => exact hQ _ rfl rfl (unreported_element s _ _)
  | general => exact hreport
  | opening => exact hreport
  | no => exact hreport

/-- A pass over a token from its first unit, after white space. -/
theorem post_scanToken_token {cut : Prop} {P : Scanner σ → Prop}
    (h : Shows s.toBuffer 0 [] (c :: rest)) (hc : cfg.metaClassOf c ≠ .ws)
    (hhash : cfg.classOf c ≠ .hash) (hreserved : ttype = .value → keywordOf cfg str = .none)
    (hscan : ∀ t, Shows t.toBuffer 0 [c] rest → t.column = Scanner.addColumn s.column 1 →
      Post cut (scanLexeme cfg (cfg.classOf c)) t (fun l u => l = .token ttype ∧ Found t str tail u
        ∧ P u) (fun _ _ => False)) :
    Post cut (scanToken cfg true) s (fun r t => r = .inl (ttype, true) ∧ Found s str tail t ∧ P t)
      (fun _ _ => False) := by
  rw [scanToken, post_bind, post_modify, post_bind]
  refine post_nextChar h.restart fun t ht hedited hcolumn => ?_
  dsimp only
  rw [post_bind]
  refine post_separateToken hc hhash fun u hu hcol hquiet => ?_
  rw [post_bind]
  refine (hscan u (hu ▸ ht) (hcol.trans hcolumn)).imp ?_ (fun _ _ he => he)
  rintro l w ⟨rfl, hfound, hP⟩
  have hfound' : Found s str tail w := hfound.of_unreported (hedited.unreported.trans hquiet)
  by_cases hvalue : ttype = .value
  · subst hvalue
    rw [post_bind, checkReserved, post_bind, post_read, hfound.holds.tvalue_eq, hreserved rfl]
    exact ⟨rfl, hfound', hP⟩
  · split
    · exact absurd ‹_› (by simp)
    · exact absurd ‹_› (by simp)
    · rename_i heq
      exact absurd (Lexeme.token.inj heq) hvalue
    · rename_i heq
      obtain rfl := Lexeme.token.inj heq
      exact ⟨rfl, hfound', hP⟩

theorem halts_scanToken_token (h : Shows s.toBuffer 0 [] (c :: rest))
    (hc : cfg.metaClassOf c = .general ∨ cfg.metaClassOf c = .no) (hhash : cfg.classOf c ≠ .hash)
    (hreserved : ttype = .value → keywordOf cfg str = .none)
    (hscan : ∀ t, Shows t.toBuffer 0 [c] rest → t.column = Scanner.addColumn s.column 1 →
      Halts (scanLexeme cfg (cfg.classOf c)) t (fun l u => l = .token ttype ∧ Found t str tail u)
      (fun _ _ => False)) :
    Halts (scanToken cfg true) s (fun r t => r = .inl (ttype, true) ∧ Found s str tail t)
      (fun _ _ => False) := by
  have hws : cfg.metaClassOf c ≠ .ws := by
    rcases hc with hc | hc <;> simp [hc]
  refine (post_scanToken_token (P := fun _ => True) h hws hhash hreserved fun t ht hcolumn =>
    ?_).imp (fun _ _ hq => ⟨hq.1, hq.2.1⟩) (fun _ _ he => he)
  exact (hscan t ht hcolumn).imp (fun _ _ hq => ⟨hq.1, hq.2, trivial⟩) (fun _ _ he => he)

/-- A value between blanks is the next token. -/
theorem halts_nextToken (h : Shows s.toBuffer 0 [] (d :: c :: rest)) (hd : cfg.classOf d = .ws)
    (hc : cfg.metaClassOf c = .general ∨ cfg.metaClassOf c = .no) (hhash : cfg.classOf c ≠ .hash)
    (hreserved : ttype = .value → keywordOf cfg str = .none)
    (hscan : ∀ t, Shows t.toBuffer 0 [c] rest →
      t.column = Scanner.addColumn (Scanner.addColumn s.column 1) 1 →
      Halts (scanLexeme cfg (cfg.classOf c)) t (fun l u => l = .token ttype ∧ Found t str tail u)
      (fun _ _ => False)) :
    Halts (nextToken cfg) s (fun _ t => t.ttype = ttype ∧ Found s str tail t)
      (fun _ _ => False) := by
  have hws : cfg.metaClassOf c ≠ .ws := by
    rcases hc with hc | hc <;> simp [hc]
  have hstart : s.nextChar ≤ s.textStart := Nat.le_of_eq h.nextChar_eq
  obtain ⟨k, hk⟩ : ∃ k, s.tokenBound = k + 1 + 1 + 1 :=
    ⟨s.tokenBound - 3, by unfold Scanner.tokenBound; omega⟩
  rw [Halts, nextToken, post_bind, post_read, post_bind]
  show Post False (rounds _ s.tokenBound _) s _ _
  rw [hk, post_rounds_succ, post_bind, post_read, if_pos hstart]
  refine (halts_scanToken_blank h hd hws).imp ?_ (fun _ _ he => he)
  rintro _ t ⟨rfl, ht, hquiet, hcolumn⟩
  have hbetween : t.nextChar ≤ t.textStart := Nat.le_of_eq ht.nextChar_eq
  show Post False (rounds _ (k + 1 + 1) _) t _ _
  rw [post_rounds_succ, post_bind, post_read, if_pos hbetween]
  refine (halts_scanToken_token ht hc hhash hreserved fun t' ht' hcol =>
    hscan t' ht' (hcolumn ▸ hcol)).imp ?_ (fun _ _ he => he)
  rintro _ u ⟨rfl, hfound⟩
  show Post False (rounds _ (k + 1) _) u _ _
  obtain ⟨before, after, hpast, hshows⟩ := hfound.holds.shows
  have hnext : ¬ u.nextChar ≤ u.textStart := by
    have heq := hshows.nextChar_eq
    have hpos := List.length_pos_iff.mpr hpast
    omega
  rw [post_rounds_succ, post_bind, post_read, if_neg hnext, post_pure]
  have hset : Found s str tail (u.setTtype ttype) :=
    ⟨⟨⟨before, after, hpast, hshows⟩, hfound.holds.length_eq⟩, hquiet.trans hfound.unreported⟩
  exact (⟨rfl, hset⟩ : (u.setTtype ttype).ttype = ttype ∧ Found s str tail (u.setTtype ttype))

/-- What is scanned between quotes, and no colon after it, is a quoted value. -/
theorem post_scanLexeme_quoted {cut : Prop} {P : Nat → Prop} (hcfg : cfg.Standard)
    (hc : c = UChar.sq ∨ c = UChar.dq) (hd : d ≠ UChar.colon)
    (h : Post cut (scanDelimString cfg) s (fun _ t => t.Holds str (d :: tail) ∧ Edited s t
      ∧ P t.column) (fun _ _ => False)) :
    Post cut (scanLexeme cfg (cfg.classOf c)) s
      (fun l t => l = .token .qvalue ∧ Found s str (d :: tail) t ∧ P t.column)
      (fun _ _ => False) := by
  rw [hcfg.classOf_quote hc, scanLexeme, post_bind, scanQuoted, post_bind]
  refine h.imp ?_ (fun _ _ he => he)
  rintro _ t ⟨hholds, hedited, hP⟩
  obtain ⟨before, after, hne, hshows⟩ := hholds.shows
  rw [post_bind]
  refine post_peekChar hshows fun b hb _ => ?_
  dsimp only
  rw [if_neg hd]
  exact ⟨rfl, ⟨⟨⟨before, after, hne, hb⟩, hholds.length_eq⟩, hedited.unreported⟩, hP⟩

theorem halts_scanLexeme_quoted (hcfg : cfg.Standard) (hc : c = UChar.sq ∨ c = UChar.dq)
    (hd : d ≠ UChar.colon)
    (h : Halts (scanDelimString cfg) s (fun _ t => t.Holds str (d :: tail) ∧ Edited s t) (fun _ _ =>
      False)) :
    Halts (scanLexeme cfg (cfg.classOf c)) s (fun l t => l = .token .qvalue
      ∧ Found s str (d :: tail) t) (fun _ _ => False) := by
  refine (post_scanLexeme_quoted (P := fun _ => True) hcfg hc hd ?_).imp (fun _ _ hq =>
    ⟨hq.1, hq.2.1⟩) (fun _ _ he => he)
  exact h.imp (fun _ _ hq => ⟨hq.1, hq.2, trivial⟩) (fun _ _ he => he)

/-- What is scanned between quotes, and a colon after it, is a table key. -/
theorem post_scanLexeme_key {cut : Prop} {P : Nat → Prop} (hcfg : cfg.Standard)
    (hc : c = UChar.sq ∨ c = UChar.dq)
    (h : Post cut (scanDelimString cfg) s (fun _ t => t.Holds str (UChar.colon :: tail) ∧ Edited s t
      ∧ P t.column) (fun _ _ => False)) :
    Post cut (scanLexeme cfg (cfg.classOf c)) s (fun l t => l = .token .key ∧ Found s str tail t
      ∧ P t.column) (fun _ _ => False) := by
  rw [hcfg.classOf_quote hc, scanLexeme, post_bind, scanQuoted, post_bind]
  refine h.imp ?_ (fun _ _ he => he)
  rintro _ t ⟨hholds, hedited, hP⟩
  obtain ⟨before, after, hne, hshows⟩ := hholds.shows
  rw [post_bind]
  refine post_peekChar hshows fun b hb hlt => ?_
  dsimp only
  rw [if_pos rfl, post_bind, post_modify]
  have hadvance : Shows (Scanner.advance { t with toBuffer := b }).toBuffer before.length
      (before ++ str ++ after ++ [UChar.colon]) tail :=
    (hb : Shows (Scanner.toBuffer { t with toBuffer := b }) _ _ _).advance hlt
  have hlonger : Shows (Scanner.advance { t with toBuffer := b }).toBuffer before.length
      (before ++ str ++ (after ++ [UChar.colon])) tail := by
    rw [← List.append_assoc]
    exact hadvance
  exact ⟨rfl, ⟨⟨⟨before, after ++ [UChar.colon], by simp, hlonger⟩, hholds.length_eq⟩,
    hedited.unreported⟩, hP⟩

/-- A unit that begins an unquoted value is scanned again with what follows it. -/
theorem post_scanLexeme_unquoted {cut : Prop} {P : Nat → Prop} (hcfg : cfg.Standard)
    (hc : c ∉ unquotedNonstarts)
    (h : Post cut (scanUnquoted cfg) s.backUp (fun _ t => t.Holds str rest ∧ Edited s.backUp t
      ∧ P t.column) (fun _ _ => False)) :
    Post cut (scanLexeme cfg (cfg.classOf c)) s (fun l t => l = .token .value ∧ Found s str rest t
      ∧ P t.column) (fun _ _ => False) := by
  have hlexeme : scanLexeme cfg (cfg.classOf c) = (do
      Exec.modify (·.backUp)
      scanUnquoted cfg
      pure (.token .value) : Parse σ Lexeme) := by
    have hclass := hcfg.classOf_of_notMem hc
    revert hclass
    cases cfg.classOf c <;> intro hclass <;> first | rfl | exact absurd (by simp) hclass
  rw [hlexeme, post_bind, post_modify, post_bind]
  refine h.imp ?_ (fun _ _ he => he)
  rintro _ t ⟨hholds, hedited, hP⟩
  exact ⟨rfl, ⟨hholds, hedited.unreported⟩, hP⟩

/-- What the scan of an unquoted value begins with, once its first unit has been given back. -/
theorem Reads.of_backUp (hc : c ∉ unquotedNonstarts)
    (htext : isCifText cfg.cifVersion (c :: str ++ [d]) = true)
    (h : Shows s.toBuffer 0 [c] (str ++ d :: tail)) :
    Reads cfg.cifVersion s.backUp false [] (c :: str ++ [d]) tail s.backUp
      ∧ Begun s.backUp.toBuffer := by
  have hcr : c ≠ UChar.cr := by
    rintro rfl
    exact hc (by decide)
  have hback : Shows s.backUp.toBuffer 0 [] (c :: (str ++ d :: tail)) :=
    Buffer.Shows.backUp h (Nat.le_refl _) hcr
  exact ⟨⟨by simpa using hback, .refl _, rfl, htext⟩, hback.sound.text_le,
    (h.begun (by simp)).text_lt⟩

theorem notMem_unquotedStops (hc : c ∉ unquotedNonstarts) (hplain : ∀ e ∈ str, e ∉ unquotedStops) :
    ∀ e ∈ c :: str, e ∉ unquotedStops := by
  intro e he
  rcases List.mem_cons.mp he with rfl | he
  · exact fun hmem => hc (List.mem_append_left _ hmem)
  · exact hplain e he

/-- What is scanned without quotes, from its first unit, is a value. -/
theorem halts_scanLexeme_unquoted (hcfg : cfg.Standard) (hc : c ∉ unquotedNonstarts)
    (hplain : ∀ e ∈ str, e ∉ unquotedStops) (hd : cfg.metaClassOf d = .ws)
    (htext : isCifText cfg.cifVersion (c :: str ++ [d]) = true)
    (h : Shows s.toBuffer 0 [c] (str ++ d :: tail)) :
    Halts (scanLexeme cfg (cfg.classOf c)) s (fun l t => l = .token .value
      ∧ Found s (c :: str) (d :: tail) t) (fun _ _ => False) := by
  obtain ⟨hreads, hbegun⟩ := Reads.of_backUp hc htext h
  refine (post_scanLexeme_unquoted (P := fun _ => True) hcfg hc ?_).imp (fun _ _ hq =>
    ⟨hq.1, hq.2.1⟩) (fun _ _ he => he)
  refine (halts_scanUnquoted hcfg hbegun (by simp) (notMem_unquotedStops hc hplain) hd hreads).imp
    ?_ (fun _ _ he => he)
  rintro _ t ⟨hholds, hedited⟩
  exact ⟨hholds, hedited, trivial⟩

/-- A semicolon that is not at the start of a line begins a value like any other. -/
theorem halts_scanLexeme_semi (hcfg : cfg.Standard) (hcolumn : s.column ≠ 1)
    (hplain : ∀ e ∈ str, e ∉ unquotedStops) (hd : cfg.metaClassOf d = .ws)
    (htext : isCifText cfg.cifVersion (str ++ [d]) = true)
    (h : Shows s.toBuffer 0 [UChar.semi] (str ++ d :: tail)) :
    Halts (scanLexeme cfg (cfg.classOf UChar.semi)) s
      (fun l t => l = .token .value ∧ Found s (UChar.semi :: str) (d :: tail) t)
      (fun _ _ => False) := by
  have hclass : cfg.classOf UChar.semi = .semi :=
    hcfg.tabled.classOf_fixed (by decide) rfl (by decide)
  have hreads : Reads cfg.cifVersion s false [UChar.semi] (str ++ [d]) tail s :=
    ⟨by simpa using h, .refl s, rfl, htext⟩
  rw [hclass, Halts, scanLexeme, post_bind, post_read, if_neg hcolumn, post_bind]
  refine (halts_scanUnquoted hcfg (h.begun (by simp)) (by simp) hplain hd hreads).imp ?_
    (fun _ _ he => he)
  rintro _ t ⟨hholds, hedited⟩
  exact ⟨rfl, hholds, hedited.unreported⟩

end Token

end CifApi
