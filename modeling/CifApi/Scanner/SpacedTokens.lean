import CifApi.Scanner.ValueToken

/-! Blanks and the tokens of values after them, scanned with nothing to report, and the columns they
end in. -/
namespace CifApi

open Exec Buffer

variable {σ : Type}

/-- Blanks that lead from one column to another, with no line too long that ends in them. -/
inductive Blanks : Nat → UStr → Nat → Prop
  | nil (n : Nat) : Blanks n [] n
  | space {n m : Nat} {blanks : UStr} (h : Blanks (n + 1) blanks m) :
    Blanks n (UChar.sp :: blanks) m
  | newline {n m : Nat} {blanks : UStr} (hn : n ≤ lineLength) (h : Blanks 0 blanks m) :
    Blanks n (UChar.nl :: blanks) m

section BlankScan

variable {cfg : Config σ} {s : Scanner σ} {past rest blanks : List UChar} {c : UChar} {n m : Nat}

theorem Blanks.append {k : Nat} {more : UStr} (h : Blanks n blanks k) (hmore : Blanks k more m) :
    Blanks n (blanks ++ more) m := by
  induction h with
  | nil n => exact hmore
  | space _ ih => exact .space (ih hmore)
  | newline hn _ ih => exact .newline hn (ih hmore)

/-- White space is scanned up to what comes after it. -/
theorem ensures_scanWs (hcfg : cfg.Standard) (hblanks : Blanks n blanks m) (hn : s.column ≤ n)
    (hc : cfg.metaClassOf c ≠ .ws) (h : Shows s.toBuffer 0 past (blanks ++ c :: rest)) :
    Ensures (scanWs cfg) s (fun _ t => Shows t.toBuffer 0 (past ++ blanks) (c :: rest) ∧ Edited s t
      ∧ t.column ≤ m) (fun _ _ => False) := by
  have hclass : cfg.classOf c ≠ .ws ∧ cfg.classOf c ≠ .eol := by
    constructor
    · intro heq
      simp [Config.metaClassOf, heq, CharClass.metaClass] at hc
    · intro heq
      simp [Config.metaClassOf, heq, CharClass.metaClass] at hc
  rw [Ensures, scanWs, post_bind]
  refine (ensures_scanUnits
    (I := fun _ t => ∃ past' blanks' k, past' ++ blanks' = past ++ blanks ∧ Blanks k blanks' m
      ∧ t.column ≤ k
      ∧ Shows t.toBuffer 0 past' (blanks' ++ c :: rest) ∧ Edited s t)
    (Q := fun _ t => Shows t.toBuffer 0 (past ++ blanks) (c :: rest) ∧ Edited s t ∧ t.column ≤ m)
    ?_ ?_ ⟨past, blanks, n, rfl, hblanks, hn, h, .refl s⟩).imp ?_ (fun _ _ he => he)
  · rintro sol t ⟨past', blanks', k, hwhole, hblanks', hk, ht, hedited⟩ hlt
    rw [Ensures, scanWsUnit, post_bind, post_read]
    cases hblanks' with
    | nil =>
      rw [List.nil_append] at ht
      rw [ht.nextUnit_eq hlt]
      dsimp only
      split
      · exact absurd ‹_› hclass.1
      · exact absurd ‹_› hclass.2
      · rw [List.append_nil] at hwhole
        exact ⟨hwhole ▸ ht, hedited, hk⟩
    | @space _ _ blanks' hblanks' =>
      rw [List.cons_append] at ht
      have hsp : cfg.classOf UChar.sp = .ws := hcfg.classOf_ws_iff.mpr (.inr rfl)
      rw [ht.nextUnit_eq hlt]
      dsimp only
      rw [hsp]
      dsimp only
      have hadvance : Shows (t.incColumn 1).advance.toBuffer 0 (past' ++ [UChar.sp])
          (blanks' ++ c :: rest) :=
        Buffer.Shows.advance (s := t.incColumn 1) ht hlt
      have hcolumn : (t.incColumn 1).column ≤ k + 1 :=
        Nat.le_trans (addColumn_one_le t.column) (Nat.succ_le_succ hk)
      rw [post_bind, post_modify]
      exact ⟨⟨_, _, _, by simpa using hwhole, hblanks', hcolumn, hadvance,
        hedited.trans ⟨rfl, rfl, rfl, rfl⟩⟩, rfl⟩
    | @newline _ _ blanks' hlimit hblanks' =>
      rw [List.cons_append] at ht
      have hnl : cfg.classOf UChar.nl = .eol := hcfg.classOf_eol_iff.mpr (.inl rfl)
      rw [ht.nextUnit_eq hlt]
      dsimp only
      rw [hnl]
      dsimp only
      rw [post_bind]
      refine post_handleEol (Nat.le_trans hk hlimit) fun sol' k' _ => ?_
      have hadvance : Shows (t.incLine k').advance.toBuffer 0 (past' ++ [UChar.nl])
          (blanks' ++ c :: rest) :=
        Buffer.Shows.advance (s := t.incLine k') ht hlt
      rw [post_bind, post_modify]
      exact ⟨⟨_, _, _, by simpa using hwhole, hblanks', Nat.le_refl 0, hadvance,
        hedited.trans ⟨rfl, rfl, rfl, rfl⟩⟩, rfl⟩
  · rintro sol t ⟨past', blanks', k, hwhole, hblanks', hk, ht, hedited⟩ hnext
    refine post_getMoreChars ht hnext fun more b hb _ hend => ?_
    cases more with
    | true =>
      exact ⟨past', blanks', k, hwhole, hblanks', hk, hb, hedited.trans ⟨rfl, rfl, rfl, rfl⟩⟩
    | false => exact absurd (hend rfl) (by simp)
  · rintro _ t ⟨ht, hedited, hcolumn⟩
    have hend : Shows t.endToken.toBuffer 0 (past ++ blanks) (c :: rest) :=
      ht.setStart (Nat.zero_le _) ht.value_eq
    exact ⟨hend, hedited.trans ⟨rfl, rfl, rfl, rfl⟩, hcolumn⟩

/-- A pass over the blanks before a token. -/
theorem ensures_scanToken_blanks (hcfg : cfg.Standard) {afterWs : Bool}
    (hblanks : Blanks n blanks m) (hne : blanks ≠ []) (hn : s.column ≤ n)
    (hc : cfg.metaClassOf c ≠ .ws) (h : Shows s.toBuffer 0 [] (blanks ++ c :: rest)) :
    Ensures (scanToken cfg afterWs) s (fun r t => r = .inl (.error, true)
      ∧ Shows t.toBuffer 0 [] (c :: rest)
      ∧ Unreported s t ∧ t.column ≤ m) (fun _ _ => False) := by
  have hafter : ∀ u : Scanner σ, Unreported s u → ∀ past, Shows u.toBuffer 0 past (c :: rest) →
      u.column ≤ m → Ensures (do
        let s ← read
        when (s.skipDepth = 0) (syntaxCallback cfg .whitespace s.line s.column s.tvalue)
        Exec.modify Scanner.consumeToken
        pure (.inl (.error, true)) : Parse σ ((TokenType × Bool) ⊕ TokenType)) u
        (fun r t => r = .inl (.error, true) ∧ Shows t.toBuffer 0 [] (c :: rest) ∧ Unreported s t
          ∧ t.column ≤ m)
        (fun _ _ => False) := by
    intro u hquiet past hu hcolumn
    rw [Ensures, post_bind, post_read, post_bind, post_when]
    refine ⟨fun _ => ?_, fun _ => ?_⟩
    · exact ⟨rfl, hu.consume, hquiet.trans (unreported_element u _ _), hcolumn⟩
    · exact ⟨rfl, hu.consume, hquiet, hcolumn⟩
  rw [Ensures, scanToken, post_bind, post_modify, post_bind]
  cases hblanks with
  | nil => exact absurd rfl hne
  | space hblanks =>
    have hsp : cfg.classOf UChar.sp = .ws := hcfg.classOf_ws_iff.mpr (.inr rfl)
    refine post_nextChar h.restart fun t ht hedited hcolumn => ?_
    dsimp only
    rw [post_bind, hsp, separateToken, post_bind, post_read]
    dsimp only [CharClass.metaClass]
    rw [post_pure, post_bind, scanLexeme, post_bind]
    have hstart : t.column ≤ n + 1 :=
      hcolumn.le.trans ((addColumn_one_le s.column).trans (Nat.succ_le_succ hn))
    refine (ensures_scanWs hcfg hblanks hstart hc ht).imp ?_ (fun _ _ he => he)
    rintro _ u ⟨hu, hedited', hcolumn'⟩
    rw [post_pure]
    exact hafter u (hedited.unreported.trans hedited'.unreported) _ hu hcolumn'
  | @newline _ _ blanks hlimit hblanks =>
    have hnl : cfg.classOf UChar.nl = .eol := hcfg.classOf_eol_iff.mpr (.inl rfl)
    refine post_nextChar h.restart fun t ht hedited hcolumn => ?_
    dsimp only
    rw [post_bind, hnl, separateToken, post_bind, post_read]
    dsimp only [CharClass.metaClass]
    rw [post_pure, post_bind, scanLexeme, post_bind, post_modify, post_bind]
    have hback : Shows t.backUp.toBuffer 0 [] (UChar.nl :: blanks ++ c :: rest) :=
      Buffer.Shows.backUp ht (Nat.le_refl _) (by decide)
    have hstart : t.backUp.column ≤ n := by
      show Scanner.addColumn t.column (-1) ≤ n
      rw [hcolumn]
      exact (addColumn_back_le s.column).trans hn
    refine (ensures_scanWs hcfg (.newline hlimit hblanks) hstart hc hback).imp ?_ (fun _ _ he => he)
    rintro _ u ⟨hu, hedited', hcolumn'⟩
    have hquiet : Edited t t.backUp := ⟨rfl, rfl, rfl, rfl⟩
    rw [post_pure]
    exact hafter u ((hedited.trans hquiet).unreported.trans hedited'.unreported) _ hu hcolumn'

end BlankScan

/-- In a column up to `n`, where white space follows it unless any token may, `raw` is scanned as
one token of this type and value, up to a column up to `m`. -/
structure Lexes (cfg : Config σ) (raw str : UStr) (ttype : TokenType) (n m : Nat) : Prop where
  start : ∃ c rest, raw = c :: rest ∧ cfg.metaClassOf c ≠ .ws
  scanned : ∀ (s : Scanner σ) (d : UChar) (tail : List UChar), ttype.allowsAdjacent = true
    ∨ cfg.classOf d = .ws ∨ d = UChar.nl →
    Shows s.toBuffer 0 [] (raw ++ d :: tail) → s.column ≤ n → Ensures (scanToken cfg true) s
      (fun r t => r = .inl (ttype, true) ∧ Found s str (d :: tail) t ∧ t.column ≤ m) (fun _ _ =>
        False)

section Tokens

variable {cfg : Config σ} {s : Scanner σ} {raw str rest blanks : List UChar} {c d : UChar}
  {ttype : TokenType} {n m k : Nat}

/-- Such a token is the next one, after blanks or a token that any may follow. -/
theorem Lexes.ensures_nextToken (htoken : Lexes cfg raw str ttype m k) (hcfg : cfg.Standard)
    (hblanks : Blanks n blanks m) (hsep : blanks ≠ [] ∨ s.ttype.allowsAdjacent = true)
    (hn : s.column ≤ n) (hd : ttype.allowsAdjacent = true ∨ cfg.classOf d = .ws ∨ d = UChar.nl)
    (h : Shows s.toBuffer 0 [] (blanks ++ (raw ++ d :: rest))) :
    Ensures (nextToken cfg) s (fun _ t => t.ttype = ttype ∧ Found s str (d :: rest) t
      ∧ t.column ≤ k) (fun _ _ => False) := by
  obtain ⟨c, rest', rfl, hc⟩ := htoken.start
  -- the rounds after the blanks
  have htail : ∀ u : Scanner σ, Unreported s u → Shows u.toBuffer 0 [] (c :: rest' ++ d :: rest) →
      u.column ≤ m → ∀ j ttype₀, Ensures (rounds (fun (x : TokenType × Bool) => do
        let s ← read
        if s.nextChar ≤ s.textStart then scanToken cfg x.2
        else pure (.inr x.1)) j (ttype₀, true)) u
      (fun ttype₁ t => ttype₁ = ttype ∧ Found s str (d :: rest) t ∧ t.column ≤ k) (fun _ _ =>
        False) := by
    intro u hquiet hu hcolumn j ttype₀
    have hbetween : u.nextChar ≤ u.textStart := Nat.le_of_eq hu.nextChar_eq
    cases j with
    | zero => trivial
    | succ j =>
      rw [Ensures, post_rounds_succ, post_bind, post_read, if_pos hbetween]
      refine (htoken.scanned u d rest hd hu hcolumn).imp ?_ (fun _ _ he => he)
      rintro _ t ⟨rfl, hfound, hcolumn'⟩
      obtain ⟨before, after, hpast, hshows⟩ := hfound.holds.shows
      have hnext : ¬ t.nextChar ≤ t.textStart := by
        have heq := hshows.nextChar_eq
        have hpos := List.length_pos_iff.mpr hpast
        omega
      cases j with
      | zero => trivial
      | succ j =>
        show Post True (rounds _ (j + 1) _) t _ _
        rw [post_rounds_succ, post_bind, post_read, if_neg hnext, post_pure]
        exact ⟨rfl, hfound.of_unreported hquiet, hcolumn'⟩
  rw [Ensures, nextToken, post_bind, post_read, post_bind]
  suffices hrounds : ∀ j, Ensures (rounds (fun (x : TokenType × Bool) => do
      let s ← read
      if s.nextChar ≤ s.textStart then scanToken cfg x.2
      else pure (.inr x.1)) j (s.ttype, s.ttype.allowsAdjacent)) s
      (fun ttype₁ t => ttype₁ = ttype ∧ Found s str (d :: rest) t ∧ t.column ≤ k) (fun _ _ =>
        False) by
    refine (hrounds s.tokenBound).imp ?_ (fun _ _ he => he)
    rintro _ t ⟨rfl, hfound, hcolumn⟩
    obtain ⟨before, after, hpast, hshows⟩ := hfound.holds.shows
    exact ⟨rfl, ⟨⟨⟨before, after, hpast, hshows⟩, hfound.holds.length_eq⟩, hfound.unreported⟩,
      hcolumn⟩
  intro j
  by_cases hne : blanks = []
  · subst hne
    cases hblanks
    rw [hsep.resolve_left (not_not_intro rfl)]
    exact htail s (Edited.refl s).unreported h hn j s.ttype
  · have hbetween : s.nextChar ≤ s.textStart := Nat.le_of_eq h.nextChar_eq
    cases j with
    | zero => trivial
    | succ j =>
      rw [Ensures, post_rounds_succ, post_bind, post_read, if_pos hbetween]
      refine (ensures_scanToken_blanks hcfg hblanks hne hn hc h).imp ?_ (fun _ _ he => he)
      rintro _ t ⟨rfl, ht, hquiet, hcolumn⟩
      exact htail t hquiet ht hcolumn j .error

theorem isCifText_ends (hcfg : cfg.Standard) (hd : cfg.classOf d = .ws ∨ d = UChar.nl) :
    isCifText cfg.cifVersion [d] = true := by
  rcases hd with hd | rfl
  · exact hcfg.isCifText_of_ws hd
  · exact isCifText_of_ascii (by simp)

theorem metaClassOf_ends (hcfg : cfg.Standard) (hd : cfg.classOf d = .ws ∨ d = UChar.nl) :
    cfg.metaClassOf d = .ws := by
  rcases hd with hd | rfl
  · exact Config.metaClassOf_of_ws hd
  · exact hcfg.metaClassOf_ws_iff.mpr (by simp)

/-- A string without delimiters. -/
theorem lexes_unquoted (hcfg : cfg.Standard) (hc : c ∉ unquotedNonstarts)
    (hplain : ∀ e ∈ str, e ∉ unquotedStops) (hreserved : isReservedString (c :: str) = false)
    (htext : isCifText cfg.cifVersion (c :: str) = true) :
    Lexes cfg (c :: str) (c :: str) .value n (n + (str.length + 1)) := by
  have hclass := hcfg.metaClassOf_of_notMem fun hmem => hc (List.mem_append_left _ hmem)
  have hws : cfg.metaClassOf c ≠ .ws := by
    rcases hclass with hclass | hclass <;> simp [hclass]
  refine ⟨⟨c, str, rfl, hws⟩, fun s d tail hd h hn => ?_⟩
  have hd := hd.resolve_left (by simp [TokenType.allowsAdjacent])
  have hhash : cfg.classOf c ≠ .hash := fun heq => hcfg.classOf_of_notMem hc (by simp [heq])
  refine post_scanToken_token (P := fun t => t.column ≤ n + (str.length + 1)) h hws hhash
    (fun _ => hcfg.keywordOf_eq_none hreserved) fun t ht hcolumn => ?_
  obtain ⟨hreads, _⟩ := Reads.of_backUp hc (isCifTextFrom_append htext (isCifText_ends hcfg hd)) ht
  refine post_scanLexeme_unquoted (P := fun column => column ≤ n + (str.length + 1)) hcfg hc ?_
  have hback : t.backUp.column ≤ n := by
    show Scanner.addColumn t.column (-1) ≤ n
    rw [hcolumn]
    exact (addColumn_back_le s.column).trans hn
  exact ensures_scanUnquoted hcfg (by simp) (notMem_unquotedStops hc hplain)
    (metaClassOf_ends hcfg hd) hback hreads

theorem quote_class (hcfg : cfg.Standard) (hc : c = UChar.sq ∨ c = UChar.dq) :
    cfg.metaClassOf c ≠ .ws ∧ cfg.classOf c ≠ .hash := by
  simp [Config.metaClassOf, hcfg.classOf_quote hc, CharClass.metaClass]

theorem isCifText_quotes {v : Int} (hc : c = UChar.sq ∨ c = UChar.dq) (n : Nat) :
    isCifText v (List.replicate n c) = true := by
  refine isCifText_of_ascii fun d hd => .inr (.inr ?_)
  rw [List.eq_of_mem_replicate hd]
  rcases hc with rfl | rfl <;> decide

/-- Text after a quote is read from there. -/
theorem reads_quote {t : Scanner σ} {text tail : List UChar} (hc : c = UChar.sq ∨ c = UChar.dq)
    (ht : Shows t.toBuffer 0 [c] (text ++ tail)) (htext : isCifText cfg.cifVersion text = true) :
    Reads cfg.cifVersion t false [c] text tail t := by
  have hlead : lastLead [c] = none := by
    rcases hc with rfl | rfl <;> rfl
  exact ⟨ht, .refl t, by rw [hlead]; rfl, by rw [hlead]; exact htext⟩

theorem ne_colon_of_ends (hcfg : cfg.Standard) (hd : cfg.classOf d = .ws ∨ d = UChar.nl) :
    d ≠ UChar.colon := by
  have hws := hcfg.metaClassOf_ws_iff.mp (metaClassOf_ends hcfg hd)
  rintro rfl
  exact absurd hws (by decide)

/-- A string between quotes. -/
theorem lexes_quoted (hcfg : cfg.Standard) (hc : c = UChar.sq ∨ c = UChar.dq) (hno : c ∉ str)
    (hnl : UChar.nl ∉ str) (htext : isCifText cfg.cifVersion str = true) :
    Lexes cfg (c :: (str ++ [c])) str .qvalue n (n + 1 + (str.length + 1)) := by
  obtain ⟨hws, hhash⟩ := quote_class hcfg hc
  refine ⟨⟨c, _, rfl, hws⟩, fun s d tail hd h hn => ?_⟩
  have hd := hd.resolve_left (by simp [TokenType.allowsAdjacent])
  refine post_scanToken_token (P := fun t =>
    t.column ≤ n + 1 + (str.length + 1)) h hws hhash (by simp) fun t ht hcolumn => ?_
  refine post_scanLexeme_quoted (P := fun column =>
    column ≤ n + 1 + (str.length + 1)) hcfg hc (ne_colon_of_ends hcfg hd) ?_
  have hcolumn' : t.column ≤ n + 1 :=
    hcolumn.le.trans ((addColumn_one_le s.column).trans (Nat.succ_le_succ hn))
  exact ensures_scanDelimString hcfg hc hno hnl (.inl (metaClassOf_ends hcfg hd)) hcolumn'
    (reads_quote hc ht (isCifTextFrom_append htext (isCifText_quotes hc 1)))

/-- A table key between quotes, with its colon. -/
theorem lexes_key (hcfg : cfg.Standard) (hv : 2 ≤ cfg.cifVersion) (hc : c = UChar.sq ∨ c = UChar.dq)
    (hno : c ∉ str) (hnl : UChar.nl ∉ str) (htext : isCifText cfg.cifVersion str = true) :
    Lexes cfg (c :: (str ++ [c] ++ [UChar.colon])) str .key n (n + 1 + (str.length + 1)) := by
  obtain ⟨hws, hhash⟩ := quote_class hcfg hc
  refine ⟨⟨c, _, rfl, hws⟩, fun s d tail _ h hn => ?_⟩
  refine post_scanToken_token (P := fun t =>
    t.column ≤ n + 1 + (str.length + 1)) h hws hhash (by simp) fun t ht hcolumn => ?_
  refine post_scanLexeme_key (P := fun column => column ≤ n + 1 + (str.length + 1)) hcfg hc ?_
  have hcolumn' : t.column ≤ n + 1 :=
    hcolumn.le.trans ((addColumn_one_le s.column).trans (Nat.succ_le_succ hn))
  have hcolon : UChar.colon ≠ c := by
    rcases hc with rfl | rfl <;> decide
  refine ensures_scanDelimString hcfg hc hno hnl (.inr ⟨hv, hcolon⟩) hcolumn'
    (reads_quote hc ?_ (isCifTextFrom_append htext (isCifText_quotes hc 1)))
  simpa using ht

/-- What is scanned after a quote that two more follow. -/
theorem ensures_triple (hcfg : cfg.Standard) (hv : 2 ≤ cfg.cifVersion)
    (hc : c = UChar.sq ∨ c = UChar.dq) (hlast : str.getLast? ≠ some c)
    (hno : ¬ List.replicate 3 c <:+: str) (htext : isCifText cfg.cifVersion str = true)
    (hfits : fits (n + 3) str = true) (hn : s.column ≤ n + 1)
    (h : Shows s.toBuffer 0 [c] (c :: c :: (str ++ List.replicate 3 c) ++ rest)) :
    Ensures (scanDelimString cfg) s
      (fun _ t => t.Holds str rest ∧ Edited s t
        ∧ t.column ≤ endColumn (n + 3) (str ++ List.replicate 3 c))
      (fun _ _ => False) := by
  refine ensures_scanDelimString_triple hcfg hv hc hlast hno (by omega) hfits (reads_quote hc h ?_)
  exact isCifTextFrom_append (isCifText_quotes hc 2)
    (isCifTextFrom_append htext (isCifText_quotes hc 3))

/-- A string between triple quotes. -/
theorem lexes_triple (hcfg : cfg.Standard) (hv : 2 ≤ cfg.cifVersion)
    (hc : c = UChar.sq ∨ c = UChar.dq) (hlast : str.getLast? ≠ some c)
    (hno : ¬ List.replicate 3 c <:+: str) (htext : isCifText cfg.cifVersion str = true)
    (hfits : fits (n + 3) str = true) :
    Lexes cfg (c :: (c :: c :: (str ++ List.replicate 3 c))) str .qvalue n
      (endColumn (n + 3) (str ++ List.replicate 3 c)) := by
  obtain ⟨hws, hhash⟩ := quote_class hcfg hc
  refine ⟨⟨c, _, rfl, hws⟩, fun s d tail hd h hn => ?_⟩
  have hd := hd.resolve_left (by simp [TokenType.allowsAdjacent])
  refine post_scanToken_token (P := fun t =>
    t.column ≤ endColumn (n + 3) (str ++ List.replicate 3 c)) h hws hhash (by simp)
    fun t ht hcolumn => ?_
  refine post_scanLexeme_quoted (P := fun column =>
    column ≤ endColumn (n + 3) (str ++ List.replicate 3 c)) hcfg hc (ne_colon_of_ends hcfg hd) ?_
  have hcolumn' : t.column ≤ n + 1 :=
    hcolumn.le.trans ((addColumn_one_le s.column).trans (Nat.succ_le_succ hn))
  exact ensures_triple hcfg hv hc hlast hno htext hfits hcolumn' ht

/-- A table key between triple quotes, with its colon. -/
theorem lexes_key_triple (hcfg : cfg.Standard) (hv : 2 ≤ cfg.cifVersion)
    (hc : c = UChar.sq ∨ c = UChar.dq) (hlast : str.getLast? ≠ some c)
    (hno : ¬ List.replicate 3 c <:+: str) (htext : isCifText cfg.cifVersion str = true)
    (hfits : fits (n + 3) str = true) :
    Lexes cfg (c :: (c :: c :: (str ++ List.replicate 3 c) ++ [UChar.colon])) str .key n
      (endColumn (n + 3) (str ++ List.replicate 3 c)) := by
  obtain ⟨hws, hhash⟩ := quote_class hcfg hc
  refine ⟨⟨c, _, rfl, hws⟩, fun s d tail _ h hn => ?_⟩
  refine post_scanToken_token (P := fun t =>
    t.column ≤ endColumn (n + 3) (str ++ List.replicate 3 c)) h hws hhash (by simp)
    fun t ht hcolumn => ?_
  refine post_scanLexeme_key (P := fun column =>
    column ≤ endColumn (n + 3) (str ++ List.replicate 3 c)) hcfg hc ?_
  have hcolumn' : t.column ≤ n + 1 :=
    hcolumn.le.trans ((addColumn_one_le s.column).trans (Nat.succ_le_succ hn))
  refine ensures_triple hcfg hv hc hlast hno htext hfits hcolumn' ?_
  simpa using ht

/-- The brackets and braces, with the classes and the types of the tokens that they are. -/
def brackets : List (UChar × CharClass × TokenType) :=
  [(UChar.obrk, .obrak, .olist), (UChar.cbrk, .cbrak, .clist), (UChar.obrc, .ocurl, .otable),
    (UChar.cbrc, .ccurl, .ctable)]

theorem lexes_bracket (htable : cfg.charClass = charClassV2 [] []) {clazz : CharClass}
    (h : (c, clazz, ttype) ∈ brackets) :
    Lexes cfg [c] [c] ttype n (n + 1) := by
  have hclass : cfg.classOf c = clazz ∧ clazz.metaClass ≠ .ws ∧ clazz ≠ .hash ∧ ttype ≠ .value := by
    have hall : ∀ b ∈ brackets, b.1 < charTableMax ∧ charClassV2 [] [] b.1 = b.2.1
        ∧ b.2.1.metaClass ≠ .ws
        ∧ b.2.1 ≠ .hash ∧ b.2.2 ≠ .value := by decide
    obtain ⟨hlt, heq, hplain⟩ := hall _ h
    exact ⟨by rw [Config.classOf, if_pos hlt, htable]; exact heq, hplain⟩
  obtain ⟨hclass, hws, hhash, hvalue⟩ := hclass
  have hlexeme : scanLexeme cfg clazz
      = (do setTokenLength 1; pure (.token ttype) : Parse σ Lexeme) := by
    simp only [brackets, List.mem_cons, List.not_mem_nil, or_false, Prod.mk.injEq] at h
    rcases h with ⟨_, rfl, rfl⟩ | ⟨_, rfl, rfl⟩ | ⟨_, rfl, rfl⟩ | ⟨_, rfl, rfl⟩ <;> rfl
  rw [← hclass] at hws hhash
  refine ⟨⟨c, [], rfl, hws⟩, fun s d tail _ h hn => ?_⟩
  refine post_scanToken_token (P := fun t => t.column ≤ n + 1) h hws hhash (fun heq =>
    absurd heq hvalue) fun t ht hcolumn => ?_
  rw [hclass, hlexeme, post_bind, setTokenLength, post_modify]
  have hcolumn' : t.column ≤ n + 1 :=
    hcolumn.le.trans ((addColumn_one_le s.column).trans (Nat.succ_le_succ hn))
  exact ⟨rfl, ⟨⟨⟨[], [], by simp, ht⟩, rfl⟩, (Edited.refl t).unreported⟩, hcolumn'⟩

end Tokens

section TextBlocks

variable {cfg : Config σ} {s s₀ : Scanner σ} {past text tail body : List UChar} {c : UChar}
  {n m : Nat}

theorem endColumn_append {text rest : UStr} :
    endColumn n (text ++ rest) = endColumn (endColumn n text) rest := by
  induction text generalizing n with
  | nil => rfl
  | cons c text ih =>
    rw [List.cons_append, endColumn, endColumn]
    split
    · exact ih
    · exact ih

/-- What a scan of a text block has come to: whether at the start of a line, and that no line is too
long. -/
structure InTextBlock (m : Nat) (st : Bool × Nat) (past text : List UChar) (column : Nat) :
    Prop where
  sol_iff : st.2 ≠ 0 ↔ past.getLast? = some UChar.nl
  fits : ∃ n, column ≤ n ∧ fits n text = true ∧ endColumn n text ≤ m

/-- A line of a text block that begins with a semicolon is the end of it. -/
theorem eq_nil_of_semi (hbody : ¬ [UChar.nl, UChar.semi] <:+: body)
    (hwhole : past ++ UChar.semi :: text = [UChar.semi] ++ body ++ [UChar.nl, UChar.semi])
    (hpast : past.getLast? = some UChar.nl) :
    text = [] := by
  have hne : UChar.nl ≠ UChar.semi := by decide
  by_contra htext
  obtain ⟨before, rfl⟩ := List.getLast?_eq_some_iff.mp hpast
  have hdelim : [UChar.semi] ++ body ++ [UChar.nl, UChar.semi]
      = ([UChar.semi] ++ body ++ [UChar.nl]) ++ [UChar.semi] := by
    simp
  rw [hdelim] at hwhole
  obtain ⟨text', rfl, hstr⟩ := eq_of_append_cons hwhole htext
  have htext' : text' ≠ [] := by
    rintro rfl
    have hlast := (List.append_inj' hstr rfl).2
    exact hne (List.cons.inj hlast).1
  obtain ⟨text'', rfl, hstr'⟩ := eq_of_append_cons hstr.symm htext'
  cases before with
  | nil => exact hne (List.cons.inj hstr').1.symm
  | cons d before =>
    refine hbody ⟨before, text'', ?_⟩
    have htail := (List.cons.inj hstr').2
    simpa using htail.symm

/-- A text block ends at the first line after its own first that begins with a semicolon. -/
theorem ensures_scanText (hcfg : cfg.Standard) (hbody : ¬ [UChar.nl, UChar.semi] <:+: body)
    (hallowed : isCifText cfg.cifVersion body = true) (hfits : fits 1 (body ++ [UChar.nl]) = true)
    (hn : s.column ≤ 1)
    (h : Shows s.toBuffer 0 [UChar.semi] (body ++ [UChar.nl, UChar.semi] ++ tail)) :
    Ensures (scanText cfg) s (fun _ t => t.Holds body tail ∧ Edited s t ∧ t.column ≤ 1)
      (fun _ _ => False) := by
  have hne : UChar.nl ≠ UChar.semi := by decide
  have hquote : isCifText cfg.cifVersion [UChar.nl, UChar.semi] = true :=
    isCifText_of_ascii (by decide)
  have hcrbody : UChar.cr ∉ [UChar.semi] ++ body ++ [UChar.nl, UChar.semi] := by
    have hcr := cr_notMem_of_isCifTextFrom hallowed
    simp [hcr]
  have hreads : Reads cfg.cifVersion s false [UChar.semi] (body ++ [UChar.nl, UChar.semi]) tail s :=
    ⟨h, .refl s, rfl, isCifTextFrom_append hallowed hquote⟩
  have hstart : InTextBlock 1 (false, 0) [UChar.semi] (body ++ [UChar.nl, UChar.semi])
      s.column := by
    have hdelim : body ++ [UChar.nl, UChar.semi] = (body ++ [UChar.nl]) ++ [UChar.semi] := by simp
    refine ⟨by simp, 1, hn, ?_, ?_⟩
    · rw [hdelim]
      exact fits_append hfits (by simp)
    · rw [endColumn_append]
      exact Nat.le_refl 1
  rw [Ensures, scanText, post_bind]
  refine (Reads.ensures_scanUnits (W := [UChar.semi] ++ body ++ [UChar.nl, UChar.semi])
    (L := Prod.fst) (K := InTextBlock 1)
    (Q := fun size t => size = 2
      ∧ Shows t.toBuffer 0 ([UChar.semi] ++ body ++ [UChar.nl, UChar.semi]) tail ∧ Edited s t
      ∧ t.column ≤ 1)
    ?_ (List.append_assoc _ _ _).symm (by simp) hreads hstart).imp ?_ (fun _ _ he => he)
  · rintro st past c text t hwhole h hK hlt
    have hlast : text = [] → c = UChar.semi ∧ past = [UChar.semi] ++ body ++ [UChar.nl] := by
      rintro rfl
      have hdelim : [UChar.semi] ++ body ++ [UChar.nl, UChar.semi]
          = ([UChar.semi] ++ body ++ [UChar.nl]) ++ [UChar.semi] := by
        simp
      rw [hdelim] at hwhole
      obtain ⟨hpast, hc⟩ := List.append_inj' hwhole rfl
      exact ⟨(List.cons.inj hc).1, hpast⟩
    obtain ⟨k, hcolumn, hfits, hm⟩ := hK.fits
    rw [Ensures, scanTextUnit, post_bind]
    refine (h.scanUChar hcfg hlt).imp ?_ (fun _ _ he => he)
    rintro ⟨c', lead⟩ u ⟨hc', hreads, hlimit, hcol⟩
    obtain rfl : c' = c := hc'
    have hcolumn' : u.column ≤ if isTrail c' then k else k + 1 := by
      split at hcol <;> simp_all <;> omega
    have hafter : c' ≠ UChar.nl → CifApi.fits (if isTrail c' then k else k + 1) text = true
        ∧ endColumn (if isTrail c' then k else k + 1) text ≤ 1 := by
      intro hno
      rw [CifApi.fits, if_neg hno] at hfits
      rw [endColumn, if_neg hno] at hm
      exact ⟨hfits, hm⟩
    dsimp only
    split
    · rename_i hclass
      obtain rfl := hcfg.classOf_semi_iff.mp hclass
      have hnext := hafter hne.symm
      split
      · rename_i hsol
        obtain rfl := eq_nil_of_semi hbody hwhole (hK.sol_iff.mp hsol)
        have hpast := (hlast rfl).2
        have hcr : u.buffer (u.nextChar - 3) ≠ UChar.cr := by
          have hbuf := hreads.shows.getElem? (n := body.length) (by simp [hpast])
          have hlen := hreads.shows.nextChar_eq
          rw [hpast] at hlen hbuf
          simp only [List.length_append, List.length_singleton] at hlen
          rw [show u.textStart + body.length = u.nextChar - 3 by omega] at hbuf
          intro heq
          rw [heq] at hbuf
          refine hcrbody ?_
          have hmem := List.mem_of_getElem? hbuf
          simpa using hmem
        rw [post_bind, post_read, if_neg (by simp [hcr])]
        refine ⟨rfl, ?_, hreads.edited, hcolumn'.trans hnext.2⟩
        have hshows := hreads.shows
        rw [hpast] at hshows
        simpa using hshows
      · rename_i hsol
        have hsol0 : st.2 = 0 := not_not.mp hsol
        have htext : text ≠ [] := by
          intro hnil
          have hpast : past.getLast? = some UChar.nl := by rw [(hlast hnil).2, List.getLast?_concat]
          exact hsol (hK.sol_iff.mpr hpast)
        exact ⟨htext, hreads, ⟨by simp [hsol0, hne.symm], _, hcolumn', hnext⟩, hlimit⟩
    · rename_i hclass
      obtain rfl : c' = UChar.nl := by
        refine (hcfg.classOf_eol_iff.mp hclass).resolve_right ?_
        rintro rfl
        exact h.shows.no_cr (by simp)
      have htext : text ≠ [] := fun hnil => hne (hlast hnil).1
      rw [CifApi.fits, if_pos rfl, Bool.and_eq_true, decide_eq_true_eq] at hfits
      rw [endColumn, if_pos rfl] at hm
      have hshort : u.column ≤ lineLength := Nat.le_trans hcolumn' hfits.1
      rw [post_bind]
      refine post_handleEol hshort fun sol j hsol => ?_
      have hsol := hsol rfl
      exact ⟨htext, ⟨hreads.shows, hreads.edited.trans ⟨rfl, rfl, rfl, rfl⟩, hreads.lead_eq,
        hreads.allowed⟩, ⟨by simp; omega, 0, Nat.le_refl 0, hfits.2, hm⟩, hlimit⟩
    · rename_i hsemi heol
      have hnotSemi : c' ≠ UChar.semi := fun heq => hsemi (hcfg.classOf_semi_iff.mpr heq)
      have hnotNl : c' ≠ UChar.nl := fun heq => heol (hcfg.classOf_eol_iff.mpr (.inl heq))
      have htext : text ≠ [] := fun hnil => hnotSemi (hlast hnil).1
      exact ⟨htext, hreads, ⟨by simp [hnotNl], _, hcolumn', hafter hnotNl⟩, hlimit⟩
  · rintro size t ⟨rfl, hshows, hedited, hcolumn⟩
    exact ⟨hshows.holds [UChar.semi] body [UChar.nl, UChar.semi] (by simp), hedited, hcolumn⟩

/-- A text block at the start of a line. -/
theorem lexes_text (hcfg : cfg.Standard) (hbody : ¬ [UChar.nl, UChar.semi] <:+: body)
    (hallowed : isCifText cfg.cifVersion body = true) (hfits : fits 1 (body ++ [UChar.nl]) = true) :
    Lexes cfg (UChar.semi :: (body ++ [UChar.nl, UChar.semi])) body .tvalue 0 1 := by
  have hclass : cfg.classOf UChar.semi = .semi := hcfg.classOf_semi_iff.mpr rfl
  have hws : cfg.metaClassOf UChar.semi ≠ .ws := by
    simp [Config.metaClassOf, hclass, CharClass.metaClass]
  refine ⟨⟨UChar.semi, _, rfl, hws⟩, fun s d tail hd h hn => ?_⟩
  have hd := hd.resolve_left (by simp [TokenType.allowsAdjacent])
  refine post_scanToken_token (P := fun t => t.column ≤ 1) h hws (by simp [hclass]) (by simp)
    fun t ht hcolumn => ?_
  have hzero : t.column = 1 := by
    rw [hcolumn, Nat.le_zero.mp hn]
    rfl
  rw [hclass, scanLexeme, post_bind, post_read, if_pos hzero, post_bind, scanTextBlock, post_bind]
  refine (ensures_scanText hcfg hbody hallowed hfits hzero.le ht).imp ?_ (fun _ _ he => he)
  rintro _ u ⟨hholds, hedited, hcolumn'⟩
  obtain ⟨before, after, hne, hshows⟩ := hholds.shows
  have hfound : Found t body (d :: tail) u := ⟨hholds, hedited.unreported⟩
  split
  · rw [post_bind]
    refine post_peekChar hshows fun b hb _ => ?_
    dsimp only
    rw [if_neg (ne_colon_of_ends hcfg hd)]
    exact ⟨rfl, ⟨⟨⟨before, after, hne, hb⟩, hholds.length_eq⟩, hedited.unreported⟩, hcolumn'⟩
  · exact ⟨rfl, hfound, hcolumn'⟩

end TextBlocks

end CifApi
