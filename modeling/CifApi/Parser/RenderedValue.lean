import CifApi.Parser.Termination
import CifApi.Parser.UnquotedMarking
import CifApi.Scanner.SpacedTokens

/-! Values as text of any layout, and that the parser reads such text as the value with nothing to
report. -/
namespace CifApi

open Exec Buffer

variable {σ : Type}

/-- A string between quotes, from a column to a column. -/
inductive Delimited (str : UStr) : Nat → UStr → Nat → Prop
  | quoted {c : UChar} {n : Nat} (hc : c = UChar.sq
    ∨ c = UChar.dq) (hno : c ∉ str) (hnl : UChar.nl ∉ str) :
    Delimited str n (c :: (str ++ [c])) (n + 1 + (str.length + 1))
  | triple {c : UChar} {n : Nat} (hc : c = UChar.sq ∨ c = UChar.dq) (hlast : str.getLast? ≠ some c)
    (hno : ¬ List.replicate 3 c <:+: str) (hfits : fits (n + 3) str = true) :
    Delimited str n (c :: c :: c :: (str ++ List.replicate 3 c))
      (endColumn (n + 3) (str ++ List.replicate 3 c))

/-- A value in a text: the blanks before it, and its own text with the columns that this begins and
ends in. -/
structure Part where
  blanks : UStr
  start : Nat
  text : UStr
  stop : Nat
  value : Value

/-- A table entry in a text: the blanks before its key, and the key as it is, in quotes and
normalised. -/
structure EntryPart extends Part where
  keyBlanks : UStr
  keyStart : Nat
  keyText : UStr
  keyStop : Nat
  key : UStr
  norm : UStr

/-- Elements with blanks before each of them. -/
def Separated : Nat → List Part → Nat → Prop
  | n, [], m => n = m
  | n, p :: parts, m => Blanks n p.blanks p.start ∧ p.blanks ≠ [] ∧ Separated p.stop parts m

/-- Entries with blanks before each key; there need be none between the key's colon and the
value. -/
def SeparatedEntries : Nat → List EntryPart → Nat → Prop
  | n, [], m => n = m
  | n, e :: entries, m => Blanks n e.keyBlanks e.keyStart ∧ e.keyBlanks ≠ []
    ∧ Delimited e.key e.keyStart e.keyText e.keyStop
    ∧ Blanks (e.keyStop + 1) e.blanks e.start ∧ SeparatedEntries e.stop entries m

def partsText (parts : List Part) : UStr := parts.flatMap fun p => p.blanks ++ p.text

def entriesText (entries : List EntryPart) : UStr :=
  entries.flatMap fun e => e.keyBlanks ++ e.keyText ++ [UChar.colon] ++ e.blanks ++ e.text

/-- From a column to a column, a text is a value as CIF 2 has it. -/
inductive Renders (cfg : Config σ) : Nat → UStr → Value → Nat → Prop
  | unk {n : Nat} : Renders cfg n [UChar.query] .unk (n + 1)
  | na {n : Nat} : Renders cfg n [UChar.decimal] .na (n + 1)
  | bare {n : Nat} {str : UStr} (hbare : Bare str) (hsemi : str.head? ≠ some UChar.semi)
    (htext : isCifText cfg.cifVersion str = true) :
      Renders cfg n str (.char str false) (n + str.length)
  | delimited {n m : Nat} {str raw : UStr} (h : Delimited str n raw m)
    (htext : isCifText cfg.cifVersion str = true) :
    Renders cfg n raw (.char str true) m
  /-- A text block can only stand at the start of a line. -/
  | block {body str : UStr} (hbody : ¬ [UChar.nl, UChar.semi] <:+: body)
    (htext : isCifText cfg.cifVersion body = true)
    (hfits : fits 1 (body ++ [UChar.nl]) = true) (hdecode : decodeText cfg body = str) :
    Renders cfg 0 (UChar.semi :: (body ++ [UChar.nl, UChar.semi])) (.char str true) 1
  | list {n k m : Nat} {parts : List Part} {blanks : UStr} (h : ∀ p ∈ parts,
    Renders cfg p.start p.text p.value p.stop)
    (hparts : Separated (n + 1) parts k) (hblanks : Blanks k blanks m) (hne : blanks ≠ []) :
    Renders cfg n (UChar.obrk :: (partsText parts ++ (blanks ++ [UChar.cbrk])))
      (.list (parts.map (·.value))) (m + 1)
  | table {n k m : Nat} {entries : List EntryPart} {blanks : UStr}
    (h : ∀ e ∈ entries, Renders cfg e.start e.text e.value e.stop)
    (hkeys : ∀ e ∈ entries, isCifText cfg.cifVersion e.key = true
      ∧ cfg.icu.normalizeTableIndex e.key Code.invalidIndex = .ok e.norm)
    (hdistinct : (entries.map (·.norm)).Nodup) (hentries : SeparatedEntries (n + 1) entries k)
    (hblanks : Blanks k blanks m) (hne : blanks ≠ []) :
    Renders cfg n (UChar.obrc :: (entriesText entries ++ (blanks ++ [UChar.cbrc])))
      (.table (entries.map fun e => (e.norm, e.key, e.value))) (m + 1)

/-- No error has been reported from `s` to `t`. -/
def Faultless (s t : Scanner σ) : Prop :=
  ∃ events, t.log = events ++ s.log ∧ ∀ e ∈ events, ∀ r reply w, e ≠ .error r reply w

section Faultless

variable {s t u : Scanner σ}

theorem faultless_consume (s : Scanner σ) : Faultless s s.consumeToken := ⟨[], rfl, by simp⟩

theorem Faultless.trans (h : Faultless s t) (h' : Faultless t u) : Faultless s u := by
  obtain ⟨events, hlog, hall⟩ := h
  obtain ⟨later, hlog', hall'⟩ := h'
  refine ⟨later ++ events, by rw [hlog', hlog, List.append_assoc], ?_⟩
  intro e he
  rcases List.mem_append.mp he with he | he
  · exact hall' e he
  · exact hall e he

theorem Unreported.faultless (h : Unreported s t) : Faultless s t := by
  obtain ⟨events, hlog, hall⟩ := h
  refine ⟨events, hlog, fun e he r reply w heq => ?_⟩
  obtain ⟨r', w', rfl⟩ := hall e he
  cases heq

end Faultless

section Delimiters

variable {cfg : Config σ} {str raw : UStr} {n m : Nat} {ttype : TokenType}

theorem Lexes.mono {m' : Nat} (h : Lexes cfg raw str ttype n m) (hm : m ≤ m') :
    Lexes cfg raw str ttype n m' := by
  refine ⟨h.start, fun s d tail hd hs hn => (h.scanned s d tail hd hs hn).imp ?_ (fun _ _ he => he)⟩
  rintro r t ⟨hr, hfound, hcolumn⟩
  exact ⟨hr, hfound, hcolumn.trans hm⟩

theorem Delimited.lexes (h : Delimited str n raw m) (hcfg : cfg.Standard) (hv : 2 ≤ cfg.cifVersion)
    (htext : isCifText cfg.cifVersion str = true) : Lexes cfg raw str .qvalue n m := by
  cases h with
  | quoted hc hno hnl => exact lexes_quoted hcfg hc hno hnl htext
  | triple hc hlast hno hfits => exact lexes_triple hcfg hv hc hlast hno htext hfits

theorem Delimited.lexes_key (h : Delimited str n raw m) (hcfg : cfg.Standard)
    (hv : 2 ≤ cfg.cifVersion) (htext : isCifText cfg.cifVersion str = true) :
    Lexes cfg (raw ++ [UChar.colon]) str .key n (m + 1) := by
  cases h with
  | quoted hc hno hnl => exact (CifApi.lexes_key hcfg hv hc hno hnl htext).mono (Nat.le_succ _)
  | triple hc hlast hno hfits =>
    exact (lexes_key_triple hcfg hv hc hlast hno htext hfits).mono (Nat.le_succ _)

end Delimiters

section Reading

variable {cfg : Config σ} {s t : Scanner σ} {str raw text rest blanks : UStr} {d : UChar}
  {ttype : TokenType} {n m k : Nat} {value : Value}

/-- What may follow a value. -/
def EndsValue (cfg : Config σ) (d : UChar) : Prop := cfg.classOf d = .ws ∨ d = UChar.nl

/-- In a scanner with the first token of a value, the parser reads the value. -/
structure Begins (cfg : Config σ) (value : Value) (m : Nat) (rest : List UChar) (t : Scanner σ) :
    Prop where
  starts : t.ttype.startsValue = true
  pending : t.textStart < t.nextChar
  read : ∀ j, Ensures (unroll (fun self _ => parseValueBody cfg (self ())) j ()) t
    (fun v u => v = value ∧ Shows u.toBuffer 0 [] rest ∧ u.column ≤ m ∧ Faultless t u) (fun _ _ =>
      False)

/-- In a column, after blanks or a token that any may follow, a text is read as a value. -/
def ReadAs (cfg : Config σ) (n : Nat) (text : UStr) (value : Value) (m : Nat) : Prop :=
  ∀ (s : Scanner σ) (k : Nat) (blanks : UStr) (d : UChar) (rest : List UChar), Blanks k blanks n →
    blanks ≠ [] ∨ s.ttype.allowsAdjacent = true → s.column ≤ k → EndsValue cfg d →
    Shows s.toBuffer 0 [] (blanks ++ (text ++ d :: rest)) →
    Ensures (nextToken cfg) s (fun _ t => Faultless s t
      ∧ Begins cfg value m (d :: rest) t) (fun _ _ => False)

theorem post_nextToken_pending {cut : Prop} {Q : PUnit → Scanner σ → Prop}
    {E : Int → Scanner σ → Prop} (h : s.textStart < s.nextChar) (hQ : Q ⟨⟩ s) :
    Post cut (nextToken cfg) s Q E := by
  rw [Post, nextToken_of_pending h]
  exact hQ

theorem Found.pending {u : Scanner σ} (h : Found s str rest u) : u.textStart < u.nextChar := by
  obtain ⟨before, after, hne, hshows⟩ := h.holds.shows
  have heq := hshows.nextChar_eq
  have hpos := List.length_pos_iff.mpr hne
  omega

theorem Found.consume {u : Scanner σ} (h : Found s str rest u) :
    Shows u.consumeToken.toBuffer 0 [] rest := by
  obtain ⟨before, after, _, hshows⟩ := h.holds.shows
  exact hshows.consume

/-- A value of one token. -/
theorem Lexes.readAs (h : Lexes cfg raw str ttype n m) (hcfg : cfg.Standard)
    (hstarts : ttype.startsValue = true) (hadjacent : ttype.allowsAdjacent = false)
    (hread : ∀ (t : Scanner σ) (self : Parse σ Value), t.ttype = ttype → t.tvalue = str →
      t.textStart < t.nextChar →
      Ensures (parseValueBody cfg self) t (fun v u => v = value ∧ u = t.consumeToken)
      (fun _ _ => False)) :
    ReadAs cfg n raw value m := by
  intro s k blanks d rest hblanks hsep hcolumn hd hs
  refine (h.ensures_nextToken hcfg hblanks hsep hcolumn (.inr hd) hs).imp ?_ (fun _ _ he => he)
  rintro _ t ⟨rfl, hfound, hcolumn'⟩
  refine ⟨hfound.unreported.faultless, hstarts, hfound.pending, fun j => ?_⟩
  cases j with
  | zero => trivial
  | succ j =>
    rw [Ensures, unroll_succ]
    refine (hread t _ rfl hfound.holds.tvalue_eq hfound.pending).imp ?_ (fun _ _ he => he)
    rintro v u ⟨rfl, rfl⟩
    exact ⟨rfl, hfound.consume, hcolumn', faultless_consume t⟩

theorem readAs_unquoted (hcfg : cfg.Standard) {c : UChar} (hc : c ∉ unquotedNonstarts)
    (hplain : ∀ e ∈ rest, e ∉ unquotedStops) (hreserved : isReservedString (c :: rest) = false)
    (htext : isCifText cfg.cifVersion (c :: rest) = true)
    (hvalue : ∀ t : Scanner σ, t.tvalue = c :: rest →
      Ensures (bareValue cfg) t (fun v u => v = value ∧ u = t) (fun _ _ => False)) :
    ReadAs cfg n (c :: rest) value (n + (rest.length + 1)) := by
  refine (lexes_unquoted hcfg hc hplain hreserved htext).readAs hcfg rfl rfl
    fun t self httype htvalue hpending => ?_
  rw [Ensures, parseValueBody, post_bind]
  refine post_nextToken_pending hpending ?_
  rw [post_bind, post_read, httype]
  dsimp only
  rw [post_bind]
  refine (hvalue t htvalue).imp ?_ (fun _ _ he => he)
  rintro v u ⟨rfl, rfl⟩
  exact ⟨rfl, rfl⟩

theorem readAs_unk (hcfg : cfg.Standard) : ReadAs cfg n [UChar.query] .unk (n + 1) := by
  refine readAs_unquoted hcfg (by decide) (by simp) (by decide) (isCifText_of_ascii (by decide))
    fun t htvalue => ?_
  rw [Ensures, bareValue, post_bind, post_read, htvalue, if_pos rfl]
  exact ⟨rfl, rfl⟩

theorem readAs_na (hcfg : cfg.Standard) : ReadAs cfg n [UChar.decimal] .na (n + 1) := by
  refine readAs_unquoted hcfg (by decide) (by simp) (by decide) (isCifText_of_ascii (by decide))
    fun t htvalue => ?_
  rw [Ensures, bareValue, post_bind, post_read, htvalue, if_neg (by decide), if_pos rfl]
  exact ⟨rfl, rfl⟩

theorem readAs_bare (hcfg : cfg.Standard) (hv : 2 ≤ cfg.cifVersion) (hbare : Bare str)
    (hsemi : str.head? ≠ some UChar.semi) (htext : isCifText cfg.cifVersion str = true) :
    ReadAs cfg n str (.char str false) (n + str.length) := by
  obtain ⟨c, rest, rfl, hstart, hplain⟩ := hbare.start
  have hc : c ∉ unquotedNonstarts := hstart.resolve_left fun heq => hsemi (congrArg some heq)
  refine readAs_unquoted hcfg hc hplain hbare.unreserved htext fun t htvalue => ?_
  exact hbare.post_bareValue hv (zero_notMem_of_isCifTextFrom htext) htvalue ⟨rfl, rfl⟩

theorem Delimited.readAs (h : Delimited str n raw m) (hcfg : cfg.Standard) (hv : 2 ≤ cfg.cifVersion)
    (htext : isCifText cfg.cifVersion str = true) : ReadAs cfg n raw (.char str true) m := by
  refine (h.lexes hcfg hv htext).readAs hcfg rfl rfl fun t self httype htvalue hpending => ?_
  rw [Ensures, parseValueBody, post_bind]
  refine post_nextToken_pending hpending ?_
  rw [post_bind, post_read, httype]
  dsimp only
  rw [post_bind, post_modify, htvalue, cstr_of_zero_notMem (zero_notMem_of_isCifTextFrom htext)]
  exact ⟨rfl, rfl⟩

theorem readAs_block (hcfg : cfg.Standard) {body : UStr}
    (hbody : ¬ [UChar.nl, UChar.semi] <:+: body) (htext : isCifText cfg.cifVersion body = true)
    (hfits : fits 1 (body ++ [UChar.nl]) = true) (hdecode : decodeText cfg body = str) :
    ReadAs cfg 0 (UChar.semi :: (body ++ [UChar.nl, UChar.semi])) (.char str true) 1 := by
  refine (lexes_text hcfg hbody htext hfits).readAs hcfg rfl rfl
    fun t self httype htvalue hpending => ?_
  rw [Ensures, parseValueBody, post_bind]
  refine post_nextToken_pending hpending ?_
  rw [post_bind, post_read, httype]
  dsimp only
  rw [post_bind, post_modify, htvalue, hdecode]
  exact ⟨rfl, rfl⟩

theorem Blanks.starts (h : Blanks n blanks m) (hne : blanks ≠ []) (hcfg : cfg.Standard)
    (rest : List UChar) :
    ∃ d tail, blanks ++ rest = d :: tail ∧ EndsValue cfg d := by
  cases h with
  | nil => exact absurd rfl hne
  | space _ => exact ⟨_, _, rfl, .inl (hcfg.classOf_ws_iff.mpr (.inr rfl))⟩
  | newline _ _ => exact ⟨_, _, rfl, .inr rfl⟩

/-- White space comes after each element, and after an opening bracket. -/
theorem Separated.starts {parts : List Part} (h : Separated n parts k) (hblanks : Blanks k blanks m)
    (hne : blanks ≠ []) (hcfg : cfg.Standard) (rest : List UChar) :
    ∃ d tail, partsText parts ++ (blanks ++ rest) = d :: tail ∧ EndsValue cfg d := by
  cases parts with
  | nil => exact hblanks.starts hne hcfg rest
  | cons p parts =>
    obtain ⟨hp, hpne, _⟩ := h
    rw [partsText, List.flatMap_cons, List.append_assoc, List.append_assoc]
    exact hp.starts hpne hcfg _

/-- A list in brackets, of what is read as its elements. -/
theorem readAs_list (htable : cfg.charClass = charClassV2 [] []) {parts : List Part}
    (hread : ∀ p ∈ parts, ReadAs cfg p.start p.text p.value p.stop)
    (hparts : Separated (n + 1) parts k) (hblanks : Blanks k blanks m) (hne : blanks ≠ []) :
    ReadAs cfg n (UChar.obrk :: (partsText parts ++ (blanks ++ [UChar.cbrk])))
      (.list (parts.map (·.value))) (m + 1) := by
  have hcfg : cfg.Standard := .inl htable
  intro s k₀ blanks₀ d rest hblanks₀ hsep hcolumn hd hs
  have hopen : Lexes cfg [UChar.obrk] [UChar.obrk] .olist n (n + 1) :=
    lexes_bracket htable (show (UChar.obrk, CharClass.obrak, TokenType.olist) ∈ brackets by
      simp [brackets])
  have hclose : Lexes cfg [UChar.cbrk] [UChar.cbrk] .clist m (m + 1) :=
    lexes_bracket htable (show (UChar.cbrk, CharClass.cbrak, TokenType.clist) ∈ brackets by
      simp [brackets])
  obtain ⟨d', tail, htail, hd'⟩ := hparts.starts hblanks hne hcfg (UChar.cbrk :: d :: rest)
  have hs' : Shows s.toBuffer 0 [] (blanks₀ ++ ([UChar.obrk] ++ d' :: tail)) := by
    rw [← htail]
    simpa using hs
  refine (hopen.ensures_nextToken hcfg hblanks₀ hsep hcolumn (.inr hd') hs').imp ?_ (fun _ _ he =>
    he)
  rintro _ t ⟨httype, hfound, hcolumn'⟩
  refine ⟨hfound.unreported.faultless, by rw [httype]; rfl, hfound.pending, fun j => ?_⟩
  cases j with
  | zero => trivial
  | succ j =>
    rw [Ensures, unroll_succ, parseValueBody, post_bind]
    refine post_nextToken_pending hfound.pending ?_
    rw [post_bind, post_read, httype]
    dsimp only
    rw [post_bind, post_modify, parseList, bind_pure_comp, post_map]
    -- what is left of the list before each round
    refine (Ensures.loop (I := fun list u => ∃ done left k', parts = done ++ left
      ∧ list = done.map (·.value)
        ∧ Separated k' left k ∧ u.column ≤ k' ∧ Faultless t u
        ∧ Shows u.toBuffer 0 [] (partsText left ++ (blanks ++ (UChar.cbrk :: d :: rest))))
      (Q := fun list u => list = parts.map (·.value) ∧ Shows u.toBuffer 0 [] (d :: rest)
        ∧ u.column ≤ m + 1 ∧ Faultless t u)
      ?_ ?_).imp ?_ (fun _ _ he => he)
    · rintro list u ⟨done, left, k', hall, rfl, hleft, hk', hquiet, hu⟩
      rw [Ensures, parseListElement, post_bind]
      cases left with
      | nil =>
        obtain rfl : k' = k := hleft
        refine (hclose.ensures_nextToken hcfg hblanks (.inl hne) hk' (.inr hd) hu).imp ?_
          (fun _ _ he => he)
        rintro _ v ⟨hvtype, hvfound, hvcolumn⟩
        rw [post_bind, post_read, hvtype]
        dsimp only
        rw [post_bind, post_modify]
        have hdone : done.map (·.value) = parts.map (·.value) := by rw [hall, List.append_nil]
        have hquiet' : Faultless t v.consumeToken := hquiet.trans hvfound.unreported.faultless
        exact ⟨hdone, hvfound.consume, hvcolumn, hquiet'⟩
      | cons p left =>
        obtain ⟨hp, hpne, hleft⟩ := hleft
        obtain ⟨d₁, tail₁, htail₁, hd₁⟩ := hleft.starts hblanks hne hcfg (UChar.cbrk :: d :: rest)
        have hu' : Shows u.toBuffer 0 [] (p.blanks ++ (p.text ++ d₁ :: tail₁)) := by
          rw [← htail₁]
          simpa [partsText] using hu
        have hmem : p ∈ parts := by simp [hall]
        refine (hread p hmem u k' p.blanks d₁ tail₁ hp (.inl hpne) hk' hd₁ hu').imp ?_
          (fun _ _ he => he)
        rintro _ v ⟨hvquiet, hbegins⟩
        rw [post_bind, post_read]
        have helement : Post True (do return .inl (done.map (·.value)
            ++ [← unroll (fun self _ => parseValueBody cfg (self ())) j ()]) :
              Parse σ (List Value ⊕ List Value)) v
                (Round (fun list u => ∃ done left k', parts = done ++ left
              ∧ list = done.map (·.value) ∧ Separated k' left k ∧ u.column ≤ k' ∧ Faultless t u
              ∧ Shows u.toBuffer 0 [] (partsText left ++ (blanks ++ (UChar.cbrk :: d :: rest))))
            (fun list u => list = parts.map (·.value) ∧ Shows u.toBuffer 0 [] (d :: rest)
              ∧ u.column ≤ m + 1 ∧ Faultless t u))
            (fun _ _ => False) := by
          rw [post_bind]
          refine (hbegins.read j).imp ?_ (fun _ _ he => he)
          rintro w u' ⟨rfl, hu', hcolumn₁, hquiet₁⟩
          refine ⟨done ++ [p], left, p.stop, by simp [hall], by simp, hleft, hcolumn₁, ?_,
            by rwa [htail₁]⟩
          exact hquiet.trans (hvquiet.trans hquiet₁)
        have hstarts := hbegins.starts
        cases hvtype : v.ttype with
        | olist => exact helement
        | otable => exact helement
        | value => exact helement
        | qvalue => exact helement
        | tvalue => exact helement
        | _ => simp [hvtype, TokenType.startsValue] at hstarts
    · have ht : Shows t.consumeToken.toBuffer 0 []
          (partsText parts ++ (blanks ++ (UChar.cbrk :: d :: rest))) := by
        rw [htail]
        exact hfound.consume
      exact ⟨[], parts, n + 1, rfl, rfl, hparts, hcolumn', faultless_consume t, ht⟩
    · rintro list u ⟨rfl, hu, hcolumn₁, hquiet⟩
      exact ⟨rfl, hu, hcolumn₁, hquiet⟩

theorem SeparatedEntries.starts {entries : List EntryPart} (h : SeparatedEntries n entries k)
    (hblanks : Blanks k blanks m) (hne : blanks ≠ []) (hcfg : cfg.Standard) (rest : List UChar) :
    ∃ d tail, entriesText entries ++ (blanks ++ rest) = d :: tail ∧ EndsValue cfg d := by
  cases entries with
  | nil => exact hblanks.starts hne hcfg rest
  | cons e entries =>
    obtain ⟨hkey, hkeyne, _⟩ := h
    rw [entriesText, List.flatMap_cons, List.append_assoc, List.append_assoc, List.append_assoc,
      List.append_assoc, List.append_assoc]
    exact hkey.starts hkeyne hcfg _

/-- The key of an entry is normalised, and nothing else changes. -/
theorem post_setItemByKey {cut : Prop} {key norm : UStr} {Q : UStr → Scanner σ → Prop}
    {E : Int → Scanner σ → Prop}
    (hnorm : cfg.icu.normalizeTableIndex key Code.invalidIndex = .ok norm)
    (hQ : ∀ u, u.toBuffer = s.toBuffer → u.column = s.column → u.ttype = s.ttype → Faultless s u →
      Q norm u) :
    Post cut (setItemByKey cfg key) s Q E := by
  rw [setItemByKey, post_bind, storeCall, post_update]
  dsimp only
  rw [hnorm]
  refine hQ _ rfl rfl rfl ⟨[.store (.setItemByKey key) s.world.cif Code.ok s.world], rfl, ?_⟩
  intro e he r reply w heq
  rw [List.mem_singleton.mp he] at heq
  cases heq

theorem setEntry_of_notMem {entries : List (UStr × UStr × Value)} {key keyOrig : UStr}
    {item : Value} (h : key ∉ entries.map (·.1)) :
    Value.setEntry entries key keyOrig item = entries ++ [(key, keyOrig, item)] := by
  rw [Value.setEntry, if_neg]
  intro hany
  obtain ⟨e, he, hkey⟩ := List.any_eq_true.mp hany
  exact h (List.mem_map.mpr ⟨e, he, of_decide_eq_true hkey⟩)

/-- An entry of a table, up to its value. -/
theorem ensures_parseTableEntry (hcfg : cfg.Standard) (hv : 2 ≤ cfg.cifVersion) {e : EntryPart}
    {acc : List (UStr × UStr × Value)} {j : Nat} (hkeyblanks : Blanks k e.keyBlanks e.keyStart)
    (hkeyne : e.keyBlanks ≠ []) (hkey : Delimited e.key e.keyStart e.keyText e.keyStop)
    (htext : isCifText cfg.cifVersion e.key = true)
    (hnorm : cfg.icu.normalizeTableIndex e.key Code.invalidIndex = .ok e.norm)
    (hnew : e.norm ∉ acc.map (·.1))
    (hblanks : Blanks (e.keyStop + 1) e.blanks e.start)
    (hread : ReadAs cfg e.start e.text e.value e.stop) (hd : EndsValue cfg d) (hk : s.column ≤ k)
    (h : Shows s.toBuffer 0 [] (e.keyBlanks
      ++ ((e.keyText ++ [UChar.colon]) ++ (e.blanks ++ (e.text ++ d :: rest))))) :
    Ensures (parseTableEntry cfg (unroll (fun self _ => parseValueBody cfg (self ())) j ()) acc) s
      (fun r u => r = .inl (acc ++ [(e.norm, e.key, e.value)]) ∧ Shows u.toBuffer 0 [] (d :: rest)
        ∧ u.column ≤ e.stop
        ∧ Faultless s u) (fun _ _ => False) := by
  have hlexes := hkey.lexes_key hcfg hv htext
  obtain ⟨d', tail, htail⟩ : ∃ d' tail, e.blanks ++ (e.text ++ d :: rest) = d' :: tail :=
    List.exists_cons_of_ne_nil (by simp)
  have hs : Shows s.toBuffer 0 [] (e.keyBlanks
      ++ ((e.keyText ++ [UChar.colon]) ++ d' :: tail)) := by
    rw [← htail]
    exact h
  rw [Ensures, parseTableEntry, post_bind, parseTableKey, post_bind]
  refine (hlexes.ensures_nextToken hcfg hkeyblanks (.inl hkeyne) hk (.inl rfl) hs).imp ?_
    (fun _ _ he => he)
  rintro _ t ⟨httype, hfound, hcolumn⟩
  rw [post_bind, post_read, httype]
  dsimp only
  rw [post_bind, post_modify, post_pure, hfound.holds.tvalue_eq,
    cstr_of_zero_notMem (zero_notMem_of_isCifTextFrom htext)]
  dsimp only
  rw [post_bind]
  refine post_setItemByKey hnorm fun u hbuffer hucolumn huttype huquiet => ?_
  have hu : Shows u.toBuffer 0 [] (e.blanks ++ (e.text ++ d :: rest)) := by
    rw [hbuffer, htail]
    exact hfound.consume
  have hadjacent : u.ttype.allowsAdjacent = true := by
    rw [huttype]
    show t.ttype.allowsAdjacent = true
    rw [httype]
    rfl
  rw [post_bind, parseTableValue, post_bind]
  refine (hread u _ e.blanks d rest hblanks (.inr hadjacent) (hucolumn.le.trans hcolumn) hd hu).imp
    ?_ (fun _ _ he => he)
  rintro _ v ⟨hvquiet, hbegins⟩
  rw [post_bind, post_read, if_pos hbegins.starts]
  refine (hbegins.read j).imp ?_ (fun _ _ he => he)
  rintro w u' ⟨rfl, hu', hcolumn', hquiet'⟩
  have hquiet : Faultless s u' :=
    hfound.unreported.faultless.trans
      ((faultless_consume t).trans (huquiet.trans (hvquiet.trans hquiet')))
  rw [post_pure, setEntry_of_notMem hnew]
  exact ⟨rfl, hu', hcolumn', hquiet⟩

/-- A table in braces, of what is read as its keys and values. -/
theorem readAs_table (htable : cfg.charClass = charClassV2 [] []) (hv : 2 ≤ cfg.cifVersion)
    {entries : List EntryPart} (hread : ∀ e ∈ entries, ReadAs cfg e.start e.text e.value e.stop)
    (hkeys : ∀ e ∈ entries, isCifText cfg.cifVersion e.key = true
      ∧ cfg.icu.normalizeTableIndex e.key Code.invalidIndex = .ok e.norm)
    (hdistinct : (entries.map (·.norm)).Nodup) (hentries : SeparatedEntries (n + 1) entries k)
    (hblanks : Blanks k blanks m) (hne : blanks ≠ []) :
    ReadAs cfg n (UChar.obrc :: (entriesText entries ++ (blanks ++ [UChar.cbrc])))
      (.table (entries.map fun e => (e.norm, e.key, e.value))) (m + 1) := by
  have hcfg : cfg.Standard := .inl htable
  intro s k₀ blanks₀ d rest hblanks₀ hsep hcolumn hd hs
  have hopen : Lexes cfg [UChar.obrc] [UChar.obrc] .otable n (n + 1) :=
    lexes_bracket htable (show (UChar.obrc, CharClass.ocurl, TokenType.otable) ∈ brackets by
      simp [brackets])
  have hclose : Lexes cfg [UChar.cbrc] [UChar.cbrc] .ctable m (m + 1) :=
    lexes_bracket htable (show (UChar.cbrc, CharClass.ccurl, TokenType.ctable) ∈ brackets by
      simp [brackets])
  obtain ⟨d', tail, htail, hd'⟩ := hentries.starts hblanks hne hcfg (UChar.cbrc :: d :: rest)
  have hs' : Shows s.toBuffer 0 [] (blanks₀ ++ ([UChar.obrc] ++ d' :: tail)) := by
    rw [← htail]
    simpa using hs
  refine (hopen.ensures_nextToken hcfg hblanks₀ hsep hcolumn (.inr hd') hs').imp ?_ (fun _ _ he =>
    he)
  rintro _ t ⟨httype, hfound, hcolumn'⟩
  refine ⟨hfound.unreported.faultless, by rw [httype]; rfl, hfound.pending, fun j => ?_⟩
  cases j with
  | zero => trivial
  | succ j =>
    rw [Ensures, unroll_succ, parseValueBody, post_bind]
    refine post_nextToken_pending hfound.pending ?_
    rw [post_bind, post_read, httype]
    dsimp only
    rw [post_bind, post_modify, parseTable, bind_pure_comp, post_map]
    -- what is left of the table before each round
    refine (Ensures.loop (I := fun acc u => ∃ done left k', entries = done ++ left
        ∧ acc = done.map (fun e => (e.norm, e.key, e.value)) ∧ SeparatedEntries k' left k
          ∧ u.column ≤ k' ∧ Faultless t u
        ∧ Shows u.toBuffer 0 [] (entriesText left ++ (blanks ++ (UChar.cbrc :: d :: rest))))
      (Q := fun acc u => acc = entries.map (fun e => (e.norm, e.key, e.value))
        ∧ Shows u.toBuffer 0 [] (d :: rest)
        ∧ u.column ≤ m + 1 ∧ Faultless t u)
      ?_ ?_).imp ?_ (fun _ _ he => he)
    · rintro acc u ⟨done, left, k', hall, rfl, hleft, hk', hquiet, hu⟩
      cases left with
      | nil =>
        obtain rfl : k' = k := hleft
        rw [Ensures, parseTableEntry, post_bind, parseTableKey, post_bind]
        refine (hclose.ensures_nextToken hcfg hblanks (.inl hne) hk' (.inr hd) hu).imp ?_
          (fun _ _ he => he)
        rintro _ v ⟨hvtype, hvfound, hvcolumn⟩
        rw [post_bind, post_read, hvtype]
        dsimp only
        rw [post_bind, post_modify, post_pure]
        dsimp only
        have hdone : done.map (fun e => (e.norm, e.key, e.value))
            = entries.map (fun e => (e.norm, e.key, e.value)) := by
          rw [hall, List.append_nil]
        have hquiet' : Faultless t v.consumeToken := hquiet.trans hvfound.unreported.faultless
        exact ⟨hdone, hvfound.consume, hvcolumn, hquiet'⟩
      | cons e left =>
        obtain ⟨hkeyblanks, hkeyne, hkey, hvblanks, hleft⟩ := hleft
        obtain ⟨d₁, tail₁, htail₁, hd₁⟩ := hleft.starts hblanks hne hcfg (UChar.cbrc :: d :: rest)
        have hmem : e ∈ entries := by simp [hall]
        obtain ⟨htext, hnorm⟩ := hkeys e hmem
        have hnew : e.norm ∉ (done.map fun e => (e.norm, e.key, e.value)).map (·.1) := by
          rw [hall, List.map_append, List.map_cons, List.nodup_append] at hdistinct
          intro hin
          rw [List.map_map] at hin
          exact hdistinct.2.2 _ hin _ (List.mem_cons_self ..) rfl
        have hu' : Shows u.toBuffer 0 [] (e.keyBlanks
            ++ ((e.keyText ++ [UChar.colon]) ++ (e.blanks ++ (e.text ++ d₁ :: tail₁)))) := by
          rw [← htail₁]
          simpa [entriesText] using hu
        refine (ensures_parseTableEntry hcfg hv hkeyblanks hkeyne hkey htext hnorm hnew hvblanks
          (hread e hmem) hd₁ hk' hu').imp
          ?_ (fun _ _ he => he)
        rintro _ v ⟨rfl, hv, hvcolumn, hvquiet⟩
        exact ⟨done ++ [e], left, e.stop, by simp [hall], by simp, hleft, hvcolumn,
          hquiet.trans hvquiet, by rwa [htail₁]⟩
    · have ht : Shows t.consumeToken.toBuffer 0 []
          (entriesText entries ++ (blanks ++ (UChar.cbrc :: d :: rest))) := by
        rw [htail]
        exact hfound.consume
      exact ⟨[], entries, n + 1, rfl, rfl, hentries, hcolumn', faultless_consume t, ht⟩
    · rintro acc u ⟨rfl, hu, hcolumn₁, hquiet⟩
      exact ⟨rfl, hu, hcolumn₁, hquiet⟩

/-- The parser reads the text of a value as the value. -/
theorem Renders.readAs (h : Renders cfg n text value m) (htable : cfg.charClass = charClassV2 [] [])
    (hv : 2 ≤ cfg.cifVersion) : ReadAs cfg n text value m := by
  have hcfg : cfg.Standard := .inl htable
  induction h with
  | unk => exact readAs_unk hcfg
  | na => exact readAs_na hcfg
  | bare hbare hsemi htext => exact readAs_bare hcfg hv hbare hsemi htext
  | delimited h htext => exact h.readAs hcfg hv htext
  | block hbody htext hfits hdecode => exact readAs_block hcfg hbody htext hfits hdecode
  | list _ hparts hblanks hne ih => exact readAs_list htable ih hparts hblanks hne
  | table _ hkeys hdistinct hentries hblanks hne ih =>
    exact readAs_table htable hv ih hkeys hdistinct hentries hblanks hne

/-- A scanner between tokens can go on with the text that it shows. -/
theorem ready_of_shows (hv : 2 ≤ cfg.cifVersion) {rest : List UChar}
    (h : Shows s.toBuffer 0 [] rest) :
    Ready cfg (work cfg.cifVersion s.ttype s.toBuffer) s := by
  have hnext : s.nextChar = s.textStart := h.nextChar_eq
  have hno : ¬ s.textStart < s.nextChar := Nat.not_lt.mpr hnext.le
  refine ⟨⟨hnext.ge, fun hlt => absurd hlt hno, fun _ => h.sound.next_le,
    fun _ hlt => absurd hlt hno,
    fun _ hlt => absurd hlt hno, fun hlt => absurd hv (Int.not_le.mpr hlt)⟩, Nat.le_refl _⟩

/-- After blanks or a token that any may follow, and with white space after it, a value is read
whatever its layout, with no error reported. -/
theorem Renders.halts_parseValue (h : Renders cfg n text value m)
    (htable : cfg.charClass = charClassV2 [] []) (hv : 2 ≤ cfg.cifVersion)
    (hblanks : Blanks k blanks n) (hsep : blanks ≠ [] ∨ s.ttype.allowsAdjacent = true)
    (hcolumn : s.column ≤ k) (hd : EndsValue cfg d)
    (hs : Shows s.toBuffer 0 [] (blanks ++ (text ++ d :: rest))) :
    Halts (parseValue cfg) s (fun v t => v = value ∧ Shows t.toBuffer 0 [] (d :: rest)
      ∧ t.column ≤ m ∧ Faultless s t) (fun _ _ => False) := by
  have hreads : Ensures (parseValue cfg) s
      (fun v t => v = value ∧ Shows t.toBuffer 0 [] (d :: rest) ∧ t.column ≤ m
        ∧ Faultless s t) (fun _ _ => False) := by
    obtain ⟨j, hj⟩ : ∃ j, s.tokenBound = j + 1 := ⟨4 * (s.bufferLimit + s.unread) + 3, rfl⟩
    rw [Ensures, parseValue, post_fix, hj, unroll_succ, parseValueBody, post_bind]
    refine ((h.readAs htable hv) s k blanks d rest hblanks hsep hcolumn hd hs).imp ?_ (fun _ _ he =>
      he)
    rintro _ t ⟨hquiet, hbegins⟩
    -- with the token at hand, the parser goes on as if it had not looked for one
    have hread := hbegins.read (j + 1)
    rw [Ensures, unroll_succ, parseValueBody, post_bind, Post,
      nextToken_of_pending hbegins.pending] at hread
    refine Post.imp hread ?_ (fun _ _ he => he)
    rintro v u ⟨hvalue, hu, hucolumn, huquiet⟩
    exact ⟨hvalue, hu, hucolumn, hquiet.trans huquiet⟩
  refine (hreads.and (returns_parseValue (legal_of_two_le hv) (ready_of_shows hv hs))).imp
    (fun _ _ hq => hq.1) (fun _ _ he => he.1)

end Reading

end CifApi
