import CifApi.Data.Keyed
import CifApi.Writer.OutputStrings

/-! That what is written of a value is read as it, but for what quotes and numbers have become. -/
namespace CifApi.Output

open Exec Buffer

variable {σ : Type}

/-- What `write_char` finds out about a string. -/
abbrev analysisOf (text : UStr) (quoted : Bool) : StringAnalysis :=
  analyzeString text (!quoted) true lineLength

mutual

/-- What is read where a value has been written: a number is only text, and a string has quotes
unless it needs none. -/
def asRead : Value → Value
  | .char text quoted => .char text (quoted || (analysisOf text false).delimLength ≠ 0)
  | .numb number quoted => .char number.text quoted
  | .list elements => .list (asReadElements elements)
  | .table entries => .table (asReadEntries entries)
  | .na => .na
  | .unk => .unk

def asReadElements : List Value → List Value
  | [] => []
  | element :: elements => asRead element :: asReadElements elements

def asReadEntries : List (UStr × UStr × Value) → List (UStr × UStr × Value)
  | [] => []
  | (norm, key, value) :: entries => (norm, key, asRead value) :: asReadEntries entries

end

/-- A string that is not changed and in no line too long by the manner in which it is written. -/
structure LegibleText (cfg : Config σ) (text : UStr) (a : StringAnalysis) : Prop where
  allowed : isCifText cfg.cifVersion text = true
  triple : a.delimLength = 3 → fits 0 text = true
  block : a.delimLength = 2 → ∀ content,
    writeContent a.folds a.containsTextDelim text = .ok content →
    fits 1 (content ++ [UChar.nl]) = true
  /-- A text in a block that is folded or prefixed loses a line feed at its end. -/
  last : a.delimLength = 2 → a.folds = true ∨ a.containsTextDelim = true →
    text.getLast? ≠ some UChar.nl
  /-- A block that is folded but not prefixed would end before a semicolon at the start of its
  text. -/
  head : a.delimLength = 2 → a.folds = true → a.containsTextDelim = false →
    text.head? ≠ some UChar.semi

/-- A value all of whose strings are written so, whose numbers are on one line, and whose keys are
as the library has them. -/
inductive Legible (cfg : Config σ) : Value → Prop
  | char {text : UStr} {quoted : Bool} (h : LegibleText cfg text (analysisOf text quoted)) :
    Legible cfg (.char text quoted)
  | numb {number : Numb} {t : NumbText} (ht : t.text = number.text) (hlimit : number.text.length
    ≤ lineLength) :
    Legible cfg (.numb number false)
  | quotedNumb {number : Numb} (h : LegibleText cfg number.text (analysisOf number.text true)) :
    Legible cfg (.numb number true)
  | list {elements : List Value} (h : ∀ e ∈ elements, Legible cfg e) : Legible cfg (.list elements)
  | table {entries : List (UStr × UStr × Value)} (h : ∀ e ∈ entries, Legible cfg e.2.2)
    (hkeys : ∀ e ∈ entries, LegibleText cfg e.2.1 (analysisOf e.2.1 true)
      ∧ cfg.icu.normalizeTableIndex e.2.1 Code.invalidIndex = .ok e.1)
    (hdistinct : Keyed Prod.fst entries) : Legible cfg (.table entries)
  | na : Legible cfg .na
  | unk : Legible cfg .unk

section Definitions

variable {icu : Icu} {entries : List (UStr × UStr × Value)}

theorem asReadElements_eq (elements : List Value) :
    asReadElements elements = elements.map asRead := by
  induction elements with
  | nil => rfl
  | cons element elements ih => rw [asReadElements, ih, List.map_cons]

theorem asReadEntries_eq (entries : List (UStr × UStr × Value)) :
    asReadEntries entries = entries.map fun e => (e.1, e.2.1, asRead e.2.2) := by
  induction entries with
  | nil => rfl
  | cons e entries ih =>
    obtain ⟨norm, key, value⟩ := e
    rw [asReadEntries, ih, List.map_cons]

theorem elementWriters_eq (elements : List Value) :
    elementWriters icu elements = elements.map fun e => writeItem icu none e := by
  induction elements with
  | nil => rfl
  | cons element elements ih =>
    rw [elementWriters, ih, List.map_cons]
    rfl

theorem entryWriters_eq (entries : List (UStr × UStr × Value)) :
    entryWriters icu entries = entries.map fun e => (e.1, e.2.1, writeItem icu none e.2.2) := by
  induction entries with
  | nil => rfl
  | cons e entries ih =>
    obtain ⟨norm, key, value⟩ := e
    rw [entryWriters, ih, List.map_cons]
    rfl

/-- The entry with a key is the one that has been given it. -/
theorem findEntry_eq (hdistinct : Keyed Prod.fst entries) {e : UStr × UStr × Value}
    (he : e ∈ entries) (hnorm : icu.normalizeTableIndex e.2.1 Code.invalidIndex = .ok e.1) :
    findEntry icu (entryWriters icu entries) e.2.1 = some (writeItem icu none e.2.2) := by
  have hnorm' : icu.normalizeTableIndex e.2.1 Code.nosuchItem = .ok e.1 := by
    unfold Icu.normalizeTableIndex at hnorm ⊢
    split at hnorm
    · exact absurd hnorm (by simp)
    · rename_i hallowed
      rwa [if_neg hallowed]
  have hfind : entries.find? ((fun x => decide (x.1 = e.1)) ∘ fun e =>
      (e.1, e.2.1, writeItem icu none e.2.2)) = some e :=
    hdistinct.find?_eq he fun r _ => by simp
  rw [findEntry, hnorm']
  dsimp only
  rw [entryWriters_eq, List.find?_map, hfind]
  rfl

/-- A string that is to have quotes gets some. -/
theorem delimLength_quoted (text : UStr) : (analysisOf text true).delimLength ≠ 0 := by
  cases hquote : quoteDelimiter? text (!true) true lineLength (LineStats.ofString text) with
  | none =>
    rw [analysisOf, StringAnalysis.delimLength, analyzeString, hquote]
    exact Nat.succ_ne_zero 1
  | some delim =>
    rw [analysisOf, StringAnalysis.delimLength, analyzeString, hquote]
    show delim.length ≠ 0
    unfold quoteDelimiter? at hquote
    split at hquote
    · split at hquote
      · rw [Bool.not_true, Bool.false_and, if_neg (by simp)] at hquote
        split at hquote
        · rw [← Option.some.inj hquote]
          decide
        · split at hquote
          · rw [← Option.some.inj hquote]
            decide
          · split at hquote
            · rw [(length_tripleDelimiter? hquote).1]
              decide
            · simp at hquote
      · split at hquote
        · rw [(length_tripleDelimiter? hquote).1]
          decide
        · simp at hquote
    · simp at hquote

end Definitions

section Values

variable {cfg : Config σ} {c : Context} {n : Nat} {w : Write Unit} {value : Value}
  {name : Option UStr}

/-- Where a writer does not fail it has written blanks and after them the value. -/
def Emits (cfg : Config σ) (w : Write Unit) (value : Value) : Prop :=
  ∀ (n : Nat) (c : Context), At n c → c.version ≠ 1 → c.writeItemNames = false →
    Writes w c fun _ c' => Spaced n (fun m text k => Renders cfg m text value k) c c'

/-- A value in the output, and the blanks before it unless nothing is to separate it. -/
def Separates (cfg : Config σ) (n : Nat) (value : Value) (c c' : Context) : Prop :=
  ∃ blanks m text k, Blanks n blanks m ∧ Renders cfg m text value k ∧ Appended (blanks ++ text) c c'
    ∧ At k c'
    ∧ 0 < c'.lastColumn ∧ (c.separateValues = true → 0 < c.lastColumn → blanks ≠ [])

theorem writes_startItem (hat : At n c) (hnames : c.writeItemNames = false) :
    Writes (startItem name) c fun _ c' => ∃ blanks m, Blanks n blanks m ∧ Appended blanks c c'
      ∧ At m c'
      ∧ (c.separateValues = true → 0 < c.lastColumn → blanks ≠ []) := by
  rw [Writes, Ensures, startItem, post_bind, post_read, post_bind, post_when]
  refine ⟨fun hwrite => absurd hwrite (by simp [hnames]), fun _ => ?_⟩
  rw [post_bind, post_read, post_when]
  refine ⟨fun _ => ?_, fun hno => ⟨[], n, .nil n, .refl c, hat, fun hseparate =>
    absurd hseparate hno⟩⟩
  rw [post_bind]
  refine (writes_ensureSpaced hat).imp ?_ (fun _ _ he => he)
  intro spaced c₁ hspaced
  rw [post_when]
  refine ⟨fun _ => trivial, fun htrue => ?_⟩
  obtain ⟨blanks, m, hblanks, happend, hat', hne⟩ := hspaced (by simpa using htrue)
  exact ⟨blanks, m, hblanks, happend, hat', fun _ => hne⟩

theorem Emits.writeItem (h : Emits cfg w value) (hat : At n c) (hversion : c.version ≠ 1)
    (hnames : c.writeItemNames = false) :
    Writes (do startItem name; w) c fun _ c' => Separates cfg n value c c' := by
  rw [Writes, Ensures, post_bind]
  refine (writes_startItem hat hnames).imp ?_ (fun _ _ he => he)
  rintro _ c₁ ⟨blanks, m, hblanks, happend, hat₁, hne⟩
  refine (h m c₁ hat₁ (by rwa [happend.version]) (by rw [happend.writeItemNames, hnames])).imp ?_
    (fun _ _ he => he)
  rintro _ c' ⟨more, m', text, k, hmore, hrenders, happend', hat', hstarted⟩
  refine ⟨blanks ++ more, m', text, k, hblanks.append hmore, hrenders, ?_, hat', hstarted,
    fun hseparate hpos => ?_⟩
  · rw [List.append_assoc]
    exact happend.trans happend'
  · simp [hne hseparate hpos]

theorem emits_char {text : UStr} {quoted : Bool} (hcfg : cfg.Standard) (hu : 0 < cfg.lineUnfolding)
    (hp : 0 < cfg.prefixRemoving) (h : LegibleText cfg text (analysisOf text quoted)) :
    Emits cfg (writeChar text quoted true)
      (.char text (quoted || (analysisOf text false).delimLength ≠ 0)) := by
  intro n c hat hversion _
  have hquoted : (analysisOf text quoted).delimLength ≠ 0 →
      (quoted || (analysisOf text false).delimLength ≠ 0) = true := by
    cases quoted <;> simp
  have hbare : (analysisOf text quoted).delimLength = 0 →
      (quoted || (analysisOf text false).delimLength ≠ 0) = false := by
    intro hzero
    cases quoted with
    | false => simp [hzero]
    | true => exact absurd hzero (delimLength_quoted text)
  refine writes_writeChar hversion hat h.allowed rfl h.triple ?_ ?_ ?_
  · intro hzero m
    have hcr := cr_notMem_of_isCifTextFrom h.allowed
    have hrecommended :=
      @recommended_of_delimLength text (!quoted) true lineLength hcr (by rw [hzero]; decide)
    have hdelim : (analysisOf text quoted).delim = [] := List.eq_nil_of_length_eq_zero hzero
    rw [hdelim] at hrecommended
    cases hrecommended with
    | unquoted hline hplain =>
      obtain ⟨hbare', hsemi⟩ := bare_of_canBeUnquoted hcr hline hplain
      rw [hbare hzero]
      exact .bare hbare' hsemi h.allowed
  · intro hne m raw k hdelimited
    rw [hquoted hne]
    exact .delimited hdelimited h.allowed
  · intro _ htwo content hcontent
    obtain ⟨hbody, hdecode⟩ :=
      writeContent_block hcfg hu hp h.allowed rfl htwo (h.last htwo) (h.head htwo) hcontent
    rw [hquoted (by rw [htwo]; decide)]
    exact .block hbody (isCifText_writeContent h.allowed hcontent) (h.block htwo content hcontent)
      hdecode

theorem emits_numb {number : Numb} {t : NumbText} (ht : t.text = number.text)
    (hlimit : number.text.length ≤ lineLength) :
    Emits cfg (writeNumb number false) (.char number.text false) := by
  intro n c hat _ _
  refine (writes_writeNumb ht hlimit hat).imp ?_ (fun _ _ he => he)
  intro _ c' hwrote
  obtain ⟨u, rest, htext, hlow, hhigh⟩ := head_numbText t
  have hne : number.text ≠ [] := by
    rw [← ht, htext]
    simp
  have hsemi : number.text.head? ≠ some UChar.semi := by
    rw [← ht, htext]
    intro heq
    rw [Option.some.inj heq] at hhigh
    exact absurd hhigh (by decide)
  refine hwrote.spaced hat hne fun m => .bare ?_ hsemi ?_
  · exact ht ▸ bare_numbText t
  · exact ht ▸ isCifText_numbText t

theorem emits_placeholder {u : UChar} (hrenders : ∀ m, Renders cfg m [u] value (m + 1)) :
    Emits cfg (writePlaceholder u) value := by
  intro n c hat _ _
  rw [Writes, Ensures, writePlaceholder, writeLiteral, post_bind]
  refine (writes_writeUliteral (by simp) (by show 1 ≤ lineLength; decide) hat).imp ?_ (fun _ _ he =>
    he)
  rintro r c' (⟨_, hwrap, _⟩ | ⟨rfl, hwrote⟩)
  · simp at hwrap
  · rw [if_pos (by simp)]
    exact hwrote.spaced hat (by simp) hrenders

end Values

section Lists

variable {cfg : Config σ} {c : Context} {n : Nat} {elements : List Value}

/-- The elements of a list are written one after the other, with blanks before each. -/
theorem writes_writeElements (h : ∀ e ∈ elements, Emits cfg (writeValue cfg.icu e) (asRead e))
    (hat : At n c) (hversion : c.version ≠ 1) (hnames : c.writeItemNames = false)
    (hseparate : c.separateValues = true) (hstarted : 0 < c.lastColumn) :
    Writes (writeElements (elements.map fun e => writeItem cfg.icu none e)) c fun _ c' => ∃ parts k,
      parts.map (·.value) = elements.map asRead
        ∧ (∀ p ∈ parts, Renders cfg p.start p.text p.value p.stop)
        ∧ Separated n parts k ∧ Appended (partsText parts) c c' ∧ At k c' := by
  induction elements generalizing n c with
  | nil => exact ⟨[], n, rfl, by simp, rfl, .refl c, hat⟩
  | cons e elements ih =>
    rw [List.forall_mem_cons] at h
    rw [List.map_cons, writeElements, Writes, Ensures, post_bind, writeItem]
    refine (h.1.writeItem hat hversion hnames).imp ?_ (fun _ _ he => he)
    rintro _ c₁ ⟨blanks, m, text, k, hblanks, hrenders, happend, hat₁, hstarted₁, hne⟩
    refine (ih h.2 hat₁ (by rwa [happend.version]) (by rw [happend.writeItemNames, hnames])
      (by rw [happend.separateValues, hseparate]) hstarted₁).imp ?_ (fun _ _ he => he)
    rintro _ c' ⟨parts, k', hvalues, hparts, hseparated, happend', hat'⟩
    refine ⟨⟨blanks, m, text, k, asRead e⟩ :: parts, k', by simp [hvalues],
      List.forall_mem_cons.mpr ⟨hrenders, hparts⟩,
      ⟨hblanks, hne hseparate hstarted, hseparated⟩, ?_, hat'⟩
    exact happend.trans happend'

/-- A closing bracket, with blanks before it. -/
theorem writes_closing (u : UChar) (hat : At n c) :
    Writes (writeLiteral [UChar.sp, u] true) c fun r c' => r = 2 →
    ∃ blanks m, Blanks n blanks m ∧ blanks ≠ [] ∧ Appended (blanks ++ [u]) c c' ∧ At (m + 1) c'
      ∧ 0 < c'.lastColumn := by
  rw [writeLiteral]
  refine (writes_writeUliteral (by simp) (by show 2 ≤ lineLength; decide) hat).imp ?_ (fun _ _ he =>
    he)
  rintro r c' (⟨_, hwrap, _⟩ | ⟨rfl, hwrote⟩) _
  · simp at hwrap
  · obtain ⟨blanks, m, hblanks, happend, hat'⟩ := hwrote.blanks hat
    have hcolumn := hat'.column
    refine ⟨blanks ++ [UChar.sp], m + 1, hblanks.append (.space (.nil _)), by simp, ?_, hat', ?_⟩
    · simpa using happend
    · exact Nat.lt_of_lt_of_le (Nat.succ_pos _) hcolumn

theorem emits_list (h : ∀ e ∈ elements, Emits cfg (writeValue cfg.icu e) (asRead e)) :
    Emits cfg (writeCompound (writeList (elementWriters cfg.icu elements)))
      (.list (elements.map asRead)) := by
  intro n c hat hversion hnames
  rw [Writes, Ensures, writeCompound, post_bind, post_read, if_neg hversion, writeList, post_bind,
    writeLiteral]
  refine (writes_writeUliteral (by simp) (by show 1 ≤ lineLength; decide) hat).imp ?_ (fun _ _ he =>
    he)
  rintro r c₁ (⟨_, hwrap, _⟩ | ⟨rfl, hwrote⟩)
  · simp at hwrap
  obtain ⟨blanks, m, hblanks, happend, hat₁⟩ := hwrote.blanks hat
  rw [if_pos (by rfl), post_bind, post_read, post_bind, post_modify, post_bind, elementWriters_eq]
  have hat₂ : At (m + 1) ((c₁.setWriteItemNames false).setSeparateValues true) :=
    ⟨hat₁.column, hat₁.limit⟩
  refine (writes_writeElements h hat₂ (by show c₁.version ≠ 1; rwa [happend.version]) rfl rfl
    (Nat.lt_of_lt_of_le (Nat.succ_pos m) hat₁.column)).imp ?_ (fun _ _ he => he)
  rintro _ c₃ ⟨parts, k, hvalues, hparts, hseparated, happend₃, hat₃⟩
  rw [post_bind]
  refine (writes_closing UChar.cbrk hat₃).imp ?_ (fun _ _ he => he)
  intro r c₄ hclosing
  split
  · rename_i htwo
    obtain ⟨more, m', hmore, hne, happend₄, hat₄, hstarted⟩ := hclosing htwo
    rw [post_modify]
    refine ⟨blanks, m, UChar.obrk :: (partsText parts ++ (more ++ [UChar.cbrk])), m' + 1, hblanks,
      ?_, ⟨⟨?_, ?_, ?_⟩, ?_⟩, ⟨hat₄.column, hat₄.limit⟩, hstarted⟩
    · rw [← hvalues]
      exact .list hparts hseparated hmore hne
    · show c₄.out = _
      rw [happend₄.out, happend₃.out]
      show c₁.out ++ _ ++ _ = _
      rw [happend.out]
      simp
    · show c₄.version = _
      rw [happend₄.version, happend₃.version]
      exact happend.version
    · exact happend.writeItemNames
    · exact happend.separateValues
  · trivial

end Lists

section Tables

variable {cfg : Config σ} {c : Context} {n : Nat} {entries : List (UStr × UStr × Value)}

/-- A table key is between quotes, or it is not written. -/
theorem writes_key {key : UStr} (h : LegibleText cfg key (analysisOf key true)) (hat : At n c)
    (hversion : c.version ≠ 1) :
    Writes (writeChar key true false) c fun _ c' => Spaced n (Delimited key) c c' :=
  writes_writeChar hversion hat h.allowed rfl h.triple (fun hzero =>
    absurd hzero (delimLength_quoted key))
    (fun _ _ _ _ hdelimited => hdelimited) fun hallow => absurd hallow (by simp)

/-- An entry is written as its key in quotes, a colon and its value, with blanks before the key. -/
theorem writes_writeEntry {e : UStr × UStr × Value} (he : e ∈ entries)
    (hdistinct : Keyed Prod.fst entries) (hkey : LegibleText cfg e.2.1 (analysisOf e.2.1 true))
    (hnorm : cfg.icu.normalizeTableIndex e.2.1 Code.invalidIndex = .ok e.1)
    (hvalue : Emits cfg (writeValue cfg.icu e.2.2) (asRead e.2.2)) (hat : At n c)
    (hversion : c.version ≠ 1)
    (hnames : c.writeItemNames = false) (hstarted : 0 < c.lastColumn) :
    Writes (writeEntry cfg.icu (entryWriters cfg.icu entries) e.2.1) c fun _ c' =>
      ∃ part : EntryPart,
      (part.norm, part.key, part.value) = (e.1, e.2.1, asRead e.2.2)
        ∧ Renders cfg part.start part.text part.value part.stop
        ∧ SeparatedEntries n [part] part.stop ∧ Grown (entriesText [part]) c c' ∧ At part.stop c'
        ∧ 0 < c'.lastColumn := by
  have hafter : ∀ (blanks₀ : UStr) (m₀ : Nat) (c₀ : Context), Blanks n blanks₀ m₀ →
      (blanks₀ ≠ [] ∨ 0 < c₀.lastColumn) → Appended blanks₀ c c₀ → At m₀ c₀ → Writes (do
        modify (·.setSeparateValues false)
        let spaced ← ensureSpaced
        if spaced then do
          writeChar e.2.1 true false
          let nchars ← writeLiteral [UChar.colon] false
          if nchars = 1 then writeItem cfg.icu none e.2.2 else stop Code.error
        else stop Code.error) c₀ fun _ c' => ∃ part : EntryPart,
      (part.norm, part.key, part.value) = (e.1, e.2.1, asRead e.2.2)
        ∧ Renders cfg part.start part.text part.value part.stop
        ∧ SeparatedEntries n [part] part.stop ∧ Grown (entriesText [part]) c c' ∧ At part.stop c'
          ∧ 0 < c'.lastColumn := by
    intro blanks₀ m₀ c₀ hblanks₀ hsep happend₀ hat₀
    rw [Writes, Ensures, post_bind, post_modify, post_bind]
    have hat₁ : At m₀ (c₀.setSeparateValues false) := ⟨hat₀.column, hat₀.limit⟩
    refine (writes_ensureSpaced hat₁).imp ?_ (fun _ _ he => he)
    intro spaced c₁ hspaced
    split
    · rename_i htrue
      obtain ⟨blanks₁, m₁, hblanks₁, happend₁, hat₁, hne₁⟩ := hspaced htrue
      have hversion₁ : c₁.version ≠ 1 := by
        rw [happend₁.version]
        show c₀.version ≠ 1
        rwa [happend₀.version]
      rw [post_bind]
      refine (writes_key hkey hat₁ hversion₁).imp ?_ (fun _ _ he => he)
      rintro _ c₂ ⟨blanks₂, m₂, keyText, k₂, hblanks₂, hdelimited, happend₂, hat₂, _⟩
      rw [post_bind, writeLiteral]
      refine (writes_writeUliteral (by simp) (by show 1 ≤ lineLength; decide) hat₂).imp ?_
        (fun _ _ he => he)
      rintro r c₃ (⟨rfl, _, rfl⟩ | ⟨rfl, hwrote⟩)
      · rw [if_neg (by decide)]
        trivial
      cases hwrote with
      | nextLine hwrap _ _ => exact absurd hwrap (by simp)
      | sameLine happend₃ hat₃ =>
        have hgrown := happend₀.toGrown.trans ((grown_setSeparateValues false c₀).trans
          (happend₁.toGrown.trans (happend₂.toGrown.trans happend₃.toGrown)))
        rw [if_pos (by rfl), writeItem]
        refine (hvalue.writeItem hat₃ (by rwa [hgrown.version])
          (by rw [hgrown.writeItemNames, hnames])).imp ?_ (fun _ _ he => he)
        rintro _ c' ⟨blanks, m, text, k, hblanks, hrenders, happend, hat', hstarted', _⟩
        have hne : blanks₀ ++ (blanks₁ ++ blanks₂) ≠ [] := by
          rcases hsep with hsep | hsep
          · simp [hsep]
          · simp [hne₁ hsep]
        refine ⟨⟨⟨blanks, m, text, k, asRead e.2.2⟩, blanks₀ ++ (blanks₁ ++ blanks₂), m₂, keyText,
          k₂, e.2.1, e.1⟩, rfl, hrenders,
          ⟨hblanks₀.append (hblanks₁.append hblanks₂), hne, hdelimited, hblanks, rfl⟩, ?_, hat',
          hstarted'⟩
        have hwhole := hgrown.trans happend.toGrown
        simpa [entriesText] using hwhole
    · trivial
  rw [writeEntry, findEntry_eq hdistinct he hnorm]
  dsimp only
  rw [Writes, Ensures, post_bind, post_read, post_bind, post_when]
  refine ⟨fun _ => ?_, fun _ => ?_⟩
  · rw [writeNewline, put, post_modify]
    exact hafter [UChar.nl] 0 _ (.newline hat.limit (.nil 0)) (.inl (by simp)) (appended_put _ _ c)
      ⟨Nat.le_refl 0, Nat.zero_le _⟩
  · exact hafter [] n c (.nil n) (.inr hstarted) (.refl c) hat

/-- The entries of a table are written one after the other. -/
theorem writes_writeEntries {left : List (UStr × UStr × Value)} (hleft : ∀ e ∈ left, e ∈ entries)
    (hdistinct : Keyed Prod.fst entries)
    (hkeys : ∀ e ∈ entries, LegibleText cfg e.2.1 (analysisOf e.2.1 true)
      ∧ cfg.icu.normalizeTableIndex e.2.1 Code.invalidIndex = .ok e.1)
    (hvalues : ∀ e ∈ entries, Emits cfg (writeValue cfg.icu e.2.2) (asRead e.2.2)) (hat : At n c)
    (hversion : c.version ≠ 1) (hnames : c.writeItemNames = false) (hstarted : 0 < c.lastColumn) :
    Writes (writeEntries cfg.icu (entryWriters cfg.icu entries) (left.map (·.2.1))) c fun _ c' =>
      ∃ parts k,
      parts.map (fun p => (p.norm, p.key, p.value)) = left.map (fun e => (e.1, e.2.1, asRead e.2.2))
        ∧ (∀ p ∈ parts, Renders cfg p.start p.text p.value p.stop) ∧ SeparatedEntries n parts k
        ∧ Grown (entriesText parts) c c' ∧ At k c' := by
  induction left generalizing n c with
  | nil => exact ⟨[], n, rfl, by simp, rfl, .refl c, hat⟩
  | cons e left ih =>
    rw [List.forall_mem_cons] at hleft
    obtain ⟨hkey, hnorm⟩ := hkeys e hleft.1
    rw [List.map_cons, writeEntries, Writes, Ensures, post_bind]
    refine (writes_writeEntry hleft.1 hdistinct hkey hnorm (hvalues e hleft.1) hat hversion hnames
      hstarted).imp ?_ (fun _ _ he => he)
    rintro _ c₁ ⟨part, heq, hrenders, ⟨hkeyBlanks, hne, hdelimited, hblanks, _⟩, hgrown, hat₁,
      hstarted₁⟩
    refine (ih hleft.2 hat₁ (by rwa [hgrown.version]) (by rw [hgrown.writeItemNames, hnames])
      hstarted₁).imp ?_ (fun _ _ he => he)
    rintro _ c' ⟨parts, k, hparts, hall, hseparated, hgrown', hat'⟩
    refine ⟨part :: parts, k, by simp [heq, hparts], List.forall_mem_cons.mpr ⟨hrenders, hall⟩,
      ⟨hkeyBlanks, hne, hdelimited, hblanks, hseparated⟩, ?_, hat'⟩
    have hwhole := hgrown.trans hgrown'
    simpa [entriesText] using hwhole

theorem emits_table (hdistinct : Keyed Prod.fst entries)
    (hkeys : ∀ e ∈ entries, LegibleText cfg e.2.1 (analysisOf e.2.1 true)
      ∧ cfg.icu.normalizeTableIndex e.2.1 Code.invalidIndex = .ok e.1)
    (hvalues : ∀ e ∈ entries, Emits cfg (writeValue cfg.icu e.2.2) (asRead e.2.2)) :
    Emits cfg (writeCompound (writeTable cfg.icu (entryWriters cfg.icu entries)))
      (.table (entries.map fun e => (e.1, e.2.1, asRead e.2.2))) := by
  intro n c hat hversion hnames
  have hkeyList : (entryWriters cfg.icu entries).map (·.2.1) = entries.map (·.2.1) := by
    rw [entryWriters_eq, List.map_map]
    rfl
  rw [Writes, Ensures, writeCompound, post_bind, post_read, if_neg hversion, writeTable, post_bind,
    post_read, post_bind, writeLiteral]
  refine (writes_writeUliteral (by simp) (by show 1 ≤ lineLength; decide) hat).imp ?_ (fun _ _ he =>
    he)
  rintro r c₁ (⟨rfl, _, rfl⟩ | ⟨rfl, hwrote⟩)
  · rw [if_neg (by decide)]
    trivial
  obtain ⟨blanks, m, hblanks, happend, hat₁⟩ := hwrote.blanks hat
  rw [if_pos (by rfl), post_bind, post_modify, post_bind, hkeyList]
  have hat₂ : At (m + 1) (c₁.setWriteItemNames false) := ⟨hat₁.column, hat₁.limit⟩
  refine (writes_writeEntries (fun _ he =>
    he) hdistinct hkeys hvalues hat₂ (by show c₁.version ≠ 1; rwa [happend.version]) rfl
    (Nat.lt_of_lt_of_le (Nat.succ_pos m) hat₁.column)).imp ?_ (fun _ _ he => he)
  rintro _ c₃ ⟨parts, k, heq, hparts, hseparated, hgrown₃, hat₃⟩
  rw [post_bind]
  refine (writes_closing UChar.cbrc hat₃).imp ?_ (fun _ _ he => he)
  intro r c₄ hclosing
  split
  · rename_i htwo
    obtain ⟨more, m', hmore, hne, happend₄, hat₄, hstarted⟩ := hclosing htwo
    have hkeysOf : ∀ p ∈ parts, isCifText cfg.cifVersion p.key = true
        ∧ cfg.icu.normalizeTableIndex p.key Code.invalidIndex = .ok p.norm := by
      intro p hp
      have hmem : (p.norm, p.key, p.value) ∈ entries.map fun e => (e.1, e.2.1, asRead e.2.2) :=
        heq ▸ List.mem_map.mpr ⟨p, hp, rfl⟩
      obtain ⟨e, he, hsame⟩ := List.mem_map.mp hmem
      simp only [Prod.mk.injEq] at hsame
      obtain ⟨hlegible, hnorm⟩ := hkeys e he
      rw [← hsame.1, ← hsame.2.1]
      exact ⟨hlegible.allowed, hnorm⟩
    have hnorms : parts.map (·.norm) = entries.map Prod.fst := by
      have hfirst := congrArg (List.map Prod.fst) heq
      rw [List.map_map, List.map_map] at hfirst
      exact hfirst
    rw [post_modify]
    refine ⟨blanks, m, UChar.obrc :: (entriesText parts ++ (more ++ [UChar.cbrc])), m' + 1, hblanks,
      ?_, ⟨⟨?_, ?_, ?_⟩, ?_⟩, ⟨hat₄.column, hat₄.limit⟩, hstarted⟩
    · rw [← heq]
      exact .table hparts hkeysOf (by rw [hnorms]; exact hdistinct) hseparated hmore hne
    · show c₄.out = _
      rw [happend₄.out, hgrown₃.out]
      show c₁.out ++ _ ++ _ = _
      rw [happend.out]
      simp
    · show c₄.version = _
      rw [happend₄.version, hgrown₃.version]
      exact happend.version
    · rfl
    · rfl
  · trivial

end Tables

section RoundTrip

variable {cfg : Config σ} {value : Value}

/-- A legible value is written as text of the value that is read for it. -/
theorem emits_writeValue (h : Legible cfg value) (hcfg : cfg.Standard) (hu : 0 < cfg.lineUnfolding)
    (hp : 0 < cfg.prefixRemoving) :
    Emits cfg (writeValue cfg.icu value) (asRead value) := by
  induction h with
  | char h =>
    rw [writeValue, asRead]
    exact emits_char hcfg hu hp h
  | numb ht hlimit =>
    rw [writeValue, asRead]
    exact emits_numb ht hlimit
  | quotedNumb h =>
    rw [writeValue, asRead, writeNumb, if_pos rfl]
    exact emits_char hcfg hu hp h
  | list _ ih =>
    rw [writeValue, asRead, asReadElements_eq]
    exact emits_list ih
  | table _ hkeys hdistinct ih =>
    rw [writeValue, asRead, asReadEntries_eq]
    exact emits_table hdistinct hkeys ih
  | na =>
    rw [writeValue, asRead]
    exact emits_placeholder fun _ => .na
  | unk =>
    rw [writeValue, asRead]
    exact emits_placeholder fun _ => .unk

/-- What has been written of a value is read as the value with no error reported, where white space
follows it, and it is separated from what is before it unless any token may follow that. -/
theorem parseValue_writeItem (h : Legible cfg value) (htable : cfg.charClass = charClassV2 [] [])
    (hv : 2 ≤ cfg.cifVersion) (hu : 0 < cfg.lineUnfolding) (hp : 0 < cfg.prefixRemoving)
    {name : Option UStr} {c c' : Context} (hversion : c.version ≠ 1)
    (hnames : c.writeItemNames = false)
    (hwritten : writeItem cfg.icu name value c = some (.ok ⟨⟩, c')) :
    ∃ text, c'.out = c.out ++ text ∧ ∀ (s : Scanner σ) (d : UChar) (rest : List UChar),
      At s.column c →
      (c.separateValues = true ∧ 0 < c.lastColumn) ∨ s.ttype.allowsAdjacent = true →
        EndsValue cfg d →
      Shows s.toBuffer 0 [] (text ++ d :: rest) → Halts (parseValue cfg) s
        (fun v t => v = asRead value ∧ Shows t.toBuffer 0 [] (d :: rest) ∧ At t.column c'
          ∧ Faultless s t) (fun _ _ => False) := by
  have hwrites : ∀ n, At n c → Separates cfg n (asRead value) c c' := by
    intro n hat
    exact ((emits_writeValue h (.inl htable) hu hp).writeItem hat hversion hnames).of_ok hwritten
  obtain ⟨blanks, m, text, k, _, _, happend, _⟩ := hwrites 0 ⟨Nat.zero_le _, Nat.zero_le _⟩
  refine ⟨blanks ++ text, happend.out, fun s d rest hat hsep hd hs => ?_⟩
  obtain ⟨blanks', m', text', k', hblanks, hrenders, happend', hat', _, hne⟩ := hwrites s.column hat
  have hsame : blanks' ++ text' = blanks ++ text :=
    List.append_cancel_left (happend'.out.symm.trans happend.out)
  rw [← hsame, List.append_assoc] at hs
  have hbefore : blanks' ≠ [] ∨ s.ttype.allowsAdjacent = true := by
    rcases hsep with ⟨hseparate, hstarted⟩ | hadjacent
    · exact .inl (hne hseparate hstarted)
    · exact .inr hadjacent
  refine (hrenders.halts_parseValue htable hv hblanks hbefore (Nat.le_refl _) hd hs).imp ?_
    (fun _ _ he => he)
  rintro v t ⟨hvalue, ht, hcolumn, hquiet⟩
  exact ⟨hvalue, ht, ⟨hcolumn.trans hat'.column, hcolumn.trans hat'.limit⟩, hquiet⟩

/-- The text of a number. -/
def onePointFive : NumbText where
  sign := none
  whole := units "1"
  fraction := some (units "5")
  exponent := none
  su := none
  sign_eq := by simp [IsSign]
  whole_eq := by decide
  fraction_eq := by simp; decide
  digits_ne := by decide
  su_eq := by simp

/-- Both kinds of triple quotes, on two lines. -/
abbrev tripleQuotes : UStr := units "'''\n\"\"\"'"

/-- A list with a string, a number, a table and a text. -/
abbrev sampleList : Value :=
  .list [.char (units "a b") false, .numb ⟨units "1.5", 1, units "15", none, 1⟩ false,
  .table [(units "k", units "k", .unk)], .char tripleQuotes true]

theorem legibleText_of_delimLength {cfg : Config σ} {text : UStr} {a : StringAnalysis}
    (h : isCifText cfg.cifVersion text = true) (hone : a.delimLength = 1) :
    LegibleText cfg text a := by
  have hno : ∀ {n : Nat}, n ≠ 1 → a.delimLength ≠ n := fun hn heq => hn (heq.symm.trans hone)
  exact ⟨h, fun h3 => absurd h3 (hno (by decide)), fun h2 => absurd h2 (hno (by decide)),
    fun h2 => absurd h2 (hno (by decide)), fun h2 => absurd h2 (hno (by decide))⟩

theorem legible_sampleList :
    Legible (Config.initV2 (Options.create .dying .ascii .exact 2) : Config Unit) sampleList := by
  have htext : LegibleText (Config.initV2 (Options.create .dying .ascii .exact 2) : Config Unit)
      tripleQuotes (analysisOf tripleQuotes true) := by
    refine ⟨by decide +kernel, by decide +kernel, fun _ content hcontent => ?_, by decide +kernel,
      by decide +kernel⟩
    have hraw : writeContent (analysisOf tripleQuotes true).folds
        (analysisOf tripleQuotes true).containsTextDelim tripleQuotes
        = .ok tripleQuotes := by decide +kernel
    obtain rfl := Except.ok.inj (hraw.symm.trans hcontent)
    decide +kernel
  refine .list fun e he => ?_
  simp only [List.mem_cons, List.not_mem_nil, or_false] at he
  rcases he with rfl | rfl | rfl | rfl
  · exact .char (legibleText_of_delimLength (by decide +kernel) (by decide +kernel))
  · exact .numb (show onePointFive.text = units "1.5" by decide) (by decide)
  · refine .table (fun e he => ?_) (fun e he => ?_) (List.nodup_singleton _)
    · obtain rfl := List.mem_singleton.mp he
      exact .unk
    · obtain rfl := List.mem_singleton.mp he
      exact ⟨legibleText_of_delimLength (by decide +kernel) (by decide +kernel), by decide⟩
  · exact .char htext

theorem asRead_sampleList :
    asRead sampleList = .list [.char (units "a b") true, .char (units "1.5") false,
    .table [(units "k", units "k", .unk)], .char tripleQuotes true] := by
  have hspaced : (false || decide ((analysisOf (units "a b") false).delimLength ≠ 0)) = true := by
    decide +kernel
  rw [asRead, asReadElements, asReadElements, asReadElements, asReadElements, asReadElements,
    asRead, asRead, asRead, asRead, hspaced, Bool.true_or]
  rfl

/-- A list is read as it is written. -/
theorem parseValue_writeItem_list :
    let cfg : Config Unit := .initV2 (.create .dying .ascii .exact 2)
    let text := units "[ 'a b' 1.5 \x7b 'k':? \x7d \n;'''\n\"\"\"'\n; ]"
    writeItem cfg.icu none sampleList (Context.initial 2) = some (.ok ⟨⟩, ⟨false, true, 3, 2, text⟩)
      ∧ Halts (parseValue cfg) (scannerAt 0 (text ++ units "\n"))
        (fun v t => v = .list [.char (units "a b") true, .char (units "1.5") false,
          .table [(units "k", units "k", .unk)],
            .char tripleQuotes true] ∧ Faultless (scannerAt 0 (text ++ units "\n")) t)
              (fun _ _ => False) := by
  intro cfg text
  have hrun : writeItem cfg.icu none sampleList (Context.initial 2)
      = some (.ok ⟨⟩, ⟨false, true, 3, 2, text⟩) := by
    decide +kernel
  have hs : Shows (scannerAt 0 (text ++ units "\n")).toBuffer 0 [] (text ++ [UChar.nl]) :=
    shows_scannerAt (by decide +kernel) (by decide +kernel)
  -- the text is not to be computed again
  clear_value text
  obtain ⟨text', htext', hreads⟩ :=
    @parseValue_writeItem Unit cfg sampleList legible_sampleList rfl (by decide) (by decide)
    (by decide) none (Context.initial 2) _ (by decide) rfl hrun
  obtain rfl : text = text' := htext'
  refine ⟨hrun,
    (hreads _ UChar.nl [] ⟨Nat.le_refl 0, Nat.zero_le _⟩ (.inr rfl) (.inr rfl) hs).imp ?_
    (fun _ _ he => he)⟩
  rintro v t ⟨rfl, _, _, hquiet⟩
  exact ⟨asRead_sampleList, hquiet⟩

end RoundTrip

end CifApi.Output
