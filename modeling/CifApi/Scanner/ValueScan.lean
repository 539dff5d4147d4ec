import CifApi.Data.Runs
import CifApi.Scanner.CifText

/-! Values of allowed text, which are scanned whole whichever way they are delimited. -/
namespace CifApi

open Exec Buffer

variable {σ : Type}

section Classes

variable {cfg : Config σ} {c : UChar} {token : List UChar}

/-- What the tables show of each unit, and what holds of the units beyond them, holds of every
unit. -/
theorem Config.Standard.of_table (h : cfg.Standard) {P : UChar → CharClass → Prop}
    (htable : ∀ d < charTableMax, P d (charClassV2 [] [] d)
      ∧ P d (charClassV1 (charClassV2 [] []) d))
    (hbeyond : ∀ d, P d .general ∧ P d .no) : P c (cfg.classOf c) := by
  unfold Config.classOf
  split
  · rename_i hlt
    rcases h with heq | heq
    · exact heq ▸ (htable c hlt).1
    · exact heq ▸ (htable c hlt).2
  · split
    · exact (hbeyond c).1
    · exact (hbeyond c).2

/-- The units that do not go on with an unquoted value. -/
def unquotedStops : List UChar :=
  [UChar.tab, UChar.sp, UChar.nl, UChar.cr, UChar.obrk, UChar.cbrk, UChar.obrc, UChar.cbrc]

/-- The units that do not begin an unquoted value away from the start of a line. -/
def unquotedNonstarts : List UChar :=
  unquotedStops ++ [UChar.sq, UChar.dq, UChar.hash, UChar.under, UChar.semi]

theorem Config.Standard.metaClassOf_of_notMem (h : cfg.Standard) (hc : c ∉ unquotedStops) :
    cfg.metaClassOf c = .general ∨ cfg.metaClassOf c = .no := by
  refine h.of_table (P := fun d k => d ∉ unquotedStops → k.metaClass = .general
    ∨ k.metaClass = .no) ?_ ?_ hc
  · decide +kernel
  · exact fun _ => ⟨fun _ => .inl rfl, fun _ => .inr rfl⟩

theorem Config.Standard.classOf_of_notMem (h : cfg.Standard) (hc : c ∉ unquotedNonstarts) :
    cfg.classOf c ∉ ([.eol, .ws, .hash, .undersc, .obrak, .cbrak, .ocurl, .ccurl, .quote,
      .semi] : List CharClass) := by
  refine h.of_table (P := fun d k => d ∉ unquotedNonstarts →
    k ∉ ([.eol, .ws, .hash, .undersc, .obrak, .cbrak, .ocurl, .ccurl, .quote,
      .semi] : List CharClass)) ?_ ?_ hc
  · decide +kernel
  · exact fun _ => ⟨fun _ => by decide, fun _ => by decide⟩

theorem Config.Standard.metaClassOf_ws_iff (h : cfg.Standard) :
    cfg.metaClassOf c = .ws ↔ c = UChar.tab ∨ c = UChar.sp ∨ c = UChar.nl ∨ c = UChar.cr := by
  have hclass : cfg.metaClassOf c = .ws ↔ cfg.classOf c = .ws ∨ cfg.classOf c = .eol := by
    unfold Config.metaClassOf
    cases cfg.classOf c <;> simp [CharClass.metaClass]
  rw [hclass, h.classOf_ws_iff, h.classOf_eol_iff, or_assoc]

theorem Config.Standard.classOf_quote (h : cfg.Standard) (hc : c = UChar.sq ∨ c = UChar.dq) :
    cfg.classOf c = .quote := by
  rcases hc with rfl | rfl
  · exact h.tabled.classOf_fixed (by decide) rfl (by decide)
  · exact h.tabled.classOf_fixed (by decide) rfl (by decide)

/-- The letters of the reserved words, by their classes. -/
def keyLetters : List (CharClass × UChar) :=
  [(.a, 0x41), (.b, 0x42), (.d, 0x44), (.e, 0x45), (.g, 0x47), (.l, 0x4c), (.o, 0x4f), (.p, 0x50),
    (.s, 0x53), (.t, 0x54), (.v, 0x56)]

theorem Config.Standard.isLetter (h : cfg.Standard) {k : CharClass} {u : UChar}
    (hku : (k, u) ∈ keyLetters) (hc : cfg.classOf c = k) : isLetter u c = true := by
  have hplain : ∀ p ∈ keyLetters, p.1 ≠ .general ∧ p.1 ≠ .no := by decide
  have htable : ∀ d < charTableMax, ∀ p ∈ keyLetters,
      (charClassV2 [] [] d = p.1 ∨ charClassV1 (charClassV2 [] []) d = p.1) →
        CifApi.isLetter p.2 d = true := by
    decide +kernel
  exact h.of_classOf (P := fun d => CifApi.isLetter u d = true) (hplain _ hku) (fun d hd =>
    htable d hd _ hku) hc

/-- What has the classes of a word reads as the word. -/
theorem Config.Standard.lettersAt (h : cfg.Standard) {word : List (CharClass × UChar)}
    (hword : ∀ p ∈ word, p ∈ keyLetters) {i : Nat}
    (hclasses : classesAt cfg token i (word.map Prod.fst) = true) :
    lettersAt token i (word.map Prod.snd) = true := by
  induction word generalizing i with
  | nil => rfl
  | cons p word ih =>
    rw [List.map_cons, classesAt, Bool.and_eq_true, decide_eq_true_eq] at hclasses
    rw [List.map_cons, CifApi.lettersAt, Bool.and_eq_true]
    refine ⟨h.isLetter (hword p (List.mem_cons_self ..)) hclasses.1, ?_⟩
    exact ih (fun q hq => hword q (List.mem_cons_of_mem _ hq)) hclasses.2

theorem Config.Standard.under_of_classesAt (h : cfg.Standard) {i : Nat}
    (hclasses : classesAt cfg token i [.undersc] = true) : token.getD i 0 = UChar.under := by
  rw [classesAt, Bool.and_eq_true, decide_eq_true_eq] at hclasses
  exact h.of_classOf (P := fun d => d = UChar.under) (by decide) (by decide +kernel) hclasses.1

theorem getD_length (token : List UChar) : token.getD token.length 0 = 0 := by simp

/-- The reserved words, whose letters a token may begin with. -/
theorem isReservedString_of_letters
    (h : (lettersAt token 0 [0x44, 0x41, 0x54, 0x41] = true
      ∨ lettersAt token 0 [0x53, 0x41, 0x56, 0x45] = true)
        ∧ token.getD 4 0 = UChar.under
      ∨ (lettersAt token 0 [0x4c, 0x4f, 0x4f, 0x50] = true
        ∨ lettersAt token 0 [0x53, 0x54, 0x4f, 0x50] = true)
        ∧ token.getD 4 0 = UChar.under ∧ token.getD 5 0 = 0
      ∨ lettersAt token 0 [0x47, 0x4c, 0x4f, 0x42, 0x41, 0x4c] = true
        ∧ token.getD 6 0 = UChar.under ∧ token.getD 7 0 = 0) :
    isReservedString token = true := by
  have hcases : ∀ {u d : UChar}, isLetter u d = true ↔ d = u ∨ d = u + 0x20 := by
    intro u d
    rw [CifApi.isLetter, Bool.or_eq_true, decide_eq_true_eq, decide_eq_true_eq]
  simp only [CifApi.lettersAt, Bool.and_eq_true, hcases] at h
  unfold isReservedString
  rcases h with ⟨⟨hc, h⟩ | ⟨hc, hd, h⟩, hunder⟩ | ⟨⟨hc, h⟩ | ⟨hc, hd, h⟩, hunder, hend⟩
    | ⟨⟨hc, h⟩, hunder, hend⟩
  · rcases hc with hc | hc <;> simp_all [CifApi.isLetter, CifApi.lettersAt]
  · rcases hc with hc | hc <;> rcases hd with hd | hd
      <;> simp_all [CifApi.isLetter, CifApi.lettersAt]
  · rcases hc with hc | hc <;> simp_all [CifApi.isLetter, CifApi.lettersAt]
  · rcases hc with hc | hc <;> rcases hd with hd | hd
      <;> simp_all [CifApi.isLetter, CifApi.lettersAt]
  · rcases hc with hc | hc <;> simp_all [CifApi.isLetter, CifApi.lettersAt]

theorem classesAt_append (ks ls : List CharClass) (i : Nat) :
    classesAt cfg token i (ks ++ ls) = (classesAt cfg token i ks
      && classesAt cfg token (i + ks.length) ls) := by
  induction ks generalizing i with
  | nil => simp [classesAt]
  | cons k ks ih =>
    rw [List.cons_append, classesAt, classesAt, ih, Bool.and_assoc, List.length_cons]
    simp only [Nat.add_assoc, Nat.add_comm 1]

/-- A token that the library does not take for a reserved word is none. -/
theorem Config.Standard.keywordOf_eq_none (h : cfg.Standard)
    (hres : isReservedString token = false) :
    keywordOf cfg token = .none := by
  by_contra hne
  refine absurd (isReservedString_of_letters ?_) (Bool.eq_false_iff.mp hres)
  have hword : ∀ word : List (CharClass × UChar), (∀ p ∈ word, p ∈ keyLetters) →
      classesAt cfg token 0 (word.map Prod.fst) = true →
        CifApi.lettersAt token 0 (word.map Prod.snd) = true :=
    fun _ hword => h.lettersAt hword
  unfold keywordOf at hne
  dsimp only at hne
  split at hne
  · rename_i houter
    rw [Bool.and_eq_true] at houter
    have hunder := h.under_of_classesAt houter.2
    split at hne
    · rename_i hdata
      exact .inl ⟨.inl (hword [(.d, 0x44), (.a, 0x41), (.t, 0x54), (.a, 0x41)] (by decide) hdata),
        hunder⟩
    · split at hne
      · rename_i hsave
        exact .inl ⟨.inr (hword [(.s, 0x53), (.a, 0x41), (.v, 0x56), (.e, 0x45)] (by decide) hsave),
          hunder⟩
      · split at hne
        · rename_i hop
          rw [Bool.and_eq_true, decide_eq_true_eq] at hop
          have hend : token.getD 5 0 = 0 := hop.1 ▸ getD_length token
          have hfour : ∀ first second, classesAt cfg token 0 [first, second] = true →
              classesAt cfg token 0 ([first, second] ++ [.o, .p]) = true := by
            intro first second hkl
            rw [classesAt_append, hkl]
            exact hop.2
          split at hne
          · rename_i hlo
            exact .inr
              (.inl ⟨.inl (hword [(.l, 0x4c), (.o, 0x4f), (.o, 0x4f),
              (.p, 0x50)] (by decide) (hfour _ _ hlo)), hunder, hend⟩)
          · split at hne
            · rename_i hst
              exact .inr
                (.inl ⟨.inr (hword [(.s, 0x53), (.t, 0x54), (.o, 0x4f),
                (.p, 0x50)] (by decide) (hfour _ _ hst)), hunder, hend⟩)
            · exact absurd rfl hne
        · exact absurd rfl hne
  · split at hne
    · rename_i hglobal
      rw [Bool.and_eq_true, Bool.and_eq_true, decide_eq_true_eq] at hglobal
      have hend : token.getD 7 0 = 0 := hglobal.1.1 ▸ getD_length token
      exact .inr (.inr ⟨hword [(.g, 0x47), (.l, 0x4c), (.o, 0x4f), (.b, 0x42), (.a, 0x41),
        (.l, 0x4c)] (by decide) hglobal.2, h.under_of_classesAt hglobal.1.2, hend⟩)
    · exact absurd rfl hne

end Classes

/-- No line that ends within text that begins in a column comes to the limit. -/
def fits : Nat → UStr → Bool
  | _, [] => true
  | column, c :: rest =>
    if c = UChar.nl then column < lineLength && fits 0 rest
    else fits (if isTrail c then column else column + 1) rest

/-- The column in which text that begins in a column ends. -/
def endColumn : Nat → UStr → Nat
  | column, [] => column
  | column, c :: rest => if c = UChar.nl then endColumn 0 rest
    else endColumn (if isTrail c then column else column + 1) rest

theorem fits_append {n : Nat} {text rest : UStr} (h : fits n text = true)
    (hrest : UChar.nl ∉ rest) :
    fits n (text ++ rest) = true := by
  induction text generalizing n with
  | nil =>
    clear h
    induction rest generalizing n with
    | nil => rfl
    | cons c rest ih =>
      rw [List.mem_cons, not_or] at hrest
      rw [List.nil_append, fits, if_neg (Ne.symm hrest.1)]
      exact ih hrest.2
  | cons c text ih =>
    rw [List.cons_append, fits]
    rw [fits] at h
    split at h
    · rename_i hc
      rw [Bool.and_eq_true] at h
      rw [if_pos hc, Bool.and_eq_true]
      exact ⟨h.1, ih h.2⟩
    · rename_i hc
      rw [if_neg hc]
      exact ih h

section Scans

variable {cfg : Config σ} {s₀ s : Scanner σ} {past text tail str : List UChar} {c d : UChar}

/-- A scan of allowed text does with the whole of it what it does with each of its units. -/
theorem Reads.ensures_scanUnits {τ ω : Type} {body : τ → Parse σ (τ ⊕ ω)} {atEnd : τ → Parse σ ω}
    {L : τ → Bool} {K : τ → List UChar → List UChar → Nat → Prop} {Q : ω → Scanner σ → Prop}
    {E : Int → Scanner σ → Prop} {st : τ} {W : List UChar}
    (hbody : ∀ st past c text t, past ++ c :: text = W →
      Reads cfg.cifVersion s₀ (L st) past (c :: text) tail t →
      K st past (c :: text) t.column → t.nextChar < t.bufferLimit →
        Ensures (body st) t (Round (fun st' u => text ≠ []
        ∧ Reads cfg.cifVersion s₀ (L st') (past ++ [c]) text tail u
        ∧ K st' (past ++ [c]) text u.column
        ∧ u.bufferLimit = t.bufferLimit) Q) E)
    (hwhole : past ++ text = W) (htext : text ≠ [])
    (h : Reads cfg.cifVersion s₀ (L st) past text tail s) (hK : K st past text s.column) :
    Ensures (scanUnits cfg body atEnd st) s Q E := by
  refine CifApi.ensures_scanUnits (I := fun st t => ∃ past text, past ++ text = W ∧ text ≠ []
    ∧ Reads cfg.cifVersion s₀ (L st) past text tail t ∧ K st past text t.column) ?_ ?_ ⟨past, text,
    hwhole, htext, h, hK⟩
  · rintro st t ⟨past, text, hwhole, htext, h, hK⟩ hlt
    obtain ⟨c, text, rfl⟩ := List.exists_cons_of_ne_nil htext
    refine (hbody st past c text t hwhole h hK hlt).imp ?_ (fun _ _ he => he)
    rintro (st' | w) u hu
    · obtain ⟨hne, hreads, hK', hlimit⟩ := hu
      exact ⟨⟨past ++ [c], text, by simpa using hwhole, hne, hreads, hK'⟩, hlimit⟩
    · exact hu
  · rintro st t ⟨past, text, hwhole, htext, h, hK⟩ hnext
    refine post_getMoreChars h.shows hnext fun more b hb _ hend => ?_
    cases more with
    | true => exact ⟨past, text, hwhole, htext, h.more hb, hK⟩
    | false => exact absurd (List.append_eq_nil_iff.mp (hend rfl)).1 htext

/-- Where the value of the token begins is changed. -/
theorem Buffer.Shows.setStart {b : Buffer} {start n m : Nat} {rest : List UChar}
    (h : Shows b start past rest) (hn : n ≤ past.length) (hm : m = b.textStart + n) :
    Shows { b with tvalueStart := m } n past rest :=
  ⟨⟨h.sound.size_pos, h.sound.limit_le, h.sound.next_le, h.sound.text_le, h.sound.chunks,
    h.sound.eof⟩, hm, hn, h.past_eq, h.rest_prefix, h.no_cr, h.decoded⟩

/-- A token that has been scanned up to `rest` has the value `str`. -/
structure Scanner.Holds (str rest : List UChar) (s : Scanner σ) : Prop where
  shows : ∃ before after, before ++ str ++ after ≠ []
    ∧ Shows s.toBuffer before.length (before ++ str ++ after) rest
  length_eq : s.tvalueLength = str.length

theorem Scanner.Holds.tvalue_eq {rest : List UChar} (h : s.Holds str rest) : s.tvalue = str := by
  obtain ⟨before, after, _, hshows⟩ := h.shows
  refine List.ext_getElem? fun i => ?_
  rw [Scanner.tvalue, h.length_eq, hshows.value_eq]
  by_cases hi : i < str.length
  · have hget := hshows.getElem? (n := before.length + i) (by simp; omega)
    rw [List.append_assoc, List.getElem?_append_right (by omega),
      List.getElem?_append_left (by omega)] at hget
    rw [getElem?_slice (by omega), Nat.add_assoc]
    refine hget.symm.trans ?_
    rw [Nat.add_sub_cancel_left]
  · rw [List.getElem?_eq_none (by simp; omega), List.getElem?_eq_none (by omega)]

/-- The value of the token is what lies between the parts of its text that are not counted for
it. -/
theorem Buffer.Shows.holds {rest : List UChar} (before value after : List UChar)
    (h : Shows s.toBuffer 0 (before ++ value ++ after) rest) (hne : before ++ value ++ after ≠ []) :
    (s.setTvalue before.length after.length).Holds value rest := by
  have hnext := h.nextChar_eq
  have hvalue := h.value_eq
  simp only [List.length_append] at hnext
  refine ⟨⟨before, after, hne, ?_⟩, ?_⟩
  · exact h.setStart (by simp) (by rw [hvalue, Nat.add_zero])
  · show s.nextChar - (s.tvalueStart + before.length) - after.length = value.length
    omega

/-- A unit of text that more follows is not the last. -/
theorem eq_of_append_cons (h : past ++ c :: text = str ++ [d]) (htext : text ≠ []) :
    ∃ text', text = text' ++ [d] ∧ str = past ++ c :: text' := by
  obtain ⟨text', e, rfl⟩ := List.eq_nil_or_concat text |>.resolve_left htext
  rw [List.concat_eq_append, ← List.cons_append, ← List.append_assoc] at h
  obtain ⟨hstr, he⟩ := List.append_inj' h rfl
  obtain ⟨rfl, _⟩ := List.cons.inj he
  exact ⟨text', List.concat_eq_append, hstr.symm⟩

theorem Config.Standard.isTrail_of_ws (h : cfg.Standard) (hd : cfg.metaClassOf d = .ws) :
    isTrail d = false := by
  rcases h.metaClassOf_ws_iff.mp hd with rfl | rfl | rfl | rfl <;> decide

theorem columnAfter_le_succ (c : UChar) {column n : Nat} (h : column ≤ n) :
    columnAfter c column ≤ n + 1 := by
  have hle := columnAfter_le c column
  split at hle
  · omega
  · omega

/-- An unquoted value ends at the white space after it. -/
theorem ensures_scanUnquoted (hcfg : cfg.Standard) (hne : past ++ str ≠ [])
    (hplain : ∀ c ∈ str, c ∉ unquotedStops) (hd : cfg.metaClassOf d = .ws) {n : Nat}
    (hn : s.column ≤ n) (h : Reads cfg.cifVersion s₀ false past (str ++ [d]) tail s) :
    Ensures (scanUnquoted cfg) s (fun _ t => t.Holds (past ++ str) (d :: tail) ∧ Edited s₀ t
      ∧ t.column ≤ n + str.length) (fun _ _ => False) := by
  have hdcr : d ≠ UChar.cr := by
    rintro rfl
    exact h.shows.no_cr (by simp)
  have heof : d ≠ UChar.eofChar := by
    rintro rfl
    exact absurd (hcfg.metaClassOf_ws_iff.mp hd) (by decide)
  rw [Ensures, scanUnquoted, post_bind]
  refine (Reads.ensures_scanUnits (W := past ++ str ++ [d]) (L := UnquotedState.lead)
    (K := fun _ past' _ column => ∃ done, past' = past ++ done ∧ column ≤ n + done.length)
    (Q := fun _ t => Shows t.toBuffer 0 (past ++ str) (d :: tail) ∧ Edited s₀ t
      ∧ t.column ≤ n + str.length) ?_
    (List.append_assoc _ _ _).symm (by simp) h ⟨[], (List.append_nil past).symm, hn⟩).imp ?_
      (fun _ _ he => he)
  · rintro st _ c text t hwhole h ⟨done, rfl, hcolumn⟩ hlt
    rw [Ensures, scanUnquotedUnit, post_bind]
    refine (h.scanUChar_column hcfg hlt).imp ?_ (fun _ _ he => he)
    rintro ⟨c', lead⟩ u ⟨hc', hreads, hlimit, hcol⟩
    obtain rfl : c' = c := hc'
    by_cases htext : text = []
    · subst htext
      obtain ⟨hpast, hc⟩ := List.append_inj' hwhole rfl
      obtain ⟨rfl, _⟩ := List.cons.inj hc
      rw [hpast] at hreads
      dsimp only
      rw [hd]
      dsimp only
      rw [if_pos heof]
      have hback : u.backUp.column ≤ n + str.length := by
        have hdone : done.length = str.length := by rw [List.append_cancel_left hpast]
        have hle := addColumn_back_le t.column
        rw [columnAfter, if_neg (by simp [hcfg.isTrail_of_ws hd])] at hcol
        show Scanner.addColumn u.column (-1) ≤ _
        rw [hcol]
        omega
      exact ⟨hreads.shows.backUp (Nat.zero_le _) hdcr, hreads.edited, hback⟩
    · obtain ⟨text', _, hstr⟩ := eq_of_append_cons hwhole htext
      rw [List.append_assoc] at hstr
      obtain rfl := List.append_cancel_left hstr
      have hmeta := hcfg.metaClassOf_of_notMem (hplain c' (by simp))
      have hdone : ∃ done', past ++ done ++ [c'] = past ++ done' ∧ u.column ≤ n + done'.length := by
        refine ⟨done ++ [c'], List.append_assoc _ _ _, ?_⟩
        rw [hcol, List.length_append]
        exact columnAfter_le_succ c' hcolumn
      dsimp only
      rcases hmeta with hmeta | hmeta
      · rw [hmeta]
        exact ⟨htext, hreads, hdone, hlimit⟩
      · rw [hmeta]
        exact ⟨htext, hreads, hdone, hlimit⟩
  · rintro _ t ⟨hshows, hedited, hcolumn⟩
    rw [post_modify]
    exact ⟨Buffer.Shows.holds [] (past ++ str) [] (by simpa using hshows) (by simpa using hne),
      hedited, hcolumn⟩

/-- Such a scan ends. -/
theorem halts_scanUnquoted (hcfg : cfg.Standard) (hbegun : Begun s.toBuffer)
    (hne : past ++ str ≠ []) (hplain : ∀ c ∈ str, c ∉ unquotedStops) (hd : cfg.metaClassOf d = .ws)
    (h : Reads cfg.cifVersion s₀ false past (str ++ [d]) tail s) :
    Halts (scanUnquoted cfg) s (fun _ t => t.Holds (past ++ str) (d :: tail) ∧ Edited s₀ t)
      (fun _ _ => False) := by
  have hensures := ensures_scanUnquoted hcfg hne hplain hd (Nat.le_refl _) h
  refine (Post.and hensures
    (returns_scanUnquoted (v := cfg.cifVersion) hbegun h.shows.value_eq)).imp
    (fun _ _ hq => ⟨hq.1.1, hq.1.2.1⟩) (fun _ _ he => he.1)

/-- A value in quotes ends at the quote that white space, or in CIF 2 any other unit, follows. -/
theorem ensures_scanDelimString (hcfg : cfg.Standard) (hc : c = UChar.sq ∨ c = UChar.dq)
    (hplain : c ∉ str) (hnl : UChar.nl ∉ str)
    (hd : cfg.metaClassOf d = .ws ∨ 2 ≤ cfg.cifVersion ∧ d ≠ c) {n : Nat} (hn : s.column ≤ n)
    (h : Reads cfg.cifVersion s₀ false [c] (str ++ [c]) (d :: tail) s) :
    Ensures (scanDelimString cfg) s (fun _ t => t.Holds str (d :: tail) ∧ Edited s₀ t
      ∧ t.column ≤ n + (str.length + 1)) (fun _ _ => False) := by
  have hdelim : s.buffer s.textStart = c := by
    simpa using (h.shows.getElem? (n := 0) (by simp)).symm
  have hdc : d ≠ c := by
    rcases hd with hd | hd
    · rintro rfl
      have hmem := hcfg.metaClassOf_ws_iff.mp hd
      rcases hc with rfl | rfl <;> exact absurd hmem (by decide)
    · exact hd.2
  rw [Ensures, scanDelimString, post_bind, post_read, post_bind, hdelim]
  refine (Reads.ensures_scanUnits (W := ([c] ++ str) ++ [c]) (L := id)
    (K := fun _ past _ column => ∃ done, past = [c] ++ done ∧ column ≤ n + done.length)
    (Q := fun how t => how = .delim ∧ Shows t.toBuffer 0 ([c] ++ str ++ [c]) (d :: tail)
      ∧ Edited s₀ t
      ∧ t.column ≤ n + (str.length + 1)) ?_
    (List.append_assoc _ _ _).symm (by simp) h ⟨[], rfl, hn⟩).imp ?_ (fun _ _ he => he)
  · rintro st past e text t hwhole h ⟨done, rfl, hcolumn⟩ hlt
    rw [Ensures, scanDelimUnit, post_bind]
    refine (h.scanUChar_column hcfg hlt).imp ?_ (fun _ _ he => he)
    rintro ⟨c', lead⟩ u ⟨hc', hreads, hlimit, hcol⟩
    obtain rfl : c' = e := hc'
    have hnext : u.column ≤ n + (done ++ [c']).length := by
      rw [hcol, List.length_append]
      exact columnAfter_le_succ c' hcolumn
    by_cases htext : text = []
    · subst htext
      obtain ⟨hpast, he⟩ := List.append_inj' hwhole rfl
      obtain ⟨rfl, _⟩ := List.cons.inj he
      obtain rfl : done = str := List.append_cancel_left hpast
      dsimp only
      rw [if_pos rfl, post_bind]
      refine post_peekChar hreads.shows fun b hb _ => ?_
      dsimp only
      rw [post_bind, post_read]
      have hend : DelimEnd.delim = .delim ∧ Shows b 0 ([c'] ++ done ++ [c']) (d :: tail)
          ∧ Edited s₀ { u with toBuffer := b } ∧ u.column ≤ n + (done.length + 1) := by
        refine ⟨rfl, hb, hreads.edited.trans ⟨rfl, rfl, rfl, rfl⟩, ?_⟩
        simpa using hnext
      split
      · rename_i hversion
        have hws := hd.resolve_right fun hno => absurd hversion (Int.not_lt.mpr hno.1)
        rw [if_neg (not_not.mpr hws)]
        exact hend
      · rw [if_neg (by simp [hdc])]
        exact hend
    · obtain ⟨text', rfl, hstr⟩ := eq_of_append_cons hwhole htext
      rw [List.append_assoc] at hstr
      obtain rfl := List.append_cancel_left hstr
      have hne : c' ≠ c := by
        rintro rfl
        exact hplain (by simp)
      have heol : cfg.classOf c' ≠ .eol := by
        rw [ne_eq, hcfg.classOf_eol_iff]
        rintro (rfl | rfl)
        · exact hnl (by simp)
        · exact h.shows.no_cr (by simp)
      dsimp only
      rw [if_neg hne, if_neg heol]
      exact ⟨htext, hreads, ⟨done ++ [c'], List.append_assoc _ _ _, hnext⟩, hlimit⟩
  · rintro how t ⟨rfl, hshows, hedited, hcolumn⟩
    exact ⟨hshows.holds [c] str [c] (by simp), hedited, hcolumn⟩

/-- Such a scan ends. -/
theorem halts_scanDelimString (hcfg : cfg.Standard) (hc : c = UChar.sq ∨ c = UChar.dq)
    (hplain : c ∉ str) (hnl : UChar.nl ∉ str) (hd : cfg.metaClassOf d = .ws)
    (h : Reads cfg.cifVersion s₀ false [c] (str ++ [c]) (d :: tail) s) :
    Halts (scanDelimString cfg) s (fun _ t => t.Holds str (d :: tail) ∧ Edited s₀ t)
      (fun _ _ => False) := by
  have hensures := ensures_scanDelimString hcfg hc hplain hnl (.inl hd) (Nat.le_refl _) h
  refine (Post.and hensures (returns_scanDelimString (h.shows.begun (by simp)))).imp
    (fun _ _ hq => ⟨hq.1.1, hq.1.2.1⟩) (fun _ _ he => he.1)

/-- The end of a line that is not too long is not reported. -/
theorem post_handleEol {cut : Prop} {sol : Nat} {Q : Nat → Scanner σ → Prop}
    {E : Int → Scanner σ → Prop} (h : s.column ≤ lineLength)
    (hQ : ∀ sol n, (c = UChar.nl → sol % 4 = 1) → Q sol (s.incLine n)) :
    Post cut (handleEol cfg c sol) s Q E := by
  rw [handleEol, post_bind, post_read, post_bind, post_when]
  refine ⟨fun hlong => absurd hlong (Nat.not_lt.mpr h), fun _ => ?_⟩
  rw [post_bind, post_modify]
  refine hQ _ _ fun hc => ?_
  rw [if_pos hc]
  omega

/-- What a scan between triple quotes that is to end up to column `m` has counted so far. -/
structure InTriple (c : UChar) (m : Nat) (st : TripleState) (past text : List UChar)
    (column : Nat) : Prop where
  counted : ∃ done, past = List.replicate 3 c ++ done ∧ st.delimCount = trailingRun c done
  count_le : st.delimCount ≤ 2
  fits : ∃ n, column ≤ n ∧ fits n text = true ∧ endColumn n text ≤ m

/-- A value in triple quotes ends at the first three quotes in a row. -/
theorem ensures_scanTripleUnit (hcfg : cfg.Standard) (hc : c ≠ UChar.nl)
    (hlast : str.getLast? ≠ some c) (hno : ¬ List.replicate 3 c <:+: str) {st : TripleState}
    {e : UChar} {m : Nat}
    (hwhole : past ++ e :: text = List.replicate 3 c ++ str ++ List.replicate 3 c)
    (h : Reads cfg.cifVersion s₀ st.lead past (e :: text) tail s)
    (hK : InTriple c m st past (e :: text) s.column)
    (hlt : s.nextChar < s.bufferLimit) :
    Ensures (scanTripleUnit cfg c st) s (Round (fun st' u => text ≠ []
      ∧ Reads cfg.cifVersion s₀ st'.lead (past ++ [e]) text tail u
      ∧ InTriple c m st' (past ++ [e]) text u.column
      ∧ u.bufferLimit = s.bufferLimit)
      fun size u => size = 3
        ∧ Shows u.toBuffer 0 (List.replicate 3 c ++ str ++ List.replicate 3 c) tail ∧ Edited s₀ u
        ∧ u.column ≤ m)
      (fun _ _ => False) := by
  obtain ⟨done, rfl, hcount⟩ := hK.counted
  have hle := hK.count_le
  obtain ⟨n, hcolumn, hfits, hm⟩ := hK.fits
  rw [List.append_assoc, List.append_assoc] at hwhole
  have hwhole := List.append_cancel_left hwhole
  have hdone : done ++ [e] <+: str ++ List.replicate 3 c := ⟨text, by simpa using hwhole⟩
  rw [Ensures, scanTripleUnit, post_bind]
  refine (h.scanUChar hcfg hlt).imp ?_ (fun _ _ he => he)
  rintro ⟨c', lead⟩ u ⟨hc', hreads, hlimit, hcol⟩
  obtain rfl : c' = e := hc'
  have hrun := trailingRun_concat c c' done
  -- the end of the closing delimiter is where three quotes have been counted
  have hend : 3 ≤ trailingRun c (done ++ [c']) → text = [] := by
    intro hthree
    have heq := eq_append_replicate hlast hno hdone hthree
    rw [← heq] at hwhole
    simpa using hwhole
  have hnotEnd : trailingRun c (done ++ [c']) < 3 → text ≠ [] := by
    rintro hthree rfl
    rw [hwhole, trailingRun_append_replicate hlast] at hthree
    omega
  have hcolumn' : u.column ≤ if isTrail c' then n else n + 1 := by
    split at hcol <;> simp_all <;> omega
  have hafter : c' ≠ UChar.nl → CifApi.fits (if isTrail c' then n else n + 1) text = true
      ∧ endColumn (if isTrail c' then n else n + 1) text ≤ m := by
    intro hne
    rw [CifApi.fits, if_neg hne] at hfits
    rw [endColumn, if_neg hne] at hm
    exact ⟨hfits, hm⟩
  dsimp only
  split
  · rename_i hquote
    subst hquote
    rw [if_pos rfl, ← hcount] at hrun
    split
    · rename_i hthree
      have hnil := hend (by omega)
      subst hnil
      have hlast : u.column ≤ m := Nat.le_trans hcolumn' (hafter hc).2
      refine ⟨rfl, ?_, hreads.edited, hlast⟩
      have hshows := hreads.shows
      rw [List.append_assoc, hwhole, ← List.append_assoc] at hshows
      exact hshows
    · rename_i hthree
      have hcount_le : st.delimCount + 1 ≤ 2 := by omega
      refine ⟨hnotEnd (by omega), hreads,
        ⟨⟨done ++ [c'], List.append_assoc _ _ _, hrun.symm⟩, hcount_le, ?_⟩, hlimit⟩
      exact ⟨_, hcolumn', hafter hc⟩
  · rename_i hquote
    rw [if_neg hquote] at hrun
    have hne := hnotEnd (by omega)
    split
    · rename_i heol
      obtain rfl : c' = UChar.nl := by
        refine (hcfg.classOf_eol_iff.mp heol).resolve_right ?_
        rintro rfl
        exact h.shows.no_cr (by simp)
      rw [CifApi.fits, if_pos rfl, Bool.and_eq_true, decide_eq_true_eq] at hfits
      rw [endColumn, if_pos rfl] at hm
      have hshort : u.column ≤ lineLength := Nat.le_trans hcolumn' hfits.1
      rw [post_bind]
      refine post_handleEol hshort fun sol k _ => ?_
      exact ⟨hne, ⟨hreads.shows, hreads.edited.trans ⟨rfl, rfl, rfl, rfl⟩, hreads.lead_eq,
        hreads.allowed⟩,
        ⟨⟨done ++ [UChar.nl], List.append_assoc _ _ _, hrun.symm⟩, Nat.zero_le _, 0, Nat.le_refl _,
          hfits.2, hm⟩, hlimit⟩
    · rename_i heol
      have hnl : c' ≠ UChar.nl := fun heq => heol (hcfg.classOf_eol_iff.mpr (.inl heq))
      exact ⟨hne, hreads, ⟨⟨done ++ [c'], List.append_assoc _ _ _, hrun.symm⟩, Nat.zero_le _, _,
        hcolumn', hafter hnl⟩, hlimit⟩

/-- A value in triple quotes ends at the first three quotes in a row. -/
theorem ensures_scanTripleDelimString (hcfg : cfg.Standard) (hc : c ≠ UChar.nl)
    (hlast : str.getLast? ≠ some c) (hno : ¬ List.replicate 3 c <:+: str) {n : Nat}
    (hn : s.column ≤ n) (hfits : fits n str = true)
    (h : Reads cfg.cifVersion s₀ false (List.replicate 3 c) (str ++ List.replicate 3 c) tail s) :
    Ensures (scanTripleDelimString cfg) s
      (fun _ t => t.Holds str tail ∧ Edited s₀ t
        ∧ t.column ≤ endColumn n (str ++ List.replicate 3 c))
      (fun _ _ => False) := by
  have hdelim : s.buffer s.textStart = c := by
    simpa using (h.shows.getElem? (n := 0) (by simp)).symm
  have hstart : InTriple c (endColumn n (str ++ List.replicate 3 c)) {} (List.replicate 3 c)
      (str ++ List.replicate 3 c) s.column := by
    refine ⟨⟨[], (List.append_nil _).symm, rfl⟩, Nat.zero_le _, n, hn, fits_append hfits ?_,
      Nat.le_refl _⟩
    simpa using hc.symm
  rw [Ensures, scanTripleDelimString, post_bind, post_read, post_bind, hdelim]
  refine (Reads.ensures_scanUnits (L := TripleState.lead)
    (K := InTriple c (endColumn n (str ++ List.replicate 3 c)))
    (Q := fun size u => size = 3
      ∧ Shows u.toBuffer 0 (List.replicate 3 c ++ str ++ List.replicate 3 c) tail
      ∧ Edited s₀ u ∧ u.column ≤ endColumn n (str ++ List.replicate 3 c)) ?_
        (List.append_assoc _ _ _).symm (by simp) h
    hstart).imp ?_ (fun _ _ he => he)
  · exact fun st past e text t hwhole h hK hlt =>
      ensures_scanTripleUnit hcfg hc hlast hno hwhole h hK hlt
  · rintro size t ⟨rfl, hshows, hedited, hcolumn⟩
    exact ⟨hshows.holds (List.replicate 3 c) str (List.replicate 3 c) (by simp), hedited, hcolumn⟩

/-- In CIF 2, a quote that is followed by two more opens a value in triple quotes. -/
theorem ensures_scanDelimString_triple (hcfg : cfg.Standard) (hv : 2 ≤ cfg.cifVersion)
    (hc : c = UChar.sq ∨ c = UChar.dq) (hlast : str.getLast? ≠ some c)
    (hno : ¬ List.replicate 3 c <:+: str) {n : Nat} (hn : s.column + 1 ≤ n)
    (hfits : fits n str = true)
    (h : Reads cfg.cifVersion s₀ false [c] (c :: c :: (str ++ List.replicate 3 c)) tail s) :
    Ensures (scanDelimString cfg) s
      (fun _ t => t.Holds str tail ∧ Edited s₀ t
        ∧ t.column ≤ endColumn n (str ++ List.replicate 3 c))
      (fun _ _ => False) := by
  have hdelim : s.buffer s.textStart = c := by
    simpa using (h.shows.getElem? (n := 0) (by simp)).symm
  have hnl : c ≠ UChar.nl := by
    rcases hc with rfl | rfl <;> decide
  have hplain : isLead c = false := by
    rcases hc with rfl | rfl <;> decide
  rw [Ensures, scanDelimString, post_bind, post_read, post_bind, hdelim]
  refine (CifApi.ensures_scanUnits (I := fun lead t => lead = false ∧ t.column ≤ s.column
      ∧ Reads cfg.cifVersion s₀ false [c] (c :: c :: (str ++ List.replicate 3 c)) tail t)
    (Q := fun how t => how = .triple ∧ t.column ≤ n
      ∧ Reads cfg.cifVersion s₀ false (List.replicate 3 c) (str ++ List.replicate 3 c) tail t)
    ?_ ?_ ⟨rfl, Nat.le_refl _, h⟩).imp ?_ (fun _ _ he => he)
  · rintro _ t ⟨rfl, hcolumn, h⟩ hlt
    rw [Ensures, scanDelimUnit, post_bind]
    refine (h.scanUChar hcfg hlt).imp ?_ (fun _ _ he => he)
    rintro ⟨c', lead⟩ u ⟨hc', hreads, hlimit, hcol⟩
    obtain rfl : c' = c := hc'
    dsimp only
    rw [if_pos rfl, post_bind]
    refine post_peekChar hreads.shows fun b hb hlt => ?_
    dsimp only
    have hopen : b.nextChar - b.textStart = 2 := by
      have hnext := hb.nextChar_eq
      simp only [List.length_append, List.length_singleton] at hnext
      omega
    rw [post_bind, post_read, if_neg (Int.not_lt.mpr hv), if_pos (by simp [hopen]), post_bind,
      post_modify]
    have hadvance : Shows (Scanner.advance { u with toBuffer := b }).toBuffer 0 _ _ :=
      (hb : Shows (Scanner.toBuffer { u with toBuffer := b }) 0 _ _).advance hlt
    have hallowed := hreads.allowed
    rw [lastLead_concat, hplain, if_neg (by decide), isCifTextFrom, hplain, if_neg (by decide),
      Bool.and_eq_true] at hallowed
    have hpast : List.replicate 3 c' = [c'] ++ [c'] ++ [c'] := rfl
    refine ⟨rfl, ?_, hadvance, hreads.edited.trans ⟨rfl, rfl, rfl, rfl⟩, ?_, ?_⟩
    · show u.column ≤ n
      split at hcol <;> omega
    · rw [hpast, lastLead_concat, hplain]
      rfl
    · rw [hpast, lastLead_concat, hplain]
      exact hallowed.2
  · rintro _ t ⟨rfl, hcolumn, h⟩ hnext
    refine post_getMoreChars h.shows hnext fun more b hb _ hend => ?_
    cases more with
    | true => exact ⟨rfl, hcolumn, h.more hb⟩
    | false => exact absurd (hend rfl) (by simp)
  · rintro how t ⟨rfl, hcolumn, hreads⟩
    exact ensures_scanTripleDelimString hcfg hnl hlast hno hcolumn hfits hreads

/-- Such a scan ends. -/
theorem halts_scanDelimString_triple (hcfg : cfg.Standard) (hv : 2 ≤ cfg.cifVersion)
    (hc : c = UChar.sq ∨ c = UChar.dq) (hlast : str.getLast? ≠ some c)
    (hno : ¬ List.replicate 3 c <:+: str) {n : Nat} (hn : s.column + 1 ≤ n)
    (hfits : fits n str = true)
    (h : Reads cfg.cifVersion s₀ false [c] (c :: c :: (str ++ List.replicate 3 c)) tail s) :
    Halts (scanDelimString cfg) s (fun _ t => t.Holds str tail ∧ Edited s₀ t)
      (fun _ _ => False) := by
  have hensures := ensures_scanDelimString_triple hcfg hv hc hlast hno hn hfits h
  refine (Post.and hensures (returns_scanDelimString (h.shows.begun (by simp)))).imp
    (fun _ _ hq => ⟨hq.1.1, hq.1.2.1⟩) (fun _ _ he => he.1)

end Scans

end CifApi
