import CifApi.Parser.TextLines
import CifApi.Scanner.Shown

/-! Where `scan_text` ends a text field. -/
namespace CifApi

open Exec Buffer

variable {σ : Type}

/-- The current token ends with a closing delimiter of two units, and `after` is what comes after
it. -/
structure Scanner.ClosesText (length : Nat) (after : List UChar) (s : Scanner σ) : Prop where
  tvalueStart : s.tvalueStart = s.textStart + 1
  tvalueLength : s.tvalueLength = length
  nextChar : s.nextChar = s.tvalueStart + s.tvalueLength + 2
  rest : after <+: s.slice s.nextChar s.bufferLimit ++ s.charSource.flatten

section ScanText

variable {cfg : Config σ} {s : Scanner σ} {body after : List UChar}

/-- Part of the text of a field has been scanned: at most up to the line feed of its closing
delimiter. -/
structure InText (body after : List UChar) (st : Bool × Nat) (s : Scanner σ)
    (scanned past rest : List UChar) : Prop where
  text_eq : body ++ UChar.nl :: UChar.semi :: after = scanned ++ rest
  covers : Covers s.toBuffer (UChar.semi :: scanned) rest past
  no_cr : UChar.cr ∉ past
  length_le : scanned.length ≤ body.length + 1
  sol_iff : st.2 ≠ 0 ↔ scanned.getLast? = some UChar.nl

/-- Where the whole of the text and the line feed have been scanned, the rest begins with a
semicolon. -/
theorem InText.eq_of_length {st : Bool × Nat} {scanned past rest : List UChar}
    (h : InText body after st s scanned past rest) (hlen : scanned.length = body.length + 1) :
    scanned = body ++ [UChar.nl] ∧ rest = UChar.semi :: after := by
  have heq := h.text_eq
  rw [show body ++ UChar.nl :: UChar.semi :: after = (body ++ [UChar.nl]) ++ UChar.semi :: after by
    simp] at heq
  obtain ⟨h1, h2⟩ := List.append_inj heq (by simp [hlen])
  exact ⟨h1.symm, h2.symm⟩

/-- A line feed that a semicolon follows is the one that ends the text. -/
theorem InText.closes {st : Bool × Nat} {scanned past rest : List UChar}
    (hbody : ¬ [UChar.nl, UChar.semi] <:+: body)
    (h : InText body after st s scanned past (UChar.semi :: rest)) (hsol : st.2 ≠ 0) :
    scanned = body ++ [UChar.nl] ∧ rest = after := by
  by_cases hlen : scanned.length = body.length + 1
  · obtain ⟨h1, h2⟩ := h.eq_of_length hlen
    exact ⟨h1, (List.cons.inj h2).2⟩
  · have hle := h.length_le
    have heq := h.text_eq
    obtain ⟨before, rfl⟩ := List.getLast?_eq_some_iff.mp (h.sol_iff.mp hsol)
    rw [List.append_eq_append_iff] at heq
    rcases heq with ⟨mid, hmid, hrest⟩ | ⟨mid, hmid, hrest⟩
    · -- the line feed of the closing delimiter is not a semicolon
      have hnil : mid = [] := by
        have hlenmid := congrArg List.length hmid
        simp only [List.length_append, List.length_singleton] at hlenmid hlen hle
        exact List.eq_nil_of_length_eq_zero (by omega)
      subst hnil
      exact absurd (List.cons.inj hrest).1 (by decide)
    · cases mid with
      | nil => exact absurd (List.cons.inj hrest).1 (by decide)
      | cons d mid =>
        obtain ⟨rfl, _⟩ := List.cons.inj hrest
        refine absurd ⟨before, mid, ?_⟩ hbody
        simp [hmid]

/-- One unit more of the text has been scanned. -/
theorem InText.next {st : Bool × Nat} {scanned past rest past' : List UChar} {c d : UChar}
    {t : Scanner σ} {sol : Nat} {lead : Bool} (h : InText body after st s scanned past (d :: rest))
    (hcovers : Covers t.toBuffer (past ++ [c]) rest past') (hcr : c ≠ UChar.cr)
    (hinside : scanned.length ≠ body.length + 1) (hsol : sol ≠ 0 ↔ d = UChar.nl) :
    InText body after (lead, sol) t (scanned ++ [d]) past' rest where
  text_eq := by simp [h.text_eq]
  covers := by
    refine ⟨hcovers.shows, ?_, fun _ => ?_⟩
    · rw [hcovers.length_eq, List.length_append, h.covers.length_eq]
      simp
    · exact hcovers.no_cr (List.not_mem_append h.no_cr (mt List.mem_singleton.mp hcr.symm))
  no_cr := hcovers.no_cr (List.not_mem_append h.no_cr (mt List.mem_singleton.mp hcr.symm))
  length_le := by
    have hle := h.length_le
    rw [List.length_append, List.length_singleton]
    omega
  sol_iff := by simpa using hsol

theorem InText.rest_ne_nil {st : Bool × Nat} {scanned past rest : List UChar}
    (h : InText body after st s scanned past rest) : rest ≠ [] := by
  rintro rfl
  have hle := h.length_le
  have hlen := congrArg List.length h.text_eq
  simp only [List.length_append, List.length_cons, List.length_nil] at hlen
  omega

theorem InText.past_ne_nil {st : Bool × Nat} {scanned past rest : List UChar}
    (h : InText body after st s scanned past rest) : past ≠ [] := by
  have hlen := h.covers.length_eq
  rintro rfl
  simp at hlen

/-- What one unit of the text is scanned as. -/
theorem ensures_scanTextUnit (hcfg : cfg.Standard) (hbody : ¬ [UChar.nl, UChar.semi] <:+: body)
    {st : Bool × Nat} {scanned past rest : List UChar}
    (h : InText body after st s scanned past rest) (hlt : s.nextChar < s.bufferLimit) :
    Ensures (scanTextUnit cfg st) s (Round
      (fun st' t => (∃ scanned past rest, InText body after st' t scanned past rest)
        ∧ t.bufferLimit = s.bufferLimit)
      (fun size t => size = 2 ∧ ∃ past, Shows t.toBuffer 0 past after
        ∧ past.length = body.length + 3))
      fun e _ => cfg.Answers e := by
  have hcls : UChar.nl ≠ UChar.semi := by decide
  obtain ⟨d, rest, rfl⟩ := List.exists_cons_of_ne_nil h.rest_ne_nil
  have hdcr : d ≠ UChar.cr := by
    rintro rfl
    exact h.covers.shows.no_cr (List.mem_cons_self ..)
  rw [Ensures, scanTextUnit, post_bind]
  refine (ensures_scanUChar h.covers.shows hlt h.past_ne_nil).imp ?_ (fun _ _ he => he)
  rintro ⟨c, lead⟩ t ⟨⟨past', hcovers⟩, hc, hlimit⟩
  -- what stands in for an unpaired surrogate is neither a semicolon nor a line terminator
  have hcd : c = d ∨ (d ≠ UChar.nl ∧ d ≠ UChar.semi ∧ cfg.classOf c ≠ .semi ∧ cfg.classOf c ≠ .eol
      ∧ c ≠ UChar.cr) := by
    rcases hc with rfl | ⟨htrail, rfl⟩
    · exact .inl rfl
    · refine .inr ⟨?_, ?_, ?_, ?_, replChar_ne_cr _⟩
      · rintro rfl
        exact absurd htrail (by decide)
      · rintro rfl
        exact absurd htrail (by decide)
      · rw [ne_eq, hcfg.classOf_semi_iff]
        unfold replChar
        split <;> decide
      · rw [ne_eq, hcfg.classOf_eol_iff]
        unfold replChar
        split <;> decide
  have hinside : d ≠ UChar.semi → scanned.length ≠ body.length + 1 := by
    intro hne hlen
    exact hne (List.cons.inj (h.eq_of_length hlen).2).1
  dsimp only at hcovers ⊢
  split
  · rename_i hclass
    obtain rfl := hcd.resolve_right fun hno => hno.2.2.1 hclass
    obtain rfl := hcfg.classOf_semi_iff.mp hclass
    split
    · rename_i hsol
      obtain ⟨hscanned, rfl⟩ := h.closes hbody hsol
      rw [post_bind, post_read]
      have hlen := hcovers.length_eq
      rw [List.length_append, h.covers.length_eq, hscanned] at hlen
      simp only [List.length_append, List.length_cons, List.length_nil] at hlen
      have hno : (decide (t.buffer (t.nextChar - 2) = UChar.nl)
          && decide (t.buffer (t.nextChar - 3) = UChar.cr)) = false := by
        have hnext := hcovers.shows.nextChar_eq
        have hget := hcovers.shows.getElem? (n := body.length) (by omega)
        have hcr : t.buffer (t.nextChar - 3) ≠ UChar.cr := by
          intro heq
          rw [show t.textStart + body.length = t.nextChar - 3 by omega, heq] at hget
          exact hcovers.no_cr (List.not_mem_append h.no_cr (mt List.mem_singleton.mp hdcr.symm))
            (List.mem_of_getElem? hget)
        simp [hcr]
      rw [hno]
      exact ⟨rfl, past', hcovers.shows, by omega⟩
    · rename_i hsol
      have hsol0 : st.2 = 0 := not_not.mp hsol
      refine ⟨⟨_, _, _, h.next hcovers hdcr ?_ (by simp [hsol0, hcls.symm])⟩, hlimit⟩
      intro hlen
      obtain ⟨hscanned, _⟩ := h.eq_of_length hlen
      exact hsol (h.sol_iff.mpr (by simp [hscanned]))
  · rename_i hclass
    obtain rfl := hcd.resolve_right fun hno => hno.2.2.2.1 hclass
    obtain rfl := (hcfg.classOf_eol_iff.mp hclass).resolve_right hdcr
    rw [post_bind]
    refine ensures_handleEol.imp (fun sol u hu => ?_) (fun _ _ he => he)
    obtain ⟨hu, hsol⟩ := hu
    have hnz := hsol rfl
    refine ⟨⟨_, _, _, h.next (hu ▸ hcovers) hdcr (hinside hcls) (by simp; omega)⟩, ?_⟩
    exact (congrArg Buffer.bufferLimit hu).trans hlimit
  · rename_i hsemi heol
    have hnotNl : d ≠ UChar.nl := by
      rcases hcd with rfl | hno
      · rintro rfl
        exact heol (hcfg.classOf_eol_iff.mpr (.inl rfl))
      · exact hno.1
    have hnotSemi : d ≠ UChar.semi := by
      rcases hcd with rfl | hno
      · rintro rfl
        exact hsemi (hcfg.classOf_semi_iff.mpr rfl)
      · exact hno.2.1
    have hcr : c ≠ UChar.cr := by
      rcases hcd with rfl | hno
      · exact hdcr
      · exact hno.2.2.2.2
    exact ⟨⟨_, _, _, h.next hcovers hcr (hinside hnotSemi) (by simp [hnotNl])⟩, hlimit⟩

/-- A text field ends at the first line after its own first that begins with a semicolon. -/
theorem halts_scanText (hcfg : cfg.Standard) (hbody : ¬ [UChar.nl, UChar.semi] <:+: body)
    (h : Shows s.toBuffer 0 [UChar.semi] (body ++ UChar.nl :: UChar.semi :: after)) :
    Halts (scanText cfg) s (fun _ t => t.ClosesText body.length after) fun e _ =>
      cfg.Answers e := by
  have hensures : Ensures (scanText cfg) s (fun _ t => t.ClosesText body.length after) fun e _ =>
      cfg.Answers e := by
    have hstart : InText body after (false, 0) s [] [UChar.semi]
        (body ++ UChar.nl :: UChar.semi :: after) :=
      ⟨rfl, ⟨h, rfl, id⟩, by decide, Nat.zero_le _, by simp⟩
    rw [Ensures, scanText, post_bind]
    refine (ensures_scanUnits (I := fun st t => ∃ scanned past rest,
      InText body after st t scanned past rest)
      (Q := fun size t => size = 2 ∧ ∃ past, Shows t.toBuffer 0 past after
        ∧ past.length = body.length + 3)
      ?_ ?_ ⟨_, _, _, hstart⟩).imp ?_ (fun _ _ he => he)
    · rintro st t ⟨scanned, past, rest, hin⟩ hlt
      exact ensures_scanTextUnit hcfg hbody hin hlt
    · rintro st t ⟨scanned, past, rest, hin⟩ hnext
      refine post_getMoreChars hin.covers.shows hnext fun more b hb _ hend => ?_
      cases more with
      | true =>
        exact ⟨scanned, past, rest, hin.text_eq, ⟨hb, hin.covers.length_eq, hin.covers.no_cr⟩,
          hin.no_cr, hin.length_le, hin.sol_iff⟩
      | false => exact absurd (hend rfl) hin.rest_ne_nil
    · rintro size t ⟨rfl, past, hshows, hlen⟩
      have hnext := hshows.nextChar_eq
      have hvalue := hshows.value_eq
      rw [post_modify]
      refine ⟨?_, ?_, ?_, hshows.rest_prefix⟩
      · show t.tvalueStart + 1 = t.textStart + 1
        rw [hvalue]
      · show t.nextChar - (t.tvalueStart + 1) - 2 = body.length
        omega
      · show t.nextChar = t.tvalueStart + 1 + (t.nextChar - (t.tvalueStart + 1) - 2) + 2
        omega
  exact (Post.and hensures (returns_scanText (v := cfg.cifVersion) (h.begun (by simp)))).imp
    (fun _ _ hq => hq.1) (fun _ _ he => he.1)

end ScanText

end CifApi
