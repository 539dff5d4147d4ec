import CifApi.Parser.TextLines
import CifApi.Scanner.Discipline
import CifApi.Scanner.Shown

/-! Text of allowed characters only, which is scanned with nothing to report. -/
namespace CifApi

open Exec Buffer

variable {σ : Type}

/-- The characters of a version of CIF, but for carriage returns and those beyond the basic
plane. -/
def isCifUnit (cifVersion : Int) (c : UChar) : Bool :=
  c = UChar.tab || c = UChar.nl || (0x20 ≤ c && c ≤ 0x7e)
    || (2 ≤ cifVersion && ((0xa0 ≤ c && c ≤ 0xd7ff) || (0xe000 ≤ c && c ≤ 0xfdcf)
      || (0xfdf0 ≤ c && c ≤ 0xfffd && c ≠ UChar.bom)))

/-- Text of the characters of a version of CIF, where a lead surrogate may come before it. -/
def isCifTextFrom (cifVersion : Int) : Option UChar → UStr → Bool
  | none, [] => true
  | some _, [] => false
  | none, c :: rest =>
    if isLead c then 2 ≤ cifVersion && isCifTextFrom cifVersion (some c) rest
    else isCifUnit cifVersion c && isCifTextFrom cifVersion none rest
  | some u, c :: rest =>
    isTrail c && !(0x3fe ≤ c % 0x400 && u % 0x40 = 0x3f) && isCifTextFrom cifVersion none rest

/-- Text of the characters of a version of CIF other than carriage returns. -/
def isCifText (cifVersion : Int) (text : UStr) : Bool := isCifTextFrom cifVersion none text

section Units

variable {v : Int} {c : Nat}

theorem isLead_iff : isLead c = true ↔ 0xd800 ≤ c ∧ c ≤ 0xdbff := by
  rw [isLead, Bool.and_eq_true, decide_eq_true_eq, decide_eq_true_eq]

theorem isTrail_iff : isTrail c = true ↔ 0xdc00 ≤ c ∧ c ≤ 0xdfff := by
  rw [isTrail, Bool.and_eq_true, decide_eq_true_eq, decide_eq_true_eq]

theorem isCifUnit_iff : isCifUnit v c = true ↔ c = 9 ∨ c = 10 ∨ (0x20 ≤ c ∧ c ≤ 0x7e)
    ∨ (2 ≤ v ∧ ((0xa0 ≤ c ∧ c ≤ 0xd7ff) ∨ (0xe000 ≤ c ∧ c ≤ 0xfdcf)
      ∨ (0xfdf0 ≤ c ∧ c ≤ 0xfffd ∧ c ≠ 0xfeff))) := by
  simp only [isCifUnit, Bool.or_eq_true, Bool.and_eq_true, decide_eq_true_eq, or_assoc, and_assoc]

end Units

section Text

variable {v : Int} {c : UChar} {text rest : UStr} {pending : Option UChar}

theorem isLead_of_isCifUnit (h : isCifUnit v c = true) : isLead c = false ∧ isTrail c = false := by
  rw [isCifUnit_iff] at h
  rw [Bool.eq_false_iff, Bool.eq_false_iff, ne_eq, ne_eq, isLead_iff, isTrail_iff]
  omega

theorem isCifTextFrom_append (h : isCifTextFrom v pending text = true)
    (hrest : isCifText v rest = true) :
    isCifTextFrom v pending (text ++ rest) = true := by
  induction text generalizing pending with
  | nil =>
    cases pending with
    | none => exact hrest
    | some u => simp [isCifTextFrom] at h
  | cons c text ih =>
    cases pending with
    | none =>
      rw [List.cons_append, isCifTextFrom]
      rw [isCifTextFrom] at h
      split at h
      · rename_i hlead
        simp only [Bool.and_eq_true] at h
        simp [hlead, h.1, ih h.2]
      · rename_i hlead
        simp only [Bool.and_eq_true] at h
        simp [hlead, h.1, ih h.2]
    | some u =>
      rw [List.cons_append, isCifTextFrom]
      rw [isCifTextFrom, Bool.and_eq_true] at h
      rw [Bool.and_eq_true]
      exact ⟨h.1, ih h.2⟩

theorem isCifText_of_ascii (h : ∀ c ∈ text, c = UChar.tab ∨ c = UChar.nl ∨ (0x20 ≤ c ∧ c ≤ 0x7e)) :
    isCifText v text = true := by
  induction text with
  | nil => rfl
  | cons c text ih =>
    have hunit : isCifUnit v c = true := by
      rcases h c (List.mem_cons_self ..) with rfl | rfl | ⟨hlow, hhigh⟩
      · rfl
      · rfl
      · simp [isCifUnit, hlow, hhigh]
    have hrest := ih fun d hd => h d (List.mem_cons_of_mem _ hd)
    rw [isCifText, isCifTextFrom, if_neg (by simp [(isLead_of_isCifUnit hunit).1]), hunit,
      Bool.true_and]
    exact hrest

theorem unit_of_isCifTextFrom (h : isCifTextFrom v pending text = true) :
    ∀ c ∈ text, isLead c = true ∨ isTrail c = true ∨ isCifUnit v c = true := by
  induction text generalizing pending with
  | nil => exact List.forall_mem_nil _
  | cons c text ih =>
    rw [List.forall_mem_cons]
    cases pending with
    | none =>
      rw [isCifTextFrom] at h
      split at h
      · rename_i hlead
        rw [Bool.and_eq_true] at h
        exact ⟨.inl hlead, ih h.2⟩
      · rw [Bool.and_eq_true] at h
        exact ⟨.inr (.inr h.1), ih h.2⟩
    | some u =>
      rw [isCifTextFrom, Bool.and_eq_true, Bool.and_eq_true] at h
      exact ⟨.inr (.inl h.1.1), ih h.2⟩

theorem cr_notMem_of_isCifTextFrom (h : isCifTextFrom v pending text = true) : UChar.cr ∉ text := by
  intro hmem
  rcases unit_of_isCifTextFrom h _ hmem with hlead | htrail | hunit
  · exact absurd hlead (by decide)
  · exact absurd htrail (by decide)
  · rw [isCifUnit_iff] at hunit
    simp [UChar.cr] at hunit

theorem zero_notMem_of_isCifTextFrom (h : isCifTextFrom v pending text = true) : 0 ∉ text := by
  intro hmem
  rcases unit_of_isCifTextFrom h _ hmem with hlead | htrail | hunit
  · exact absurd hlead (by decide)
  · exact absurd htrail (by decide)
  · rw [isCifUnit_iff] at hunit
    omega

end Text

/-- The lead surrogate that text ends with. -/
def lastLead (past : List UChar) : Option UChar := past.getLast?.filter isLead

@[simp] theorem lastLead_concat (past : List UChar) (c : UChar) :
    lastLead (past ++ [c]) = if isLead c then some c else none := by
  simp [lastLead, Option.filter]

/-- A scan that began as `s` has come to `t` with nothing to report: `text` comes next, and then
`tail`. -/
structure Reads (v : Int) (s : Scanner σ) (lead : Bool) (past text tail : List UChar)
    (t : Scanner σ) : Prop where
  shows : Shows t.toBuffer 0 past (text ++ tail)
  edited : Edited s t
  lead_eq : lead = (lastLead past).isSome
  allowed : isCifTextFrom v (lastLead past) text = true

section Reading

variable {cfg : Config σ} {s t : Scanner σ} {past rest text tail : List UChar} {c : UChar}
  {lead : Bool} {E : Int → Scanner σ → Prop}

theorem Edited.refl (s : Scanner σ) : Edited s s := ⟨rfl, rfl, rfl, rfl⟩

theorem Edited.trans {u : Scanner σ} (h : Edited s t) (h' : Edited t u) : Edited s u :=
  ⟨h'.1.trans h.1, h'.2.1.trans h.2.1, h'.2.2.1.trans h.2.2.1, h'.2.2.2.trans h.2.2.2⟩

theorem addColumn_one_le (n : Nat) : Scanner.addColumn n 1 ≤ n + 1 := by
  unfold Scanner.addColumn
  omega

theorem addColumn_two_le (n : Nat) : Scanner.addColumn (Scanner.addColumn n 1) 1 ≤ n + 2 :=
  Nat.le_trans (addColumn_one_le _) (Nat.succ_le_succ (addColumn_one_le n))

theorem addColumn_back_le (n : Nat) : Scanner.addColumn (Scanner.addColumn n 1) (-1) ≤ n := by
  unfold Scanner.addColumn
  omega

/-- The tables disallow no character of CIF. -/
theorem Config.Standard.isDisallowedUnit_eq (h : cfg.Standard) {c : Nat}
    (hc : isCifUnit cfg.cifVersion c = true ∨ isLead c = true) :
    isDisallowedUnit cfg c = false := by
  have htable : ∀ d < charTableMax, (d = 9 ∨ d = 10 ∨ (0x20 ≤ d ∧ d ≤ 0x7e)) →
      charClassV2 [] [] d ≠ .no ∧ charClassV1 (charClassV2 [] []) d ≠ .no := by decide +kernel
  rw [isCifUnit_iff, isLead_iff] at hc
  by_cases hlt : c < charTableMax
  · have hmax : charTableMax = 160 := rfl
    obtain ⟨h2, h1⟩ := htable c hlt (by omega)
    rw [isDisallowedUnit, if_pos hlt]
    rcases h with heq | heq
    · simpa [heq] using h2
    · simpa [heq] using h1
  · have hno : ¬ (c = 0xfffe ∨ c = 0xffff ∨ c = 0xfeff ∨ (0xfdd0 ≤ c ∧ c ≤ 0xfdef)) := by omega
    rw [isDisallowedUnit, if_neg hlt, Bool.eq_false_iff]
    simp only [ne_eq, Bool.or_eq_true, Bool.and_eq_true, decide_eq_true_eq, or_assoc]
    exact hno

theorem not_nonchar {c u : Nat} (h : ¬ (0x3fe ≤ c % 0x400 ∧ u % 0x40 = 0x3f)) :
    ¬ ((c = 0xdffe ∨ c = 0xdfff) ∧ u % 0x40 = 0x3f) := by
  omega

theorem isLead_of_isTrail {c : Nat} (h : isTrail c = true) : isLead c = false := by
  rw [isTrail_iff] at h
  rw [Bool.eq_false_iff, ne_eq, isLead_iff]
  omega

theorem isTrail_of_isLead {c : Nat} (h : isLead c = true) : isTrail c = false := by
  rw [isLead_iff] at h
  rw [Bool.eq_false_iff, ne_eq, isTrail_iff]
  omega

theorem le_of_isCifUnit {v : Int} {c : Nat} (h : isCifUnit v c = true) : 2 ≤ v ∨ c ≤ 0x7e := by
  rw [isCifUnit_iff] at h
  omega

/-- The column after a unit; a trail surrogate does not count. -/
def columnAfter (c : UChar) (column : Nat) : Nat :=
  if isTrail c then Scanner.addColumn (Scanner.addColumn column 1) (-1)
    else Scanner.addColumn column 1

theorem columnAfter_le (c : UChar) (column : Nat) :
    columnAfter c column ≤ column + (if isTrail c then 0 else 1) := by
  unfold columnAfter
  split
  · exact addColumn_back_le column
  · exact addColumn_one_le column

/-- A unit of allowed text is passed as it is. -/
theorem Reads.scanUChar_column (hcfg : cfg.Standard)
    (h : Reads cfg.cifVersion s lead past (c :: text) tail t) (hlt : t.nextChar < t.bufferLimit) :
    Ensures (CifApi.scanUChar cfg lead) t (fun r u => r.1 = c
      ∧ Reads cfg.cifVersion s r.2 (past ++ [c]) text tail u
      ∧ u.bufferLimit = t.bufferLimit ∧ u.column = columnAfter c t.column) E := by
  have hshows := h.shows
  rw [List.cons_append] at hshows
  have hunit : (t.incColumn 1).nextUnit = c := hshows.nextUnit_eq hlt
  have hadvance := hshows.advance hlt
  rw [Ensures, CifApi.scanUChar, post_bind, post_modify, post_bind, post_read, hunit]
  have hallowed := h.allowed
  have hlead := h.lead_eq
  dsimp only
  cases hlast : lastLead past with
  | some u =>
    rw [hlast, isCifTextFrom, Bool.and_eq_true, Bool.and_eq_true] at hallowed
    obtain ⟨⟨htrail, hpair⟩, hrest⟩ := hallowed
    rw [hlast, Option.isSome_some] at hlead
    obtain ⟨before, last, rfl⟩ :=
      List.eq_nil_or_concat past |>.resolve_left (by rintro rfl; simp [lastLead] at hlast)
    rw [List.concat_eq_append] at *
    have hprev : (t.incColumn 1).prevUnit = u := by
      rw [lastLead_concat] at hlast
      split at hlast
      · exact hshows.prevUnit_eq.trans (Option.some.inj hlast)
      · simp at hlast
    have hnot : ¬ (((decide (c = 0xdffe) || decide (c = 0xdfff)) && decide (u % 0x40 = 0x3f))
        = true) := by
      simp only [Bool.not_eq_true', ← Bool.not_eq_true, Bool.and_eq_true,
        decide_eq_true_eq] at hpair
      simp only [Bool.and_eq_true, Bool.or_eq_true, decide_eq_true_eq]
      exact not_nonchar hpair
    have hnoLead := isLead_of_isTrail htrail
    rw [if_pos htrail, if_pos hlead, hprev, post_bind, post_when]
    refine ⟨fun hbad => absurd hbad hnot, fun _ => ?_⟩
    rw [post_bind, post_modify]
    refine ⟨rfl, ⟨hadvance, h.edited.trans ⟨rfl, rfl, rfl, rfl⟩, ?_, ?_⟩, rfl, ?_⟩
    · rw [lastLead_concat, hnoLead]
      rfl
    · rw [lastLead_concat, hnoLead]
      exact hrest
    · rw [columnAfter, if_pos htrail]
      rfl
  | none =>
    rw [hlast, Option.isSome_none] at hlead
    rw [hlast, isCifTextFrom] at hallowed
    have hclass : isTrail c = false ∧ (isCifUnit cfg.cifVersion c = true ∨ isLead c = true)
        ∧ ¬ ((decide (cfg.cifVersion < 2) && decide (0x7e < c)) = true)
        ∧ isCifTextFrom cfg.cifVersion (if isLead c then some c else none) text = true := by
      split at hallowed
      · rename_i hisLead
        simp only [Bool.and_eq_true, decide_eq_true_eq] at hallowed
        refine ⟨isTrail_of_isLead hisLead, .inr hisLead, ?_,
          by rw [if_pos hisLead]; exact hallowed.2⟩
        simp only [Bool.and_eq_true, decide_eq_true_eq]
        omega
      · rename_i hisLead
        rw [Bool.and_eq_true] at hallowed
        refine ⟨(isLead_of_isCifUnit hallowed.1).2, .inl hallowed.1, ?_,
          by rw [if_neg hisLead]; exact hallowed.2⟩
        simp only [Bool.and_eq_true, decide_eq_true_eq]
        rintro ⟨hv, hhigh⟩
        rcases le_of_isCifUnit hallowed.1 with hle | hle
        · omega
        · exact absurd hhigh (Nat.not_lt.mpr hle)
    obtain ⟨htrail, hunit', hversion, hrest⟩ := hclass
    rw [if_neg (by simp [htrail]), post_bind, checkUnit, post_bind, post_read, post_bind, post_when]
    refine ⟨fun hbad => absurd hbad (by simp [hcfg.isDisallowedUnit_eq hunit']), fun _ => ?_⟩
    rw [post_when]
    refine ⟨fun hbad => absurd hbad hversion, fun _ => ?_⟩
    rw [post_bind, handleUnpairedLead, post_when]
    refine ⟨fun hbad => absurd (hlead.symm.trans hbad) (by decide), fun _ => ?_⟩
    rw [post_bind, post_modify]
    refine ⟨rfl, ⟨hadvance, h.edited.trans ⟨rfl, rfl, rfl, rfl⟩, ?_, ?_⟩, rfl, ?_⟩
    · rw [lastLead_concat]
      cases isLead c <;> rfl
    · rw [lastLead_concat]
      exact hrest
    · rw [columnAfter, if_neg (by simp [htrail])]
      rfl

theorem Reads.scanUChar (hcfg : cfg.Standard)
    (h : Reads cfg.cifVersion s lead past (c :: text) tail t) (hlt : t.nextChar < t.bufferLimit) :
    Ensures (CifApi.scanUChar cfg lead) t (fun r u => r.1 = c
      ∧ Reads cfg.cifVersion s r.2 (past ++ [c]) text tail u
      ∧ u.bufferLimit = t.bufferLimit ∧ u.column ≤ t.column + (if isTrail c then 0 else 1)) E := by
  refine (h.scanUChar_column hcfg hlt).imp ?_ (fun _ _ he => he)
  rintro r u ⟨hc, hreads, hlimit, hcolumn⟩
  exact ⟨hc, hreads, hlimit, hcolumn ▸ columnAfter_le c t.column⟩

theorem Reads.more {b : Buffer} (h : Reads cfg.cifVersion s lead past text tail t)
    (hb : Shows b 0 past (text ++ tail)) :
    Reads cfg.cifVersion s lead past text tail { t with toBuffer := b } :=
  ⟨hb, h.edited, h.lead_eq, h.allowed⟩

/-- Peeking tells the next character, whether or not it was buffered. -/
theorem post_peekChar {cut : Prop} {start : Nat} (h : Shows s.toBuffer start past (c :: rest))
    {Q : Option UChar → Scanner σ → Prop}
    (hQ : ∀ b, Shows b start past (c :: rest) → b.nextChar < b.bufferLimit →
      Q (some c) { s with toBuffer := b }) :
    Post cut (peekChar cfg) s Q E := by
  rw [peekChar, post_bind, post_read]
  split
  · rename_i hnext
    split
    · rename_i heof
      have hrest := h.rest_prefix
      rw [h.sound.eof heof, Nat.le_antisymm h.sound.next_le hnext] at hrest
      simp at hrest
    · rw [post_bind]
      refine post_getMoreChars h hnext fun more b hb hok hend => ?_
      cases more with
      | true =>
        have hlt := hok rfl
        have hQb := hQ b hb hlt
        rw [(hb.of_lt hlt).1] at hQb
        exact hQb
      | false => exact absurd (hend rfl) (List.cons_ne_nil c rest)
  · rename_i hnext
    have hlt : s.nextChar < s.bufferLimit := by omega
    have hQs := hQ s.toBuffer h hlt
    rw [(h.of_lt hlt).1] at hQs
    exact hQs

theorem post_nextChar {cut : Prop} (h : Shows s.toBuffer 0 past (c :: rest))
    {Q : Option UChar → Scanner σ → Prop}
    (hQ : ∀ t, Shows t.toBuffer 0 (past ++ [c]) rest → Edited s t →
      t.column = Scanner.addColumn s.column 1 → Q (some c) t) :
    Post cut (nextChar cfg) s Q E := by
  rw [nextChar, post_bind]
  refine post_peekChar h fun b hb hlt => ?_
  dsimp only
  rw [post_bind, post_modify]
  have hadvance : Shows (Scanner.advance { s with toBuffer := b }).toBuffer 0 (past ++ [c]) rest :=
    (hb : Shows (Scanner.toBuffer { s with toBuffer := b }) 0 past (c :: rest)).advance hlt
  exact hQ _ hadvance ⟨rfl, rfl, rfl, rfl⟩ rfl

end Reading

end CifApi
