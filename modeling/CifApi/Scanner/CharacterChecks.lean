import CifApi.Scanner.CifText

/-! The characters that the library refuses in names and keys, and those that the scanner
reports. -/
namespace CifApi

open Exec

variable {σ : Type}

/-- Whether an event is a call of the error callback about a character. -/
def Event.isCharReport : Event σ → Bool
  | .error r _ _ => r.code = Code.disallowedChar || r.code = Code.invalidChar
  | _ => false

/-- How many characters have been reported. -/
def Scanner.charReports (s : Scanner σ) : Nat := s.log.countP Event.isCharReport

/-- `SCAN_UCHAR` on the next `n` units, the flag that each leaves being for the one after it. -/
def scanUChars (cfg : Config σ) : Nat → Bool → Parse σ Bool
  | 0, lead => pure lead
  | n + 1, lead => do
    let (_, lead) ← scanUChar cfg lead
    scanUChars cfg n lead

/-- The units come next in the buffer. -/
def Scanner.TextLeft (s : Scanner σ) (text : List UChar) : Prop :=
  ∀ i c, text[i]? = some c → s.buffer (s.nextChar + i) = c

/-- Whether `SCAN_UCHAR` reports a unit, with a lead surrogate before it or not. -/
def reportsUnit (cfg : Config σ) (pending : Option UChar) (c : UChar) : Bool :=
  if isTrail c then
    match pending with
    | some u => (c = 0xdffe || c = 0xdfff) && u % 0x40 = 0x3f
    | none => true
  else isDisallowedUnit cfg c || (cfg.cifVersion < 2 && 0x7e < c) || pending.isSome

/-- Whether it reports one of some units. -/
def reportsUnits (cfg : Config σ) : Option UChar → List UChar → Bool
  | _, [] => false
  | pending, c :: rest =>
    reportsUnit cfg pending c || reportsUnits cfg (if isLead c then some c else none) rest

section Scanning

variable {cfg : Config σ} {s t : Scanner σ} {pending : Option UChar} {c : UChar}
  {text rest : List UChar}

/-- A report about a character is one more, whether or not it ends the parse. -/
theorem halts_report {code : Int} {line column : Nat} {units : List UChar}
    (hcode : code = Code.disallowedChar ∨ code = Code.invalidChar) :
    Halts (report cfg code line column units) s
      (fun _ t => t.toBuffer = s.toBuffer ∧ t.charReports = s.charReports + 1)
      (fun _ t => t.charReports = s.charReports + 1) := by
  have hcount : ∀ w reply, (s.after w (.error ⟨code, line, column, units⟩ reply w)).charReports
      = s.charReports + 1 := by
    intro w reply
    have hreport : (Event.error ⟨code, line, column, units⟩ reply w : Event σ).isCharReport
        = true := by
      simpa [Event.isCharReport] using hcode
    exact List.countP_cons_of_pos hreport
  rw [Halts, post_report, post_errorCallback]
  exact ⟨fun _ => ⟨rfl, hcount _ _⟩, fun _ => hcount _ _⟩

theorem halts_when_report {p : Prop} [Decidable p] {code : Int} {line column : Nat}
    {units : List UChar} (hcode : code = Code.disallowedChar ∨ code = Code.invalidChar) :
    Halts (when p (report cfg code line column units)) s
      (fun _ t => t.toBuffer = s.toBuffer ∧ t.charReports = s.charReports + if p then 1 else 0)
      (fun _ t => p ∧ t.charReports = s.charReports + 1) := by
  rw [Halts, post_when]
  constructor
  · intro hp
    rw [if_pos hp]
    exact (halts_report hcode).imp (fun _ _ h => h) (fun _ _ h => ⟨hp, h⟩)
  · intro hp
    rw [if_neg hp]
    exact ⟨rfl, rfl⟩

/-- What a unit scanned leaves: the units after it, itself if it is a lead surrogate, and whether it
was reported. -/
structure PassedUnit (cfg : Config σ) (pending : Option UChar) (c : UChar) (s : Scanner σ)
    (lead : Bool) (t : Scanner σ) : Prop where
  lead_eq : lead = isLead c
  next : t.nextChar = s.nextChar + 1
  same : ∀ i, s.nextChar < i → t.buffer i = s.buffer i
  kept : isLead c = true → t.buffer s.nextChar = c
  reports : if reportsUnit cfg pending c then s.charReports < t.charReports
    else t.charReports = s.charReports

theorem write_other {mem : Nat → UChar} {start i : Nat} (h : i ≠ start) :
    write mem start [c] i = mem i := by
  unfold write
  split
  · rw [List.getElem?_eq_none (by simp; omega)]
    rfl
  · rfl

/-- A trail surrogate after a lead one. -/
theorem halts_scanUChar_pair {u : UChar} (hnext : s.nextUnit = c) (hprev : s.prevUnit = u)
    (htrail : isTrail c = true) :
    Halts (scanUChar cfg true) s (fun r t => PassedUnit cfg (some u) c s r.2 t)
      (fun _ t => reportsUnit cfg (some u) c = true ∧ s.charReports < t.charReports) := by
  have hunit : (s.incColumn 1).nextUnit = c := hnext
  have hbefore : (s.incColumn 1).prevUnit = u := hprev
  have hnoLead := isLead_of_isTrail htrail
  have hreports : reportsUnit cfg (some u) c = ((c = 0xdffe || c = 0xdfff) && u % 0x40 = 0x3f) := by
    rw [reportsUnit, if_pos htrail]
  rw [Halts, scanUChar, post_bind, post_modify, post_bind, post_read, hunit]
  dsimp only
  rw [if_pos htrail, if_pos rfl, hbefore, post_bind]
  refine (halts_when_report (.inl rfl)).imp ?_ ?_
  · rintro _ t ⟨hbuffer, hcount⟩
    rw [post_bind, post_modify, post_pure]
    refine ⟨hnoLead.symm, ?_, ?_, fun hlead => absurd hlead (by simp [hnoLead]), ?_⟩
    · exact congrArg (·.nextChar + 1) hbuffer
    · exact fun i _ => congrArg (·.buffer i) hbuffer
    · have hafter : ((t.incColumn (-1)).advance).charReports = t.charReports := rfl
      rw [hreports, hafter, hcount]
      split <;> simp_all [Scanner.charReports, Scanner.incColumn]
  · rintro _ t ⟨hbad, hcount⟩
    refine ⟨hreports.trans hbad, ?_⟩
    rw [hcount]
    exact Nat.lt_succ_self _

/-- One without a lead surrogate before it. -/
theorem halts_scanUChar_trail (hnext : s.nextUnit = c) (htrail : isTrail c = true) :
    Halts (scanUChar cfg false) s (fun r t => PassedUnit cfg none c s r.2 t)
      (fun _ t => reportsUnit cfg none c = true ∧ s.charReports < t.charReports) := by
  have hunit : (s.incColumn 1).nextUnit = c := hnext
  have hnoLead := isLead_of_isTrail htrail
  have hreports : reportsUnit cfg none c = true := by
    rw [reportsUnit, if_pos htrail]
  rw [Halts, scanUChar, post_bind, post_modify, post_bind, post_read, hunit]
  dsimp only
  rw [if_pos htrail, if_neg (by decide), post_bind]
  refine (halts_report (.inr rfl)).imp ?_ ?_
  · rintro _ t ⟨hbuffer, hcount⟩
    have hchar : t.nextChar = s.nextChar := congrArg (·.nextChar) hbuffer
    rw [post_bind, post_modify, post_pure]
    refine ⟨hnoLead.symm, congrArg (· + 1) hchar, ?_, fun hlead => absurd hlead (by simp [hnoLead]),
      ?_⟩
    · intro i hi
      have hold : t.buffer i = s.buffer i := congrArg (·.buffer i) hbuffer
      have hwrite : write t.buffer t.nextChar [replChar cfg.cifVersion] i = t.buffer i :=
        write_other (by rw [hchar]; exact Nat.ne_of_gt hi)
      exact hwrite.trans hold
    · rw [if_pos hreports]
      exact Nat.lt_of_lt_of_eq (Nat.lt_succ_self _) hcount.symm
  · rintro _ t hcount
    exact ⟨hreports, Nat.lt_of_lt_of_eq (Nat.lt_succ_self _) hcount.symm⟩

theorem halts_handleUnpairedLead {lead : Bool} (hlead : lead = true → 0 < s.nextChar) :
    Halts (handleUnpairedLead cfg lead) s
      (fun _ t => t.nextChar = s.nextChar ∧ (∀ i, s.nextChar ≤ i → t.buffer i = s.buffer i)
        ∧ t.charReports = s.charReports + if lead then 1 else 0)
      (fun _ t => lead = true ∧ t.charReports = s.charReports + 1) := by
  rw [Halts, handleUnpairedLead, post_when]
  constructor
  · intro htrue
    rw [post_bind, post_read, post_bind]
    refine (halts_report (.inr rfl)).imp ?_ (fun _ _ hcount => ⟨htrue, hcount⟩)
    rintro _ t ⟨hbuffer, hcount⟩
    have hchar : t.nextChar = s.nextChar := congrArg (·.nextChar) hbuffer
    rw [post_modify, if_pos htrue]
    refine ⟨hchar, fun i hi => ?_, hcount⟩
    have hpos := hlead htrue
    have hwrite : write t.buffer (t.nextChar - 1) [replChar cfg.cifVersion] i = t.buffer i :=
      write_other (by omega)
    exact hwrite.trans (congrArg (·.buffer i) hbuffer)
  · intro hfalse
    rw [if_neg hfalse]
    exact ⟨rfl, fun _ _ => rfl, rfl⟩

/-- Any other unit, after a lead surrogate that now is alone or not. -/
theorem halts_scanUChar_other (hnext : s.nextUnit = c)
    (hpending : pending.isSome = true → 0 < s.nextChar) (htrail : isTrail c = false) :
    Halts (scanUChar cfg pending.isSome) s (fun r t => PassedUnit cfg pending c s r.2 t)
      (fun _ t => reportsUnit cfg pending c = true ∧ s.charReports < t.charReports) := by
  have hunit : (s.incColumn 1).nextUnit = c := hnext
  have hreports : reportsUnit cfg pending c
      = (isDisallowedUnit cfg c || (cfg.cifVersion < 2 && 0x7e < c) || pending.isSome) := by
    simp only [reportsUnit, htrail, Bool.false_eq_true, if_false]
  have hcount : (s.incColumn 1).charReports = s.charReports := rfl
  rw [Halts, scanUChar, post_bind, post_modify, post_bind, post_read, hunit]
  dsimp only
  rw [if_neg (by simp [htrail]), post_bind, checkUnit, post_bind, post_read, post_bind]
  refine (halts_when_report (.inl rfl)).imp ?_ ?_
  · rintro _ t₁ ⟨hbuffer₁, hcount₁⟩
    refine (halts_when_report (.inl rfl)).imp ?_ ?_
    · rintro _ t₂ ⟨hbuffer₂, hcount₂⟩
      have hbuffer : t₂.toBuffer = s.toBuffer := hbuffer₂.trans hbuffer₁
      have hchar : t₂.nextChar = s.nextChar := congrArg (·.nextChar) hbuffer
      rw [post_bind]
      refine (halts_handleUnpairedLead (hchar ▸ hpending)).imp ?_ ?_
      · rintro _ t ⟨hnext', hsame, hcount₃⟩
        rw [post_bind, post_modify, post_pure]
        have hcopy : ∀ i, s.nextChar ≤ i → t.buffer i = s.buffer i := fun i hi =>
          (hsame i (hchar ▸ hi)).trans (congrArg (·.buffer i) hbuffer)
        refine ⟨rfl, congrArg (· + 1) (hnext'.trans hchar), fun i hi => hcopy i (Nat.le_of_lt hi),
          ?_, ?_⟩
        · exact fun _ => (hcopy _ (Nat.le_refl _)).trans hnext
        · have hafter : t.advance.charReports = t.charReports := rfl
          rw [hreports, hafter, hcount₃, hcount₂, hcount₁, hcount]
          cases isDisallowedUnit cfg c <;> cases decide (cfg.cifVersion < 2)
            && decide (0x7e < c) <;>
            cases pending.isSome <;> simp
          omega
      · rintro _ t ⟨hlead, hcount₃⟩
        rw [hreports, hlead, Bool.or_true]
        exact ⟨rfl, by omega⟩
    · rintro _ t₂ ⟨hbad, hcount₂⟩
      rw [hreports, hbad, Bool.or_true, Bool.true_or]
      exact ⟨rfl, by omega⟩
  · rintro _ t ⟨hbad, hcount₁⟩
    rw [hreports, hbad, Bool.true_or, Bool.true_or]
    exact ⟨rfl, by omega⟩

/-- One unit, with what is known of the one before it. -/
theorem halts_scanUChar (hnext : s.nextUnit = c)
    (hpending : ∀ u ∈ pending, 0 < s.nextChar ∧ s.prevUnit = u) :
    Halts (scanUChar cfg pending.isSome) s (fun r t => PassedUnit cfg pending c s r.2 t)
      (fun _ t => reportsUnit cfg pending c = true ∧ s.charReports < t.charReports) := by
  by_cases htrail : isTrail c = true
  · cases pending with
    | some u => exact halts_scanUChar_pair hnext (hpending u rfl).2 htrail
    | none => exact halts_scanUChar_trail hnext htrail
  · refine halts_scanUChar_other hnext (fun hsome => ?_) (by simpa using htrail)
    obtain ⟨u, hu⟩ := Option.isSome_iff_exists.mp hsome
    exact (hpending u hu).1

/-- A string is reported exactly if one of its units is. -/
theorem halts_scanUChars {n : Nat} (hlength : text.length = n) (hleft : s.TextLeft text)
    (hpending : ∀ u ∈ pending, 0 < s.nextChar ∧ s.prevUnit = u) :
    Halts (scanUChars cfg n pending.isSome) s
      (fun _ t => s.charReports ≤ t.charReports
        ∧ (s.charReports < t.charReports ↔ reportsUnits cfg pending text = true))
      (fun _ t => s.charReports < t.charReports ∧ reportsUnits cfg pending text = true) := by
  induction text generalizing n s pending with
  | nil =>
    subst hlength
    rw [Halts, List.length_nil, scanUChars, post_pure]
    simp [reportsUnits]
  | cons c rest ih =>
    subst hlength
    rw [Halts, List.length_cons, scanUChars, post_bind]
    refine (halts_scanUChar (hleft 0 c rfl) hpending).imp ?_ ?_
    · rintro ⟨c', lead⟩ t hpassed
      have hleft' : t.TextLeft rest := by
        intro i d hd
        have hold := hleft (i + 1) d (by simpa using hd)
        rw [hpassed.next, ← hold, hpassed.same _ (by omega)]
        congr 1
        omega
      have hlead : lead = (if isLead c then some c else none : Option UChar).isSome := by
        have heq : lead = isLead c := hpassed.lead_eq
        rw [heq]
        cases isLead c <;> rfl
      have hpending' : ∀ u ∈ (if isLead c then some c else none : Option UChar), 0 < t.nextChar
          ∧ t.prevUnit = u := by
        intro u hu
        rw [Option.mem_def] at hu
        split at hu
        · rename_i hisLead
          obtain rfl := Option.some.inj hu
          refine ⟨by rw [hpassed.next]; omega, ?_⟩
          rw [Scanner.prevUnit, hpassed.next, Nat.add_sub_cancel]
          exact hpassed.kept hisLead
        · cases hu
      dsimp only
      rw [hlead]
      have hreports := hpassed.reports
      have hsplit : reportsUnits cfg pending (c :: rest)
          = (reportsUnit cfg pending c || reportsUnits cfg (if isLead c then some c else
            none) rest) := rfl
      refine (ih rfl hleft' hpending').imp ?_ ?_
      · rintro _ u ⟨hle, hiff⟩
        rw [hsplit]
        cases hunit : reportsUnit cfg pending c with
        | true =>
          rw [hunit, if_pos rfl] at hreports
          rw [Bool.true_or]
          exact ⟨by omega, ⟨fun _ => rfl, fun _ => by omega⟩⟩
        | false =>
          rw [hunit, if_neg (by decide)] at hreports
          rw [Bool.false_or, ← hiff]
          exact ⟨by omega, by rw [hreports]⟩
      · rintro _ u ⟨hlt, hrest⟩
        rw [hsplit, hrest, Bool.or_true]
        refine ⟨?_, rfl⟩
        split at hreports <;> omega
    · rintro _ t ⟨hunit, hlt⟩
      refine ⟨hlt, ?_⟩
      rw [reportsUnits, hunit, Bool.true_or]

end Scanning

/-- What the validator and the scanner have in common to say about a string, as what a triple-quoted
string holds before a delimiter: both refuse it or neither. -/
def ChecksAgree (cfg : Config σ) (s : Scanner σ) (text : UStr) : Prop :=
  ∃ r t, scanUChars cfg (text.length + 1) false s = some (r, t)
    ∧ (hasDisallowedChars text = true ↔ s.charReports < t.charReports)

/-- The characters that the scanner reports and the validator does not look for. -/
def isOverlooked (c : UChar) : Bool := (0x80 ≤ c && c ≤ 0x9f) || c = UChar.bom

section Checks

variable {o : Options σ} {c delim : UChar} {text : UStr}

/-- The units that the tables disallow. -/
theorem isDisallowedUnit_iff (hws : o.extraWsChars = []) (heol : o.extraEolChars = []) {c : Nat} :
    isDisallowedUnit (Config.initV2 o) c = true ↔ (c < 0x20 ∧ c ≠ 9 ∧ c ≠ 10 ∧ c ≠ 13)
      ∨ (0x7f ≤ c ∧ c ≤ 0x9f)
      ∨ c = 0xfffe ∨ c = 0xffff ∨ c = 0xfeff ∨ (0xfdd0 ≤ c ∧ c ≤ 0xfdef) := by
  have htable : ∀ d < charTableMax, (charClassV2 [] [] d = .no
      ↔ (d < 0x20 ∧ d ≠ 9 ∧ d ≠ 10 ∧ d ≠ 13) ∨ (0x7f ≤ d ∧ d ≤ 0x9f)) := by decide +kernel
  have hclass : (Config.initV2 o).charClass = charClassV2 [] [] := by rw [Config.initV2, hws, heol]
  have hmax : charTableMax = 160 := rfl
  rw [isDisallowedUnit, hclass]
  by_cases hlt : c < charTableMax
  · rw [if_pos hlt, decide_eq_true_eq, htable c hlt]
    omega
  · rw [if_neg hlt]
    simp only [Bool.or_eq_true, Bool.and_eq_true, decide_eq_true_eq]
    have hrange : (((c = 0xfffe ∨ c = 0xffff) ∨ c = 0xfeff) ∨ 0xfdd0 ≤ c ∧ c ≤ 0xfdef)
        ↔ (c < 0x20 ∧ c ≠ 9 ∧ c ≠ 10 ∧ c ≠ 13) ∨ (0x7f ≤ c ∧ c ≤ 0x9f)
          ∨ c = 0xfffe ∨ c = 0xffff ∨ c = 0xfeff ∨ (0xfdd0 ≤ c ∧ c ≤ 0xfdef) := by omega
    exact hrange

theorem isOverlooked_iff {c : Nat} :
    isOverlooked c = true ↔ (0x80 ≤ c ∧ c ≤ 0x9f) ∨ c = 0xfeff := by
  rw [isOverlooked, Bool.or_eq_true, Bool.and_eq_true, decide_eq_true_eq, decide_eq_true_eq,
    decide_eq_true_eq]

/-- On a unit alone, the scanner reports one more kind than the validator. -/
theorem reportsUnit_iff (hversion : 2 ≤ o.cifVersion) (hws : o.extraWsChars = [])
    (heol : o.extraEolChars = []) {c : Nat} (hc : c < 2 ^ 16)
    (hunpaired : c < 0xd800 ∨ 0xdfff < c) :
    reportsUnit (Config.initV2 o) none c = true
      ↔ ((c < 0x20 && c ≠ 0x9 && c ≠ 0xa && c ≠ 0xd) || c = 0x7f || (0xfdcf < c && c < 0xfdf0)
          || 0xfffd < c) = true ∨ isOverlooked c = true := by
  have htrail : isTrail c = false := by
    rw [Bool.eq_false_iff, ne_eq, isTrail_iff]
    omega
  have hold : ¬ (Config.initV2 o).cifVersion < 2 := Int.not_lt.mpr hversion
  simp only [reportsUnit, htrail, Bool.false_eq_true, if_false, hold, decide_false, Bool.false_and,
    Bool.or_false,
    Option.isSome_none, isDisallowedUnit_iff hws heol, isOverlooked_iff, Bool.or_eq_true,
    Bool.and_eq_true,
    decide_eq_true_eq]
  omega

theorem reportsUnits_cons {cfg : Config σ} {pending : Option UChar} {rest : List UChar} :
    reportsUnits cfg pending (c :: rest) = true
      ↔ reportsUnit cfg pending c = true ∨ reportsUnits cfg (if isLead c then some c else none) rest
        = true := by
  rw [reportsUnits, Bool.or_eq_true]

theorem isLead_eq_ite {c : Nat} (h : c < 0xd800 ∨ 0xdbff < c) :
    (if isLead c then some c else none) = none := by
  have hnot : isLead c = false := by
    rw [Bool.eq_false_iff, ne_eq, isLead_iff]
    omega
  rw [if_neg (by simp [hnot])]

theorem not_isOverlooked {c : Nat} (h : 0xd800 ≤ c ∧ c ≤ 0xdfff) : ¬ isOverlooked c = true := by
  rw [isOverlooked_iff]
  omega

/-- After a lead surrogate, whatever is no trail surrogate is reported. -/
theorem reportsUnit_unpaired {cfg : Config σ} {u c : Nat} (h : c < 0xdc00 ∨ 0xdfff < c) :
    reportsUnit cfg (some u) c = true := by
  have htrail : isTrail c = false := by
    rw [Bool.eq_false_iff, ne_eq, isTrail_iff]
    omega
  simp only [reportsUnit, htrail, Bool.false_eq_true, if_false, Option.isSome_some, Bool.or_true]

/-- A pair is reported for being no character only. -/
theorem reportsUnit_pair {cfg : Config σ} {u c : Nat} (h : 0xdc00 ≤ c ∧ c ≤ 0xdfff) :
    reportsUnit cfg (some u) c = true ↔ 0x3fe ≤ c % 0x400 ∧ u % 0x40 = 0x3f := by
  have htrail : isTrail c = true := isTrail_iff.mpr h
  simp only [reportsUnit, htrail, if_true, Bool.and_eq_true, Bool.or_eq_true, decide_eq_true_eq]
  have hrange : (c = 0xdffe ∨ c = 0xdfff) ∧ u % 0x40 = 0x3f ↔ 0x3fe ≤ c % 0x400
      ∧ u % 0x40 = 0x3f := by omega
  exact hrange

/-- A lead surrogate is not reported by itself. -/
theorem not_reportsUnit_lead (hversion : 2 ≤ o.cifVersion) (hws : o.extraWsChars = [])
    (heol : o.extraEolChars = []) {c : Nat} (hlead : isLead c = true) :
    ¬ reportsUnit (Config.initV2 o) none c = true := by
  have hold : ¬ (Config.initV2 o).cifVersion < 2 := Int.not_lt.mpr hversion
  have hno : ¬ isDisallowedUnit (Config.initV2 o) c = true := by
    rw [isLead_iff] at hlead
    rw [isDisallowedUnit_iff hws heol]
    omega
  simp [reportsUnit, isTrail_of_isLead hlead, hold, hno]

theorem not_unpaired {c : Nat} : ¬ (c < 0xd800 || 0xdfff < c) = true ↔ 0xd800 ≤ c ∧ c ≤ 0xdfff := by
  simp

theorem isLead_of_paired {c : Nat} (h : 0xd800 ≤ c ∧ c ≤ 0xdfff) (hhigh : ¬ 0xdc00 ≤ c) :
    isLead c = true :=
  isLead_iff.mpr ⟨h.1, by omega⟩

/-- On a string, likewise. -/
theorem reportsUnits_iff (hversion : 2 ≤ o.cifVersion) (hws : o.extraWsChars = [])
    (heol : o.extraEolChars = []) (hdelim : delim = UChar.sq ∨ delim = UChar.dq)
    (hunits : ∀ c ∈ text, c < 2 ^ 16) :
    reportsUnits (Config.initV2 o) none (text ++ [delim]) = true
      ↔ hasDisallowedChars text = true ∨ ∃ c ∈ text, isOverlooked c = true := by
  have hquote : ∀ u, reportsUnit (Config.initV2 o) (some u) delim = true :=
    fun u => reportsUnit_unpaired (by rcases hdelim with rfl | rfl <;> decide)
  fun_induction hasDisallowedChars text with
  | case1 =>
    have hnone : ¬ reportsUnit (Config.initV2 o) none delim = true := by
      rw [reportsUnit_iff hversion hws heol (by rcases hdelim with rfl | rfl <;> decide)
        (by rcases hdelim with rfl | rfl <;> decide)]
      rcases hdelim with rfl | rfl <;> decide
    rw [List.nil_append, reportsUnits_cons]
    simp [hnone, reportsUnits]
  | case2 c rest hunpaired hbad =>
    have hrange : c < 0xd800 ∨ 0xdfff < c := by simpa using hunpaired
    have hunit :=
      (reportsUnit_iff hversion hws heol (hunits c (List.mem_cons_self ..)) hrange).mpr (.inl hbad)
    simp [reportsUnits_cons, hunit]
  | case3 c rest hunpaired hgood ih =>
    have hrange : c < 0xd800 ∨ 0xdfff < c := by simpa using hunpaired
    have hunit := reportsUnit_iff hversion hws heol (hunits c (List.mem_cons_self ..)) hrange
    have hnext : (if isLead c then some c else none) = none :=
      isLead_eq_ite (hrange.imp_right fun h => Nat.lt_trans (by decide) h)
    have hrest : reportsUnits (Config.initV2 o) none (rest ++ [delim]) = true
        ↔ hasDisallowedChars rest = true ∨ ∃ d ∈ rest, isOverlooked d = true :=
      ih fun d hd => hunits d (List.mem_cons_of_mem _ hd)
    rw [List.cons_append, reportsUnits_cons, hunit, hnext, hrest]
    simp only [List.mem_cons, exists_eq_or_imp]
    rw [or_iff_right hgood, or_left_comm]
  | case4 c rest hpaired hlow =>
    have hunit : reportsUnit (Config.initV2 o) none c = true := by
      have htrail : isTrail c = true := isTrail_iff.mpr ⟨hlow, (not_unpaired.mp hpaired).2⟩
      rw [reportsUnit, if_pos htrail]
    simp [reportsUnits_cons, hunit]
  | case5 c hpaired hhigh =>
    have hlead := isLead_of_paired (not_unpaired.mp hpaired) hhigh
    simp [reportsUnits_cons, hlead, hquote]
  | case6 c hpaired hhigh d rest hnot =>
    have hlead := isLead_of_paired (not_unpaired.mp hpaired) hhigh
    have hunit : reportsUnit (Config.initV2 o) (some c) d = true :=
      reportsUnit_unpaired (by simpa using hnot)
    simp [reportsUnits_cons, hlead, hunit]
  | case7 c hpaired hhigh d rest htrail hnonchar =>
    have hlead := isLead_of_paired (not_unpaired.mp hpaired) hhigh
    have hunit : reportsUnit (Config.initV2 o) (some c) d = true :=
      (reportsUnit_pair (by simpa using htrail)).mpr (by simpa using hnonchar)
    simp [reportsUnits_cons, hlead, hunit]
  | case8 c hpaired hhigh d rest htrail hchar ih =>
    have hc := not_unpaired.mp hpaired
    have hd : 0xdc00 ≤ d ∧ d ≤ 0xdfff := by simpa using htrail
    have hlead := isLead_of_paired hc hhigh
    have hunit : ¬ reportsUnit (Config.initV2 o) (some c) d = true := by
      rw [reportsUnit_pair hd]
      simpa using hchar
    have hnext : (if isLead d then some d else none) = none :=
      isLead_eq_ite (.inr (Nat.lt_of_lt_of_le (by decide) hd.1))
    have hrest : reportsUnits (Config.initV2 o) none (rest ++ [delim]) = true
        ↔ hasDisallowedChars rest = true ∨ ∃ d ∈ rest, isOverlooked d = true :=
      ih fun d hd => hunits d (List.mem_cons_of_mem _ (List.mem_cons_of_mem _ hd))
    have hoc := not_isOverlooked hc
    have hod := not_isOverlooked ⟨Nat.le_trans (by decide) hd.1, hd.2⟩
    have hfirst := not_reportsUnit_lead hversion hws heol hlead
    rw [List.cons_append, List.cons_append, reportsUnits_cons, reportsUnits_cons, if_pos hlead,
      hnext, hrest]
    simp only [List.mem_cons, exists_eq_or_imp]
    rw [or_iff_right hfirst, or_iff_right hunit, or_iff_right hoc, or_iff_right hod]

/-- The scan of a string and a delimiter ends, and tells whether there is something to report. -/
theorem exists_scanUChars (hversion : 2 ≤ o.cifVersion) (hws : o.extraWsChars = [])
    (heol : o.extraEolChars = []) (hdelim : delim = UChar.sq ∨ delim = UChar.dq)
    (hunits : ∀ c ∈ text, c < 2 ^ 16) {s : Scanner σ} (hleft : s.TextLeft (text ++ [delim])) :
    ∃ r t, scanUChars (Config.initV2 o) (text.length + 1) false s = some (r, t)
      ∧ (s.charReports < t.charReports ↔ hasDisallowedChars text = true
        ∨ ∃ c ∈ text, isOverlooked c = true) := by
  have hlength : (text ++ [delim]).length = text.length + 1 := by simp
  have hscan := @halts_scanUChars σ (Config.initV2 o) s none _ _ hlength hleft (by simp)
  obtain ⟨⟨r, t⟩, heq⟩ := Halts.exists hscan
  refine ⟨r, t, heq, ?_⟩
  rw [← reportsUnits_iff hversion hws heol hdelim hunits]
  cases r with
  | ok lead => exact (hscan.of_ok heq).2
  | error e =>
    obtain ⟨hlt, hreports⟩ := hscan.of_error heq
    exact ⟨fun _ => hreports, fun _ => hlt⟩

/-- The two agree on a string unless the scanner alone has something to report of it: a character
that the validator does not look for, and no other. -/
theorem checksAgree_iff (hversion : 2 ≤ o.cifVersion) (hws : o.extraWsChars = [])
    (heol : o.extraEolChars = []) (hdelim : delim = UChar.sq ∨ delim = UChar.dq)
    (hunits : ∀ c ∈ text, c < 2 ^ 16) {s : Scanner σ} (hleft : s.TextLeft (text ++ [delim])) :
    ChecksAgree (Config.initV2 o) s text
      ↔ (∀ c ∈ text, isOverlooked c = false) ∨ hasDisallowedChars text = true := by
  obtain ⟨r, t, heq, hreports⟩ := exists_scanUChars hversion hws heol hdelim hunits hleft
  have hnone : (∀ c ∈ text, isOverlooked c = false) ↔ ¬ ∃ c ∈ text, isOverlooked c = true := by simp
  rw [hnone]
  constructor
  · rintro ⟨r', t', heq', hagree⟩
    rw [heq] at heq'
    obtain ⟨-, rfl⟩ := Prod.mk.inj (Option.some.inj heq')
    by_cases hover : ∃ c ∈ text, isOverlooked c = true
    · exact .inr (hagree.mpr (hreports.mpr (.inr hover)))
    · exact .inl hover
  · intro hcond
    refine ⟨r, t, heq, ?_⟩
    rw [hreports]
    exact ⟨.inl, fun h => h.elim id fun hover => hcond.resolve_left (not_not_intro hover)⟩

end Checks

/-- A scanner that has just some units in its buffer. -/
def holding (text : List UChar) : Scanner Unit where
  toBuffer := { Buffer.initial [] with
    buffer := fun i => text.getD i 0, bufferLimit := text.length, nextChar := 0 }
  ttype := .end_
  tvalueLength := 0
  line := 1
  column := 0
  skipDepth := 0
  world := ⟨(), {}⟩
  log := []

theorem textLeft_holding (text : List UChar) : (holding text).TextLeft text := by
  intro i c hc
  have hget : text.getD i 0 = c := by rw [List.getD_eq_getElem?_getD, hc, Option.getD_some]
  simpa [holding] using hget

/-- Letters and a pair of surrogates suit both. -/
theorem checksAgree_letters :
    let o := Options.create (Callbacks.ignoring (σ := Unit)) Icu.ascii Platform.exact 2
    ChecksAgree (Config.initV2 o) (holding ([0x61, 0xd83d, 0xde00, 0x62] ++ [UChar.sq]))
      [0x61, 0xd83d, 0xde00, 0x62] := by
  intro o
  exact (checksAgree_iff (Int.le_refl 2) rfl rfl (.inl rfl) (by decide) (textLeft_holding _)).mpr
    (.inl (by decide))

/-- A control character that the validator takes is reported. -/
theorem not_checksAgree_control :
    let o := Options.create (Callbacks.ignoring (σ := Unit)) Icu.ascii Platform.exact 2
    isValidName [UChar.under, 0x80] true = true
      ∧ ¬ ChecksAgree (Config.initV2 o) (holding ([UChar.under, 0x80] ++ [UChar.sq]))
        [UChar.under, 0x80] := by
  intro o
  refine ⟨by decide, ?_⟩
  obtain ⟨r, t, hscan, hreports⟩ :=
    @exists_scanUChars Unit o UChar.sq [UChar.under, 0x80] (Int.le_refl 2) rfl rfl
    (.inl rfl) (by decide) _ (textLeft_holding _)
  rintro ⟨r', t', hscan', hagree⟩
  rw [hscan] at hscan'
  obtain ⟨-, rfl⟩ := Prod.mk.inj (Option.some.inj hscan')
  have hrefused := hagree.mpr (hreports.mpr (.inr (by decide)))
  exact absurd hrefused (by decide)

end CifApi
