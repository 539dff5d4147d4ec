import CifApi.Scanner.Progress

/-! `next_token` finishes, and a measure of the text and the token still to be consumed never
grows. -/
namespace CifApi

open Exec Buffer

variable {σ : Type} {v : Int} {t : TokenType} {cfg : Config σ} {s : Scanner σ}

/-- The options a scanner really has: braces open tables in CIF 2 only. -/
def Config.Legal (cfg : Config σ) : Prop := cfg.cifVersion < 2 → ∀ c, cfg.classOf c ≠ .ocurl

theorem legal_of_two_le (h : 2 ≤ cfg.cifVersion) : cfg.Legal := fun h' => by omega

theorem charClassV1_ne_ocurl (extraWs extraEol : List UChar) (c : UChar) :
    charClassV1 (charClassV2 extraWs extraEol) c ≠ .ocurl := by
  unfold charClassV1
  split
  · simp
  · simp
  · simp
  · simp
  · rename_i _ _ hbrace _
    unfold charClassV2
    split
    · rename_i k hk
      rintro rfl
      unfold fixedClass at hk
      split at hk <;> simp_all
    · split
      · simp
      · split
        · simp
        · split <;> simp

theorem legal_setV1 {extraWs extraEol : List UChar}
    (h : cfg.charClass = charClassV2 extraWs extraEol) : cfg.setV1.Legal := by
  intro _ c hc
  unfold Config.classOf at hc
  split at hc
  · rw [Config.setV1, h] at hc
    exact charClassV1_ne_ocurl _ _ _ hc
  · split at hc <;> simp at hc

/-- What holds between productions of a scanner whose current token has type `t` and a value of
length `n`. -/
structure TokenInv (v : Int) (t : TokenType) (n : Nat) (b : Buffer) : Prop where
  text_le : b.textStart ≤ b.nextChar
  text_lt : b.textStart < b.nextChar → b.textStart < b.bufferLimit
  kept : 2 ≤ v → b.nextChar ≤ b.bufferLimit
  key : t = .key ∨ t = .tkey → b.textStart < b.nextChar → b.textStart + 2 ≤ b.nextChar
  value : t = .value → b.textStart < b.nextChar → n ≤ b.nextChar - b.textStart
  table : v < 2 → t ≠ .otable

/-- The measure of what a token still to be consumed may give back to the input. -/
def tokenWeight (v : Int) (t : TokenType) (b : Buffer) : Nat :=
  if b.nextChar ≤ b.textStart then 0
  else if 2 ≤ v then 2 * (b.nextChar - b.textStart) - 1
  else if (t = .key ∨ t = .tkey) ∧ b.nextChar ≤ b.bufferLimit then 3 else 1

/-- The measure of the text and the token still to be consumed. -/
def work (v : Int) (t : TokenType) (b : Buffer) : Nat := 2 * b.remaining + tokenWeight v t b

/-- What a scan has found from a first unit on, where `r` units remained before that. -/
structure Lexed (cfg : Config σ) (r : Nat) (trail : Prop) (t : TokenType) (s : Scanner σ) :
    Prop where
  begun : Begun s.toBuffer
  remaining_le : s.remaining ≤ r
  kept : 2 ≤ cfg.cifVersion → s.nextChar ≤ s.bufferLimit
    ∧ s.remaining + (s.nextChar - s.textStart) ≤ r
  passed : s.textStart < s.nextChar ∧ s.remaining < r ∨
    trail ∧ s.nextChar = s.textStart ∧ s.nextChar < s.bufferLimit ∧ ¬ isTrail s.nextUnit
  key : t = .key ∨ t = .tkey → s.textStart + 2 ≤ s.nextChar ∧
    (s.nextChar ≤ s.bufferLimit → s.remaining + 2 ≤ r)
  value : t = .value → s.tvalueLength ≤ s.nextChar - s.textStart
  table : cfg.cifVersion < 2 → t ≠ .otable

theorem Lexed.inv {r : Nat} {trail : Prop} (h : Lexed cfg r trail t s) :
    TokenInv cfg.cifVersion t s.tvalueLength s.toBuffer where
  text_le := h.begun.text_le
  text_lt := fun _ => h.begun.text_lt
  kept := fun hv => (h.kept hv).1
  key := fun ht _ => (h.key ht).1
  value := fun ht _ => h.value ht
  table := h.table

theorem Lexed.work_le {r : Nat} {trail : Prop} (h : Lexed cfg r trail t s) :
    work cfg.cifVersion t s.toBuffer ≤ 2 * r := by
  have hr := h.remaining_le
  unfold work tokenWeight
  split
  · omega
  · rename_i hp
    have hpassed : s.textStart < s.nextChar := by omega
    split
    · rename_i hv
      have := (h.kept hv).2
      omega
    · split
      · rename_i hk
        have := (h.key hk.1).2 hk.2
        omega
      · have := h.passed
        omega

/-- No token is under way. -/
structure Between (v : Int) (b : Buffer) : Prop where
  next_eq : b.nextChar = b.textStart
  kept : 2 ≤ v → b.nextChar ≤ b.bufferLimit

/-- A first unit is passed inside the buffered text. -/
structure FirstPassed (r : Nat) (b : Buffer) : Prop where
  next_eq : b.nextChar = b.textStart + 1
  next_le : b.nextChar ≤ b.bufferLimit
  remaining_eq : b.remaining + 1 ≤ r
  value : b.tvalueStart = b.textStart

/-- `NEXT_CHAR` between tokens. -/
theorem returns_nextChar (h : Between v s.toBuffer) (hval : s.tvalueStart = s.textStart) :
    Returns (nextChar cfg) s fun c s' => match c with
      | none => Between v s'.toBuffer ∧ s'.remaining ≤ s.remaining
      | some c => FirstPassed s.remaining s'.toBuffer ∧ s'.prevUnit = c ∧
          (s.nextChar < s.bufferLimit → s.nextUnit = c) := by
  have hn := h.next_eq
  rw [Returns, nextChar, post_bind, peekChar, post_bind, post_read]
  split
  · rename_i hl
    split
    · exact ⟨h, Nat.le_refl _⟩
    · have hroom : s.toBuffer.makeRoom = { s.toBuffer with
          textStart := 0, tvalueStart := 0, nextChar := 0, bufferLimit := 0 } := by
        rw [makeRoom, if_pos (by omega)]
      have hrem :
          ({ s.toBuffer with textStart := 0, tvalueStart := 0, nextChar := 0, bufferLimit := 0 } :
          Buffer).unread ≤ s.remaining := Nat.le_add_left _ _
      rw [post_bind]
      refine returns_getMoreChars.imp ?_
      rintro more t ⟨f1, f2, f3, f4, f5, f6, f7⟩
      rw [hroom] at f1 f2 f3 f4 f5 f6 f7
      dsimp only at f1 f2 f3 f4 f5 f6 f7
      split
      · rename_i hok
        have := f6 hok
        refine ⟨⟨?_, ?_, ?_, ?_⟩, rfl, fun hlt => by omega⟩
        · simp only [Scanner.advance, Scanner.incColumn]
          omega
        · simp only [Scanner.advance, Scanner.incColumn]
          omega
        · simp only [Scanner.advance, Scanner.incColumn, remaining, unread] at *
          omega
        · simp only [Scanner.advance, Scanner.incColumn]
          omega
      · rename_i hno
        have := f7 (by simpa using hno)
        refine ⟨⟨?_, ?_⟩, ?_⟩
        · omega
        · intro _
          omega
        · simp only [remaining, unread] at *
          omega
  · refine ⟨⟨?_, ?_, ?_, hval⟩, rfl, fun _ => rfl⟩
    · simp only [Scanner.advance, Scanner.incColumn]
      omega
    · simp only [Scanner.advance, Scanner.incColumn]
      omega
    · simp only [Scanner.advance, Scanner.incColumn, remaining, unread]
      omega

theorem FirstPassed.begun {r : Nat} {b : Buffer} (h : FirstPassed r b) : Begun b := by
  have h1 := h.next_eq
  have h2 := h.next_le
  exact ⟨by omega, by omega⟩

/-- A scan that goes on from a first unit gives a token of any type that has no more to show. -/
theorem FirstPassed.lexed {r : Nat} {s' : Scanner σ} {trail : Prop} (h : FirstPassed r s.toBuffer)
    (hsc : Scanned cfg.cifVersion s.toBuffer s'.toBuffer) (hkey : t ≠ .key ∧ t ≠ .tkey)
    (hval : t = .value → s'.tvalueLength ≤ s'.nextChar - s'.textStart)
    (htable : cfg.cifVersion < 2 → t ≠ .otable) : Lexed cfg r trail t s' := by
  have h1 := h.next_eq
  have h2 := h.remaining_eq
  have h3 := hsc.remaining_le
  have h4 := hsc.length_le
  refine ⟨hsc.begun, by omega, ?_, Or.inl ⟨by omega, by omega⟩, ?_, hval, htable⟩
  · intro hv
    obtain ⟨hk, hle⟩ := hsc.kept hv h.next_le
    exact ⟨hk, by omega⟩
  · rintro (h | h)
    · exact (hkey.1 h).elim
    · exact (hkey.2 h).elim

theorem stepped_advance (s : Scanner σ) : Stepped 1 s.toBuffer s.advance.toBuffer :=
  ⟨rfl, rfl, rfl, rfl, rfl⟩

/-- A colon after a quoted string or a text block makes it a key. -/
theorem FirstPassed.lexed_key {r : Nat} {s' : Scanner σ} {trail : Prop}
    (h : FirstPassed r s.toBuffer) (hsc : Scanned cfg.cifVersion s.toBuffer s'.toBuffer)
    (hlt : 2 ≤ cfg.cifVersion → s'.nextChar < s'.bufferLimit) (hval : t ≠ .value)
    (htable : t ≠ .otable) : Lexed cfg r trail t s'.advance := by
  have h1 := h.next_eq
  have h2 := h.remaining_eq
  have h3 := hsc.length_le
  have h4 := hsc.remaining_le
  have hin : s'.nextChar < s'.bufferLimit ∨ cfg.cifVersion < 2 ∧ s'.textStart < s'.nextChar := by
    by_cases hv : 2 ≤ cfg.cifVersion
    · exact Or.inl (hlt hv)
    · exact Or.inr ⟨by omega, by omega⟩
  have hstep := hsc.step (stepped_advance s') hin
  have h5 := hstep.remaining_le
  have h6 : s'.advance.nextChar = s'.nextChar + 1 := rfl
  have h7 : s'.advance.textStart = s'.textStart := rfl
  refine ⟨hstep.begun, by omega, ?_, Or.inl ⟨by omega, by omega⟩, ?_, fun h => (hval h).elim,
    fun _ => htable⟩
  · intro hv
    obtain ⟨hk, hle⟩ := hstep.kept hv h.next_le
    exact ⟨hk, by omega⟩
  · intro _
    refine ⟨by omega, fun hle => ?_⟩
    have h8 : s'.advance.bufferLimit = s'.bufferLimit := rfl
    have := (stepped_advance s').remaining_lt (by omega)
    omega

theorem returns_scanQuoted {r : Nat} {trail : Prop} (h : FirstPassed r s.toBuffer) :
    Returns (scanQuoted cfg) s fun t s' => Lexed cfg r trail t s' := by
  have hb := h.begun
  have hn := h.next_eq
  rw [Returns, scanQuoted, post_bind]
  refine (returns_scanDelimString hb).imp fun _ s₁ h₁ => ?_
  have hlen := h₁.length_le
  rw [post_bind]
  refine (returns_peekChar (v := cfg.cifVersion) h₁.begun (by omega)).imp ?_
  rintro (_ | c) s₂ ⟨h₂, _, _, hlt⟩
  · exact h.lexed (h₁.trans h₂) (by simp) (by simp) (by simp)
  · dsimp only
    split
    · exact h.lexed_key (h₁.trans h₂) (fun hv => hlt (by simp) (h₁.kept hv h.next_le).1) (by simp)
        (by simp)
    · exact h.lexed (h₁.trans h₂) (by simp) (by simp) (by simp)

theorem returns_scanTextBlock {r : Nat} {trail : Prop} (h : FirstPassed r s.toBuffer) :
    Returns (scanTextBlock cfg) s fun t s' => Lexed cfg r trail t s' := by
  have hb := h.begun
  have hn := h.next_eq
  rw [Returns, scanTextBlock, post_bind]
  refine (returns_scanText (v := cfg.cifVersion) hb).imp fun _ s₁ h₁ => ?_
  have hlen := h₁.length_le
  split
  · rw [post_bind]
    refine (returns_peekChar (v := cfg.cifVersion) h₁.begun (by omega)).imp ?_
    rintro (_ | c) s₂ ⟨h₂, _, _, hlt⟩
    · exact h.lexed (h₁.trans h₂) (by simp) (by simp) (by simp)
    · dsimp only
      split
      · exact h.lexed_key (h₁.trans h₂) (fun hv => hlt (by simp) (h₁.kept hv h.next_le).1) (by simp)
          (by simp)
      · exact h.lexed (h₁.trans h₂) (by simp) (by simp) (by simp)
  · exact h.lexed h₁ (by simp) (by simp) (by simp)

/-- The text of whitespace, a comment or a token goes on from a first unit `c`. -/
theorem returns_scanLexeme {r : Nat} {c : UChar} (hcfg : cfg.Legal) (h : FirstPassed r s.toBuffer)
    (hc : s.prevUnit = c) :
    Returns (scanLexeme cfg (cfg.classOf c)) s fun l s' => match l with
      | .token t => Lexed cfg r (cfg.cifVersion < 2 ∧ isTrail c) t s'
      | _ => Begun s'.toBuffer ∧ s'.remaining < r ∧
        (2 ≤ cfg.cifVersion → s'.nextChar ≤ s'.bufferLimit) := by
  have hb := h.begun
  have hn := h.next_eq
  have hr := h.remaining_eq
  have hself : Scanned cfg.cifVersion s.toBuffer s.toBuffer := .refl hb
  -- the scanner a unit back, where whitespace or an unquoted token is scanned from its first unit
  have hb' : Begun s.backUp.toBuffer := by
    have h1 : s.backUp.nextChar = s.nextChar - 1 := rfl
    exact ⟨by show s.textStart ≤ s.nextChar - 1; omega, hb.text_lt⟩
  have hn' : s.backUp.nextChar = s.textStart := by
    show s.nextChar - 1 = s.textStart
    omega
  have hl' : s.backUp.nextChar < s.backUp.bufferLimit := by
    have := h.next_le
    show s.nextChar - 1 < s.bufferLimit
    omega
  have hr' : s.backUp.remaining ≤ r := by
    have h1 : s.backUp.unread = s.unread := rfl
    have h2 : s.backUp.bufferLimit = s.bufferLimit := rfl
    simp only [remaining] at hr ⊢
    omega
  have hu' : s.backUp.nextUnit = c := hc
  have hspace : ∀ {s' : Scanner σ}, Scanned cfg.cifVersion s.toBuffer s'.toBuffer →
      Begun s'.toBuffer ∧ s'.remaining < r
        ∧ (2 ≤ cfg.cifVersion → s'.nextChar ≤ s'.bufferLimit) := by
    intro s' hsc
    have := hsc.remaining_le
    exact ⟨hsc.begun, by omega, fun hv => (hsc.kept hv h.next_le).1⟩
  unfold scanLexeme
  generalize hk : cfg.classOf c = k
  cases k
  case eol =>
    rw [Returns, post_bind, post_modify, post_bind]
    refine (returns_scanWs (v := cfg.cifVersion) hb').imp ?_
    rintro _ s' ⟨hsc, hlt⟩
    have := (hlt hl' (by rw [hu', hk])).1
    exact ⟨hsc.begun, by omega, fun hv => (hsc.kept hv (Nat.le_of_lt hl')).1⟩
  case ws =>
    rw [Returns, post_bind]
    exact (returns_scanWs hb).imp fun _ _ h' => hspace h'.1
  case hash =>
    rw [Returns, post_bind]
    exact (returns_scanTo _ hb).imp fun _ _ h' => hspace h'
  case undersc =>
    rw [Returns, post_bind]
    exact (returns_scanTo _ hb).imp fun _ _ h' => h.lexed h' (by simp) (by simp) (by simp)
  case obrak => exact h.lexed hself (by simp) (by simp) (by simp)
  case cbrak => exact h.lexed hself (by simp) (by simp) (by simp)
  case ocurl => exact h.lexed hself (by simp) (by simp) fun hv => (hcfg hv c hk).elim
  case ccurl => exact h.lexed hself (by simp) (by simp) (by simp)
  case quote =>
    rw [Returns, post_bind]
    exact (returns_scanQuoted h).imp fun _ _ h' => h'
  case semi =>
    rw [Returns, post_bind, post_read]
    split
    · rw [post_bind]
      exact (returns_scanTextBlock h).imp fun _ _ h' => h'
    · rw [post_bind]
      refine (returns_scanUnquoted (v := cfg.cifVersion) hb h.value).imp fun _ s' h' => ?_
      exact h.lexed h'.1 (by simp) (fun _ => h'.2.1) (by simp)
  all_goals
    rw [Returns, post_bind, post_modify, post_bind]
    refine (returns_scanUnquoted (v := cfg.cifVersion) hb' (h.value.trans rfl)).imp ?_
    rintro _ s' ⟨hsc, hval, hfirst⟩
    have hle := hsc.remaining_le
    have hmeta : cfg.metaClassOf s.backUp.nextUnit = .general ∨
        cfg.metaClassOf s.backUp.nextUnit = .no := by
      simp [Config.metaClassOf, hu', hk, CharClass.metaClass]
    refine ⟨hsc.begun, by omega, ?_, ?_, by simp, fun _ => hval, by simp⟩
    · intro hv
      obtain ⟨hkept, hlen⟩ := hsc.kept hv (Nat.le_of_lt hl')
      have ht : s.backUp.textStart = s.textStart := rfl
      exact ⟨hkept, by omega⟩
    · rcases hfirst hl' hmeta with hp | ⟨hv, htrail, hst, hno⟩
      · exact Or.inl ⟨by have := hp.2; omega, by have := hp.1; omega⟩
      · have h1 := hst.nextChar
        have h2 := hst.textStart
        have h3 := hst.bufferLimit
        have h4 : s.backUp.textStart = s.textStart := rfl
        exact Or.inr ⟨⟨hv, hu' ▸ htrail⟩, by omega, by omega, hno⟩

/-- What a pass from `s₀`, with no token under way, has found: a token, or less text to scan. -/
structure TokenFound (v : Int) (s₀ : Scanner σ) (t : TokenType) (s : Scanner σ) : Prop where
  inv : TokenInv v t s.tvalueLength s.toBuffer
  work_le : work v t s.toBuffer ≤ 2 * s₀.remaining
  remaining_le : s.remaining ≤ s₀.remaining
  progress : s.textStart < s.nextChar ∨ s.remaining < s₀.remaining ∨
    s.nextChar < s.bufferLimit ∧ ¬ isTrail s.nextUnit ∧
      (s₀.nextChar < s₀.bufferLimit → isTrail s₀.nextUnit)

theorem Lexed.found {s₀ : Scanner σ} {c : UChar}
    (h : Lexed cfg s₀.remaining (cfg.cifVersion < 2 ∧ isTrail c) t s)
    (hc : s₀.nextChar < s₀.bufferLimit → s₀.nextUnit = c) : TokenFound cfg.cifVersion s₀ t s where
  inv := h.inv
  work_le := h.work_le
  remaining_le := h.remaining_le
  progress := by
    rcases h.passed with ⟨hp, _⟩ | ⟨⟨_, htrail⟩, _, hlt, hno⟩
    · exact Or.inl hp
    · exact Or.inr (Or.inr ⟨hlt, hno, fun h0 => hc h0 ▸ htrail⟩)

theorem work_consumed (v : Int) (t : TokenType) (s : Scanner σ) :
    work v t s.consumeToken.toBuffer = 2 * s.remaining := by
  have h : s.consumeToken.nextChar ≤ s.consumeToken.textStart := Nat.le_refl _
  rw [work, tokenWeight, if_pos h]
  rfl

/-- A consumed token leaves no token under way, whatever type is noted for it. -/
theorem tokenInv_consumed (hkept : 2 ≤ v → s.nextChar ≤ s.bufferLimit) (ht : v < 2 → t ≠ .otable) :
    TokenInv v t 0 s.consumeToken.toBuffer where
  text_le := Nat.le_refl _
  text_lt := fun h => absurd h (Nat.lt_irrefl _)
  kept := hkept
  key := fun _ h => absurd h (Nat.lt_irrefl _)
  value := fun _ h => absurd h (Nat.lt_irrefl _)
  table := ht

theorem returns_separateToken (clazz : CharClass) (afterWs : Bool) :
    Returns (separateToken cfg clazz afterWs) s fun _ s' => SameText s s' := by
  rw [Returns, separateToken, post_bind, post_read]
  split
  · rfl
  · rfl
  · rw [post_bind]
    refine returns_when_report.imp fun _ s' h => ?_
    refine post_when.mpr ⟨fun _ => ?_, fun _ => h⟩
    rw [post_bind, post_read]
    exact h.trans rfl

theorem returns_checkReserved {s₀ : Scanner σ} {c : UChar}
    (h : Lexed cfg s₀.remaining (cfg.cifVersion < 2 ∧ isTrail c) .value s)
    (hc : s₀.nextChar < s₀.bufferLimit → s₀.nextUnit = c) :
    Returns (checkReserved cfg) s fun t s' => TokenFound cfg.cifVersion s₀ t s' := by
  have hdrop : ∀ t : TokenType, t ≠ .key → t ≠ .tkey → t ≠ .value → t ≠ .otable →
      TokenFound cfg.cifVersion s₀ t (dropKeyword s) := by
    intro t h1 h2 h3 h4
    have hlex : Lexed cfg s₀.remaining (cfg.cifVersion < 2 ∧ isTrail c) t (dropKeyword s) :=
      ⟨⟨h.begun.text_le, h.begun.text_lt⟩, h.remaining_le, h.kept, h.passed, by simp [h1, h2],
        fun ht => (h3 ht).elim, fun _ => h4⟩
    exact hlex.found hc
  rw [Returns, checkReserved, post_bind, post_read]
  split
  · exact h.found hc
  · exact hdrop _ (by simp) (by simp) (by simp) (by simp)
  · exact hdrop _ (by simp) (by simp) (by simp) (by simp)
  · exact hdrop _ (by simp) (by simp) (by simp) (by simp)
  · exact hdrop _ (by simp) (by simp) (by simp) (by simp)
  · rw [post_bind]
    refine returns_report.imp fun _ s' hs => ?_
    have hb := hs.toBuffer
    have hr : s'.remaining = s.remaining := by rw [hb]
    have hle := h.remaining_le
    rw [post_bind, post_modify]
    have hrc : s'.consumeToken.remaining = s'.remaining := rfl
    refine ⟨tokenInv_consumed ?_ (by simp), ?_, ?_, ?_⟩
    · intro hv
      rw [hb]
      exact (h.kept hv).1
    · rw [work_consumed]
      omega
    · omega
    · rcases h.passed with ⟨_, hp⟩ | ⟨⟨_, htrail⟩, _, hlt, hno⟩
      · exact Or.inr (Or.inl (by omega))
      · have h1 : s'.consumeToken.nextUnit = s'.nextUnit := rfl
        have h2 : s'.nextUnit = s.nextUnit := by
          show s'.toBuffer.buffer s'.toBuffer.nextChar = s.toBuffer.buffer s.toBuffer.nextChar
          rw [hb]
        have h3 : s'.consumeToken.nextChar = s'.toBuffer.nextChar := rfl
        have h4 : s'.consumeToken.bufferLimit = s'.toBuffer.bufferLimit := rfl
        refine Or.inr (Or.inr ⟨?_, ?_, fun h0 => hc h0 ▸ htrail⟩)
        · rw [h3, h4, hb]
          exact hlt
        · rw [h1, h2]
          exact hno

/-- One pass of the token loop. -/
theorem returns_scanToken (hcfg : cfg.Legal) (afterWs : Bool)
    (h : Between cfg.cifVersion s.toBuffer) :
    Returns (scanToken cfg afterWs) s (Round (fun r s' => TokenFound cfg.cifVersion s r.1 s')
      (fun t s' => t = .end_ ∧ TokenInv cfg.cifVersion t s'.tvalueLength s'.toBuffer ∧
        work cfg.cifVersion t s'.toBuffer ≤ 2 * s.remaining)) := by
  rw [Returns, scanToken, post_bind, post_modify, post_bind]
  have h₀ : Between cfg.cifVersion ({ s with tvalueStart := s.textStart, tvalueLength := 0 } :
      Scanner σ).toBuffer := ⟨h.next_eq, h.kept⟩
  refine (returns_nextChar h₀ rfl).imp ?_
  rintro (_ | c) s₁ h₁
  · have hn := h₁.1.next_eq
    refine ⟨rfl, ⟨Nat.le_of_eq hn.symm, fun hlt => by omega, h₁.1.kept, by simp, by simp, by simp⟩,
      ?_⟩
    have hr : s₁.remaining ≤ s.remaining := h₁.2
    simp only [work, tokenWeight, hn, Nat.le_refl, if_true]
    omega
  · obtain ⟨hfirst, hprev, hc⟩ := h₁
    dsimp only
    rw [post_bind]
    refine (returns_separateToken _ _).imp fun _ s₂ h₂ => ?_
    have hb := h₂.toBuffer
    have hfirst₂ : FirstPassed s.remaining s₂.toBuffer := by
      rw [hb]
      exact hfirst
    have hprev₂ : s₂.prevUnit = c := by
      rw [← hprev]
      show s₂.toBuffer.buffer (s₂.toBuffer.nextChar - 1) = _
      rw [hb]
      rfl
    have hc' : s.nextChar < s.bufferLimit → s.nextUnit = c := hc
    have hspace : ∀ s' s'' : Scanner σ, s''.toBuffer = s'.toBuffer → (Begun s'.toBuffer ∧
        s'.remaining < s.remaining ∧ (2 ≤ cfg.cifVersion → s'.nextChar ≤ s'.bufferLimit)) →
        TokenFound cfg.cifVersion s .error s''.consumeToken := by
      rintro s' s'' hb' ⟨_, hlt, hkept⟩
      have hr : s''.consumeToken.remaining = s'.remaining := by
        show s''.toBuffer.remaining = _
        rw [hb']
      refine ⟨tokenInv_consumed ?_ (by simp), ?_, by omega, Or.inr (Or.inl (by omega))⟩
      · rw [hb']
        exact hkept
      · rw [work_consumed, hb']
        omega
    rw [post_bind]
    refine (returns_scanLexeme hcfg hfirst₂ hprev₂).imp ?_
    rintro (_ | _ | t) s₃ h₃
    · rw [post_bind, post_read, post_bind, post_when]
      refine ⟨fun _ => hspace s₃ _ ?_ h₃, fun _ => hspace s₃ _ rfl h₃⟩
      rfl
    · rw [post_bind, post_read, post_bind]
      exact hspace s₃ _ rfl h₃
    · cases t
      case value =>
        rw [post_bind]
        exact (returns_checkReserved h₃ hc').imp fun _ _ h => h
      all_goals exact h₃.found hc'

/-- What the loop of `next_token` uses up: text, and the one pass in which a first unit is
replaced. -/
def scanWork (s : Scanner σ) : Nat :=
  3 * s.remaining + if s.textStart < s.nextChar then 0
    else 1 + if s.nextChar < s.bufferLimit ∧ ¬ isTrail s.nextUnit then 0 else 1

theorem TokenFound.scanWork_lt {s₀ : Scanner σ} (h : TokenFound v s₀ t s)
    (h₀ : s₀.nextChar ≤ s₀.textStart) : scanWork s < scanWork s₀ := by
  have hr := h.remaining_le
  have hno : ¬ s₀.textStart < s₀.nextChar := by omega
  unfold scanWork
  rw [if_neg hno]
  rcases h.progress with hp | hp | ⟨hlt, htrail, hc⟩
  · rw [if_pos hp]
    omega
  · split <;> split <;> omega
  · have h1 : ¬ (s₀.nextChar < s₀.bufferLimit ∧ ¬ isTrail s₀.nextUnit) := fun ⟨h2, h3⟩ => h3 (hc h2)
    rw [if_neg h1,
      if_pos (show s.nextChar < s.bufferLimit ∧ ¬ isTrail s.nextUnit from ⟨hlt, htrail⟩)]
    split <;> omega

/-- A scanner between productions, with no more than `w` left to do. -/
def Ready (cfg : Config σ) (w : Nat) (s : Scanner σ) : Prop :=
  TokenInv cfg.cifVersion s.ttype s.tvalueLength s.toBuffer ∧
    work cfg.cifVersion s.ttype s.toBuffer ≤ w

/-- `next_token` finishes with a token, or at the end of the input, and gives nothing back. -/
theorem returns_nextToken {w : Nat} (hcfg : cfg.Legal) (h : Ready cfg w s) :
    Returns (nextToken cfg) s fun _ s' => Ready cfg w s' ∧
      (s'.ttype = .end_ ∨ s'.textStart < s'.nextChar) := by
  let I (t : TokenType × Bool) (s' : Scanner σ) : Prop :=
    TokenInv cfg.cifVersion t.1 s'.tvalueLength s'.toBuffer
      ∧ work cfg.cifVersion t.1 s'.toBuffer ≤ w
  rw [Returns, nextToken, post_bind, post_read, post_bind]
  have hbound : scanWork s < Scanner.tokenBound s := by
    simp only [scanWork, Scanner.tokenBound, remaining]
    split
    · omega
    · split <;> omega
  refine Returns.imp (Q := fun t s' => TokenInv cfg.cifVersion t s'.tvalueLength s'.toBuffer ∧
      work cfg.cifVersion t s'.toBuffer ≤ w ∧ (t = .end_ ∨ s'.textStart < s'.nextChar)) ?_ ?_
  · refine Halts.loop (I := I) (fun _ s' => scanWork s') ?_ h hbound
    rintro ⟨t, afterWs⟩ s₁ ⟨hinv, hle⟩
    rw [Halts, post_bind, post_read]
    dsimp only at hinv hle ⊢
    split
    · rename_i hnext
      have hbetween : Between cfg.cifVersion s₁.toBuffer :=
        ⟨Nat.le_antisymm hnext hinv.text_le, hinv.kept⟩
      have hwork : work cfg.cifVersion t s₁.toBuffer = 2 * s₁.remaining := by
        simp [work, tokenWeight, hnext]
      refine Post.imp (returns_scanToken hcfg afterWs hbetween) ?_ fun _ _ h => h
      rintro (⟨t', afterWs'⟩ | t') s₂ h₂
      · exact ⟨⟨h₂.inv, by have := h₂.work_le; omega⟩, h₂.scanWork_lt hnext⟩
      · obtain ⟨ht, hinv', hle'⟩ := h₂
        exact ⟨hinv', by omega, Or.inl ht⟩
    · exact ⟨hinv, hle, Or.inr (by omega)⟩
  · rintro t s' ⟨hinv, hle, hend⟩
    exact ⟨⟨hinv, hle⟩, hend⟩

end CifApi
