import CifApi.Exec.Discipline
import CifApi.Scanner.NextToken

/-! The scan functions keep to every discipline that error reports, syntax callbacks and edits of
the text keep to. -/
namespace CifApi

open Exec Scanner

variable {σ τ ω α : Type} {cfg : Config σ} {d : Discipline Int (Scanner σ)}

/-- What scanning a token edits: the buffer, the token's value and the position. -/
def Edited (s t : Scanner σ) : Prop :=
  t.world = s.world ∧ t.log = s.log ∧ t.skipDepth = s.skipDepth ∧ t.ttype = s.ttype

/-- A discipline that the calls and the edits of the scan functions keep to. -/
structure ToleratesScan (cfg : Config σ) (d : Discipline Int (Scanner σ)) : Prop where
  edit : ∀ s t, Edited s t → d.step s t
  report : ∀ code line column text, code ≠ Code.frameNotAllowed →
    Keeps True d (report cfg code line column text)
  element : ∀ r s,
    d.step s ((s.setWorld (cfg.element r s.world)).push (.element r (cfg.element r s.world)))
  toUnicodeCallback : ∀ kind, Keeps True d (toUnicodeCallback cfg kind)

/-- A discipline that calls of the error callback keep to, whatever they answer. -/
theorem keeps_toUnicodeCallback (hstop : ∀ e s, d.halt e s s)
    (herror : ∀ r, Keeps True d (errorCallback cfg r)) (kind : Malformed) :
    Keeps True d (toUnicodeCallback cfg kind) :=
  .bind .read fun _ => .bind (herror _) fun _ => .ite (fun _ => .pure _) fun _ =>
    .ite (fun _ => .pure _) fun _ => .stop (hstop _)

namespace ToleratesScan

variable (h : ToleratesScan cfg d)

include h

theorem keeps_modify {g : Scanner σ → Scanner σ} (hg : ∀ s, Edited s (g s)) :
    Keeps True d (modify g : Parse σ Unit) := .modify fun s => h.edit _ _ (hg s)

theorem keeps_convertUnits (repl : UChar) (n i : Nat) :
    Keeps True d (convertUnits (CifApi.toUnicodeCallback cfg) repl n i) := by
  induction n generalizing i with
  | zero => exact .pure _
  | succ n ih =>
    refine .bind .read fun s => ?_
    split
    · exact ih _
    · exact .bind (h.toUnicodeCallback _) fun _ => .ite
        (fun _ => .bind (h.keeps_modify fun _ => ⟨rfl, rfl, rfl, rfl⟩) fun _ => ih _)
        fun _ => .bind (h.keeps_modify fun _ => ⟨rfl, rfl, rfl, rfl⟩) fun _ => .pure _

theorem keeps_toUnicode (n : Nat) : Keeps True d (toUnicode cfg n) := h.keeps_convertUnits _ _ _

theorem keeps_getMoreChars : Keeps True d (getMoreChars cfg) :=
  .bind (h.keeps_modify fun _ => ⟨rfl, rfl, rfl, rfl⟩) fun _ => .bind .read fun _ =>
    .bind (h.keeps_toUnicode _) fun _ =>
      .ite (fun _ => .update fun _ => h.edit _ _ ⟨rfl, rfl, rfl, rfl⟩) fun _ => .pure _

theorem keeps_getFirstChar : Keeps True d (getFirstChar cfg) := by
  refine .bind .read fun _ => .bind (h.keeps_toUnicode _) fun _ => .ite (fun _ => ?_) fun _ =>
    .pure _
  refine .bind (.update fun s => h.edit _ _ ⟨rfl, rfl, rfl, rfl⟩) fun first => ?_
  cases first with
  | none => exact .pure _
  | some ch =>
    exact .ite (fun _ => .bind (h.report _ _ _ _ (by decide)) fun _ =>
      .bind (h.keeps_modify fun _ => ⟨rfl, rfl, rfl, rfl⟩) fun _ => .pure _) fun _ =>
      .bind .read fun _ => .bind (h.keeps_toUnicode _) fun _ =>
        .ite (fun _ => .bind (h.keeps_modify fun _ => ⟨rfl, rfl, rfl, rfl⟩) fun _ => .pure _)
          fun _ => .pure _

theorem keeps_peekChar : Keeps True d (peekChar cfg) :=
  .bind .read fun _ => .ite (fun _ => .ite (fun _ => .pure _) fun _ =>
    .bind h.keeps_getMoreChars fun _ => .ite (fun _ => .bind .read fun _ => .pure _) fun _ =>
      .pure _)
    fun _ => .pure _

theorem keeps_nextChar : Keeps True d (nextChar cfg) := by
  refine .bind h.keeps_peekChar fun c => ?_
  cases c with
  | none => exact .pure _
  | some c => exact .bind (h.keeps_modify fun _ => ⟨rfl, rfl, rfl, rfl⟩) fun _ => .pure _

theorem keeps_checkUnit (c : UChar) : Keeps True d (checkUnit cfg c) :=
  .bind .read fun _ => .bind (.when fun _ => h.report _ _ _ _ (by decide)) fun _ =>
    .when fun _ => h.report _ _ _ _ (by decide)

theorem keeps_handleUnpairedLead (lead : Bool) : Keeps True d (handleUnpairedLead cfg lead) :=
  .when fun _ => .bind .read fun _ => .bind (h.report _ _ _ _ (by decide)) fun _ =>
    h.keeps_modify fun _ => ⟨rfl, rfl, rfl, rfl⟩

theorem keeps_scanUChar (lead : Bool) : Keeps True d (scanUChar cfg lead) :=
  .bind (h.keeps_modify fun _ => ⟨rfl, rfl, rfl, rfl⟩) fun _ => .bind .read fun _ =>
    .ite (fun _ => .ite
      (fun _ => .bind (.when fun _ => h.report _ _ _ _ (by decide)) fun _ =>
        .bind (h.keeps_modify fun _ => ⟨rfl, rfl, rfl, rfl⟩) fun _ => .pure _)
      fun _ => .bind (h.report _ _ _ _ (by decide)) fun _ =>
        .bind (h.keeps_modify fun _ => ⟨rfl, rfl, rfl, rfl⟩) fun _ => .pure _)
    fun _ => .bind (h.keeps_checkUnit _) fun _ => .bind (h.keeps_handleUnpairedLead _) fun _ =>
      .bind (h.keeps_modify fun _ => ⟨rfl, rfl, rfl, rfl⟩) fun _ => .pure _

theorem keeps_handleEol (c : UChar) (sol : Nat) : Keeps True d (handleEol cfg c sol) :=
  .bind .read fun _ => .bind (.when fun _ => h.report _ _ _ _ (by decide)) fun _ =>
    .bind (h.keeps_modify fun _ => ⟨rfl, rfl, rfl, rfl⟩) fun _ => .pure _

theorem keeps_scanUnits {body : τ → Parse σ (τ ⊕ ω)} {atEnd : τ → Parse σ ω}
    (hb : ∀ t, Keeps True d (body t)) (he : ∀ t, Keeps True d (atEnd t)) (t : τ) :
    Keeps True d (scanUnits cfg body atEnd t) := by
  have hbuf : ∀ top t, Keeps True d (scanBuffered body top t) := by
    intro top t
    refine .loop (fun t => .bind .read fun s => .ite (fun _ => .bind (hb t) fun r => ?_) fun _ =>
      .pure _) t
    cases r <;> exact .pure _
  refine .loop (fun t => .bind .read fun s => .bind (hbuf _ t) fun r => ?_) t
  cases r with
  | inl t =>
    exact .bind h.keeps_getMoreChars fun _ => .ite (fun _ => .pure _) fun _ =>
      .bind (he t) fun _ => .pure _
  | inr w => exact .pure _

theorem keeps_backUpToEnd : Keeps True d (backUpToEnd : Parse σ (τ ⊕ Unit)) :=
  .bind (h.keeps_modify fun _ => ⟨rfl, rfl, rfl, rfl⟩) fun _ => .pure _

theorem keeps_endToken : Keeps True d (modify endToken : Parse σ Unit) :=
  h.keeps_modify fun _ => ⟨rfl, rfl, rfl, rfl⟩

theorem keeps_scanWs : Keeps True d (scanWs cfg) := by
  refine .bind (h.keeps_scanUnits (fun sol => .bind .read fun s => ?_) (fun _ => .pure _) 0)
    fun _ => h.keeps_endToken
  dsimp only
  split
  · exact .bind (h.keeps_modify fun _ => ⟨rfl, rfl, rfl, rfl⟩) fun _ => .pure _
  · exact .bind (h.keeps_handleEol _ _) fun _ =>
      .bind (h.keeps_modify fun _ => ⟨rfl, rfl, rfl, rfl⟩) fun _ => .pure _
  · exact .pure _

theorem keeps_scanTo (stops : UChar → Bool) : Keeps True d (scanTo cfg stops) :=
  .bind (h.keeps_scanUnits (fun _ => .bind (h.keeps_scanUChar _) fun _ =>
    .ite (fun _ => h.keeps_backUpToEnd) fun _ => .pure _) (fun _ => h.keeps_handleUnpairedLead _) _)
    fun _ => h.keeps_endToken

theorem keeps_scanUnquoted : Keeps True d (scanUnquoted cfg) := by
  refine .bind (h.keeps_scanUnits (fun st => .bind (h.keeps_scanUChar _) fun r => ?_)
    (fun _ => h.keeps_handleUnpairedLead _) _) fun _ => h.keeps_endToken
  dsimp only
  split
  · exact .pure _
  · exact .ite (fun _ => .pure _) fun _ => .bind .read fun _ => .bind (h.report _ _ _ _ (by decide))
      fun _ =>
      .bind .read fun _ => .bind (.modify fun s => h.element _ s) fun _ => h.keeps_backUpToEnd
  · exact .ite (fun _ => .pure _) fun _ => h.keeps_backUpToEnd
  · exact .ite (fun _ => h.keeps_backUpToEnd) fun _ => .pure _
  · exact .pure _

theorem keeps_unclosed (lead : Bool) : Keeps True d (do
    handleUnpairedLead cfg lead
    let s ← read
    CifApi.report cfg Code.unclosedText s.line s.column []
    pure 0 : Parse σ Nat) :=
  .bind (h.keeps_handleUnpairedLead _) fun _ => .bind .read fun _ =>
    .bind (h.report _ _ _ _ (by decide)) fun _ => .pure _

theorem keeps_setTvalue (start size : Nat) :
    Keeps True d (modify (setTvalue start size) : Parse σ Unit) :=
  h.keeps_modify fun _ => ⟨rfl, rfl, rfl, rfl⟩

theorem keeps_scanTripleDelimString : Keeps True d (scanTripleDelimString cfg) := by
  have hbody : ∀ delim st, Keeps True d (scanTripleUnit cfg delim st) := fun _ _ =>
    .bind (h.keeps_scanUChar _) fun _ => .ite (fun _ => .ite (fun _ => .pure _) fun _ => .pure _)
      fun _ =>
      .ite (fun _ => .bind (h.keeps_handleEol _ _) fun _ => .pure _) fun _ => .pure _
  exact .bind .read fun _ => .bind (h.keeps_scanUnits (hbody _) (fun _ => h.keeps_unclosed _) _)
    fun _ => h.keeps_setTvalue _ _

theorem keeps_scanText : Keeps True d (scanText cfg) := by
  have hbody : ∀ st, Keeps True d (scanTextUnit cfg st) := by
    intro st
    refine .bind (h.keeps_scanUChar _) fun r => ?_
    dsimp only
    split
    · exact .ite (fun _ => .bind .read fun _ => .ite (fun _ => .pure _) fun _ => .pure _) fun _ =>
        .pure _
    · exact .bind (h.keeps_handleEol _ _) fun _ => .pure _
    · exact .pure _
  exact .bind (h.keeps_scanUnits hbody (fun _ => h.keeps_unclosed _) _) fun _ =>
    h.keeps_setTvalue _ _

theorem keeps_scanDelimString : Keeps True d (scanDelimString cfg) := by
  have hbody : ∀ delim lead, Keeps True d (scanDelimUnit cfg delim lead) := by
    intro delim lead
    refine .bind (h.keeps_scanUChar _) fun _ => .ite (fun _ => .bind h.keeps_peekChar fun c => ?_)
      fun _ =>
      .ite (fun _ => .bind (h.keeps_modify fun _ => ⟨rfl, rfl, rfl, rfl⟩) fun _ => .pure _) fun _ =>
        .pure _
    cases c with
    | none => exact .pure _
    | some c =>
      exact .bind .read fun _ => .ite (fun _ => .ite (fun _ => .pure _) fun _ => .pure _) fun _ =>
        .ite (fun _ => .bind (h.keeps_modify fun _ => ⟨rfl, rfl, rfl, rfl⟩) fun _ => .pure _)
          fun _ => .pure _
  refine .bind .read fun s => .bind (h.keeps_scanUnits (hbody _)
    (fun _ => .bind (h.keeps_handleUnpairedLead _) fun _ => .pure _) _) fun how => ?_
  cases how with
  | delim => exact h.keeps_setTvalue _ _
  | endOfLine =>
    exact .bind .read fun _ => .bind (h.report _ _ _ _ (by decide)) fun _ => h.keeps_setTvalue _ _
  | triple => exact h.keeps_scanTripleDelimString

theorem keeps_scanLexeme (clazz : CharClass) : Keeps True d (scanLexeme cfg clazz) := by
  have hadvance : Keeps True d (modify (·.advance) : Parse σ Unit) :=
    h.keeps_modify fun _ => ⟨rfl, rfl, rfl, rfl⟩
  have hbackUp : Keeps True d (modify (·.backUp) : Parse σ Unit) :=
    h.keeps_modify fun _ => ⟨rfl, rfl, rfl, rfl⟩
  have hlength : Keeps True d (setTokenLength 1 : Parse σ Unit) :=
    h.keeps_modify fun _ => ⟨rfl, rfl, rfl, rfl⟩
  have hquoted : Keeps True d (scanQuoted cfg) := by
    refine .bind h.keeps_scanDelimString fun _ => .bind h.keeps_peekChar fun c => ?_
    cases c with
    | none => exact .pure _
    | some c => exact .ite (fun _ => .bind hadvance fun _ => .pure _) fun _ => .pure _
  have htext : Keeps True d (scanTextBlock cfg) := by
    refine .bind h.keeps_scanText fun _ => .ite (fun _ => .bind h.keeps_peekChar fun c => ?_)
      fun _ => .pure _
    cases c with
    | none => exact .pure _
    | some c => exact .ite (fun _ => .bind hadvance fun _ => .pure _) fun _ => .pure _
  have hunquoted : Keeps True d (do
      modify (·.backUp)
      scanUnquoted cfg
      pure (Lexeme.token .value)) :=
    .bind hbackUp fun _ => .bind h.keeps_scanUnquoted fun _ => .pure _
  cases clazz
  case eol => exact .bind hbackUp fun _ => .bind h.keeps_scanWs fun _ => .pure _
  case ws => exact .bind h.keeps_scanWs fun _ => .pure _
  case hash => exact .bind (h.keeps_scanTo _) fun _ => .pure _
  case undersc => exact .bind (h.keeps_scanTo _) fun _ => .pure _
  case obrak => exact .bind hlength fun _ => .pure _
  case cbrak => exact .bind hlength fun _ => .pure _
  case ocurl => exact .bind hlength fun _ => .pure _
  case ccurl => exact .bind hlength fun _ => .pure _
  case quote => exact .bind hquoted fun _ => .pure _
  case semi =>
    exact .bind .read fun _ => .ite (fun _ => .bind htext fun _ => .pure _) fun _ =>
      .bind h.keeps_scanUnquoted fun _ => .pure _
  all_goals exact hunquoted

theorem keeps_checkReserved : Keeps True d (checkReserved cfg) := by
  have hdrop : ∀ t : TokenType, Keeps True d (do modify dropKeyword; pure t : Parse σ TokenType) :=
    fun _ => .bind (h.keeps_modify fun _ => ⟨rfl, rfl, rfl, rfl⟩) fun _ => .pure _
  refine .bind .read fun s => ?_
  split
  · exact .pure _
  · exact hdrop _
  · exact hdrop _
  · exact hdrop _
  · exact hdrop _
  · exact .bind (h.report _ _ _ _ (by decide)) fun _ =>
      .bind (h.keeps_modify fun _ => ⟨rfl, rfl, rfl, rfl⟩) fun _ => .pure _

theorem keeps_separateToken (clazz : CharClass) (afterWs : Bool) :
    Keeps True d (separateToken cfg clazz afterWs) := by
  refine .bind .read fun s => ?_
  split
  · exact .pure _
  · exact .modify fun s => h.element _ s
  · exact .bind (.when fun _ => h.report _ _ _ _ (by decide)) fun _ =>
      .when fun _ => .bind .read fun _ => .modify fun s => h.element _ s

theorem keeps_scanToken (afterWs : Bool) : Keeps True d (scanToken cfg afterWs) := by
  have hconsume : Keeps True d (modify consumeToken : Parse σ Unit) :=
    h.keeps_modify fun _ => ⟨rfl, rfl, rfl, rfl⟩
  refine .bind (h.keeps_modify fun _ => ⟨rfl, rfl, rfl, rfl⟩) fun _ => .bind h.keeps_nextChar
    fun c => ?_
  cases c with
  | none => exact .pure _
  | some c =>
    refine .bind (h.keeps_separateToken _ _) fun _ => .bind (h.keeps_scanLexeme _) fun l => ?_
    split
    · exact .bind .read fun _ => .bind (.when fun _ => .modify fun s => h.element _ s) fun _ =>
        .bind hconsume fun _ => .pure _
    · exact .bind .read fun _ => .bind (.modify fun s => h.element _ s) fun _ =>
        .bind hconsume fun _ => .pure _
    · exact .bind h.keeps_checkReserved fun _ => .pure _
    · exact .pure _

/-- All of `next_token`, if the discipline lets the token type change too. -/
theorem keeps_nextToken (ht : ∀ t s, d.step s (s.setTtype t)) : Keeps True d (nextToken cfg) :=
  .bind .read fun _ => .bind (.loop (fun _ => .bind .read fun _ =>
    .ite (fun _ => h.keeps_scanToken _) fun _ => .pure _) _) fun _ => .modify (ht _)

end ToleratesScan

end CifApi
