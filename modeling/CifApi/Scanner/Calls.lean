import CifApi.Exec.Rules
import CifApi.Scanner.Scan

/-! What calls of the callbacks and reads without conversion errors leave behind. -/
namespace CifApi

open Exec

variable {σ : Type} {cfg : Config σ} {cut : Prop} {s : Scanner σ} {E : Int → Scanner σ → Prop}

/-- The scanner after a call that leaves the world `w` and is recorded as `e`. -/
def Scanner.after (w : World σ) (e : Event σ) (s : Scanner σ) : Scanner σ := (s.setWorld w).push e

theorem post_errorCallback {r : ErrorReport} {Q : Int → Scanner σ → Prop} :
    Post cut (errorCallback cfg r) s Q E ↔
      Q (cfg.error r s.world).1
        (s.after (cfg.error r s.world).2
          (.error r (cfg.error r s.world).1 (cfg.error r s.world).2)) :=
  Iff.rfl

theorem post_report {code : Int} {line column : Nat} {text : List UChar}
    {Q : Unit → Scanner σ → Prop} :
    Post cut (report cfg code line column text) s Q E ↔
      Post cut (errorCallback cfg ⟨code, line, column, text⟩) s
        (fun reply t => (reply = Code.ok → Q () t) ∧ (reply ≠ Code.ok → E reply t)) E := by
  rw [report, post_bind]
  refine Iff.of_eq (congrArg (fun Q => Post cut _ s Q E) ?_)
  funext reply t
  by_cases h : reply = Code.ok <;> simp [h]

/-- Whatever an error callback answers, it changes the world and the log only. -/
theorem Post.report {code : Int} {line column : Nat} {text : List UChar}
    {Q : Unit → Scanner σ → Prop} (hQ : ∀ w e, Q () (s.after w e))
    (hE : ∀ c w e, E c (s.after w e)) :
    Post cut (report cfg code line column text) s Q E := by
  rw [post_report, post_errorCallback]
  exact ⟨fun _ => hQ _ _, fun _ => hE _ _ _⟩

section Reads

variable {Q : Bool → Scanner σ → Prop}

/-- The converter has a character for every byte sequence of the source. -/
def Buffer.Decoded (b : Buffer) : Prop := ∀ i, b.malformed i = none

theorem convertUnits_of_decoded (h : s.Decoded) {passes : Malformed → Parse σ Bool} {repl : UChar}
    (n i : Nat) :
    convertUnits passes repl n i s = some (.ok true, s) := by
  induction n generalizing i with
  | zero => rfl
  | succ n ih =>
    rw [convertUnits, bind_apply, read_apply]
    dsimp only
    rw [h]
    exact ih _

theorem post_toUnicode_of_decoded (h : s.Decoded) {n : Nat} :
    Post cut (toUnicode cfg n) s Q E ↔ Q true s := by
  rw [Post, toUnicode, convertUnits_of_decoded h]

theorem Buffer.makeRoom_malformed (b : Buffer) : b.makeRoom.malformed = b.malformed := by
  rw [makeRoom]
  split
  · rfl
  · split <;> rfl

theorem Buffer.fill_malformed (b : Buffer) : b.fill.2.malformed = b.malformed := by
  rw [fill]
  split <;> rfl

theorem post_getMoreChars_of_decoded (h : s.Decoded) : Post cut (getMoreChars cfg) s Q E ↔
    Q (decide (s.toBuffer.getMoreChars.1 = Code.ok))
      { s with toBuffer := s.toBuffer.getMoreChars.2 } := by
  have hroom : Buffer.Decoded s.makeRoom := fun i => (congrFun s.makeRoom_malformed i).trans (h i)
  rw [getMoreChars, post_bind, post_modify, post_bind, post_read, post_bind,
    post_toUnicode_of_decoded hroom, if_pos rfl, post_update]
  exact Iff.rfl

/-- The first character, where no conversion fails. -/
theorem post_getFirstChar_of_decoded (h : s.Decoded) : Post cut (getFirstChar cfg) s Q E ↔
    match s.toBuffer.readFirst with
    | (none, b) => Q false { s with toBuffer := b }
    | (some ch, b) =>
      if isDisallowedFirst cfg ch then
        Post cut (report cfg Code.disallowedInitialChar 1 0 [ch]) { s with toBuffer := b }
          (fun _ t => Q true { t with toBuffer := t.toBuffer.acceptFirst }) E
      else Q true { s with toBuffer := b.convertFirst.acceptFirst } := by
  rw [getFirstChar, post_bind, post_read, post_bind, post_toUnicode_of_decoded h, if_pos rfl,
    post_bind, post_update]
  have hread : Buffer.Decoded s.toBuffer.readFirst.2 := by
    rw [Buffer.readFirst]
    split
    · exact h
    · exact h
  generalize s.toBuffer.readFirst = first at hread ⊢
  obtain ⟨_ | ch, b⟩ := first
  · exact Iff.rfl
  · dsimp only
    split
    · rw [post_bind]
      exact Iff.rfl
    · rw [post_bind, post_read, post_bind, post_toUnicode_of_decoded hread]
      exact Iff.rfl

end Reads

end CifApi
