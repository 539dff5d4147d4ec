import CifApi.Exec.Discipline
import CifApi.Parser.Parse
import CifApi.Store.Binding

/-! The productions keep to every discipline that the calls and the edits they are made of keep
to. -/
namespace CifApi

open Exec Scanner

variable {σ : Type} {cfg : Config σ} {cut : Prop} {d : Discipline Int (Scanner σ)}

/-- The answers of a handler that end the parse; two of the calls have most answers ignored. -/
def Obeyed (call : HandlerCall) (code : Int) : Prop :=
  match call with
  | .loopStart .. | .packetStart => code = Code.traverseEnd
  | _ => code ≠ Code.traverseContinue ∧ code ≠ Code.traverseSkipCurrent ∧
      code ≠ Code.traverseSkipSiblings

/-- A discipline that error reports, syntax callbacks and the store operations that bind no values
keep to. -/
structure ToleratesStore (cfg : Config σ) (cut : Prop) (d : Discipline Int (Scanner σ)) : Prop where
  stop : ∀ e s, d.halt e s s
  store : ∀ call before result w s, call.binds = false →
    d.step s ((s.setWorld w).push (.store call before result w))
  element : ∀ r s,
    d.step s ((s.setWorld (cfg.element r s.world)).push (.element r (cfg.element r s.world)))
  report : ∀ code line column text, code ≠ Code.frameNotAllowed →
    Keeps cut d (report cfg code line column text)

theorem bareValue_keeps (hstop : ∀ e s, d.halt e s s)
    (hreport : ∀ {line column : Nat} {text : List UChar},
    Keeps cut d (report cfg Code.invalidBareValue line column text)) : Keeps cut d
      (bareValue cfg) := by
  refine .bind .read fun s => .ite (fun _ => .pure _) fun _ => .ite (fun _ => .pure _) fun _ => ?_
  dsimp only
  split
  · exact .pure _
  · exact .ite (fun _ => .bind hreport fun _ => .pure _) fun _ => .stop (hstop _)

namespace ToleratesStore

variable (h : ToleratesStore cfg cut d)

include h

theorem keeps_stop {α : Type} (e : Int) : Keeps cut d (Exec.stop e : Parse σ α) := .stop (h.stop e)

theorem keeps_ofResult {α : Type} (r : Except Int α) : Keeps cut d (ofResult r : Parse σ α) := by
  cases r with
  | ok a => exact .pure a
  | error e => exact h.keeps_stop e

theorem keeps_store {α : Type} {call : StoreCall} (hcall : call.binds = false)
    (f : Cif → Except Int α × Cif) :
    Keeps cut d (storeCall call f : Parse σ (Except Int α)) :=
  .update fun s => h.store call _ _ _ s hcall

theorem keeps_element (element : SyntaxElement) (line column : Nat) (text : List UChar) :
    Keeps cut d (syntaxCallback cfg element line column text) :=
  .modify fun s => h.element _ s

theorem keeps_reportToken {code : Int} (hc : code ≠ Code.frameNotAllowed) :
    Keeps cut d (reportToken cfg code) :=
  .bind .read fun _ => h.report _ _ _ _ hc

theorem keeps_reportBefore {code : Int} (hc : code ≠ Code.frameNotAllowed) :
    Keeps cut d (reportBefore cfg code) :=
  .bind .read fun _ => h.report _ _ _ _ hc

theorem keeps_setItemByKey (key : UStr) : Keeps cut d (setItemByKey cfg key) :=
  .bind (h.keeps_store rfl _) fun _ => h.keeps_ofResult _

theorem keeps_bareValue : Keeps cut d (bareValue cfg) :=
  bareValue_keeps h.stop (h.report _ _ _ _ (by decide))

theorem keeps_hasItem (container : Option Container) (name : UStr) :
    Keeps cut d (hasItem cfg container name) := by
  cases container with
  | none => exact .pure _
  | some container =>
    refine .bind (h.keeps_store rfl _) fun r => ?_
    cases r with
    | ok loop => exact .pure _
    | error e => exact .ite (fun _ => .pure _) fun _ => h.keeps_stop _

theorem keeps_pruneContainer (container : Option Container) :
    Keeps cut d (pruneContainer container : Parse σ Unit) := by
  cases container with
  | none => exact .pure _
  | some container => exact .bind (h.keeps_store rfl _) fun _ => h.keeps_ofResult _

theorem keeps_createFrame (container : Container) (code : UStr) :
    Keeps cut d (createFrame cfg container code) := by
  have reopen : Keeps cut d (do
      reportToken cfg Code.dupFramecode
      ofResult (← storeCall (.getFrame container code)
        fun cif => (cif.getFrame cfg.icu container code, cif)) : Parse σ Container) :=
    .bind (h.keeps_reportToken (by decide)) fun _ => .bind (h.keeps_store rfl _) fun _ =>
      h.keeps_ofResult _
  refine .bind (h.keeps_store rfl _) fun r => ?_
  cases r with
  | ok frame => exact .pure _
  | error e =>
    refine .ite (fun he => .bind (h.keeps_reportToken (by rw [he]; decide)) fun _ =>
      .bind (h.keeps_store rfl _) fun r => ?_) fun _ => .ite (fun _ => reopen) fun _ =>
        h.keeps_stop _
    cases r with
    | ok frame => exact .pure _
    | error e => exact .ite (fun _ => reopen) fun _ => h.keeps_stop _

theorem keeps_createBlock (code : UStr) : Keeps cut d (createBlock cfg code) := by
  have reopen : Keeps cut d (do
      reportToken cfg Code.dupBlockcode
      ofResult (← storeCall (.getBlock code) fun cif => (cif.getBlock cfg.icu code, cif)) :
        Parse σ Container) :=
    .bind (h.keeps_reportToken (by decide)) fun _ => .bind (h.keeps_store rfl _) fun _ =>
      h.keeps_ofResult _
  refine .bind (h.keeps_store rfl _) fun r => ?_
  cases r with
  | ok block => exact .pure _
  | error e =>
    refine .ite (fun he => .bind (h.keeps_reportToken (by rw [he]; decide)) fun _ =>
      .bind (h.keeps_store rfl _) fun r => ?_) fun _ => .ite (fun _ => reopen) fun _ =>
        h.keeps_stop _
    cases r with
    | ok block => exact .pure _
    | error e => exact .ite (fun _ => reopen) fun _ => h.keeps_stop _

theorem keeps_createAnonymousBlock : Keeps cut d (createAnonymousBlock cfg) := by
  refine .bind (h.keeps_store rfl _) fun r => ?_
  cases r with
  | ok block => exact .pure _
  | error e =>
    exact .ite (fun _ => .bind (h.keeps_store rfl _) fun _ => h.keeps_ofResult _) fun _ =>
      h.keeps_stop _

end ToleratesStore

/-- A discipline that also the store operations that bind values keep to; where `cut` does not allow
for runs that do not end, binding always does. -/
structure ToleratesBinding (cfg : Config σ) (cut : Prop) (d : Discipline Int (Scanner σ)) : Prop
    extends ToleratesStore cfg cut d where
  binding : ∀ call before result w s, call.binds = true →
    d.step s ((s.setWorld w).push (.store call before result w))
  ends : cut ∨ ∀ value, cfg.props value ≠ none

namespace ToleratesBinding

variable (h : ToleratesBinding cfg cut d)

include h

theorem keeps_binding {α : Type} {call : StoreCall} (hcall : call.binds = true)
    {f : Cif → Option (Except Int α × Cif)}
    (hf : (∀ value, cfg.props value ≠ none) → ∀ cif, f cif ≠ none) :
    Keeps cut d (bindingCall call f : Parse σ (Except Int α)) := by
  refine .operate (h.ends.imp id fun hends s hnone =>
    hf hends _ (Option.map_eq_none_iff.mp hnone)) ?_
  intro s r t hrun
  obtain ⟨⟨r', cif⟩, -, heq⟩ := Option.map_eq_some_iff.mp hrun
  cases heq
  exact h.binding call _ _ _ s hcall

theorem keeps_addPacket (packet : Packet) (loop : Option Loop) :
    Keeps cut d (addPacket cfg packet loop) := by
  cases loop with
  | none => exact .pure _
  | some loop =>
    exact .bind (h.keeps_binding rfl fun hends _ => Cif.addPacket_ne_none fun _ _ => hends _)
      fun _ =>
      h.keeps_ofResult _

theorem keeps_setValue (container : Container) (name : UStr) (value : Value) :
    Keeps cut d (bindingCall (.setValue container name value)
      (·.setValue cfg.icu cfg.props container name value) : Parse σ (Except Int Unit)) :=
  h.keeps_binding rfl fun hends _ => Cif.setValue_ne_none (hends _)

end ToleratesBinding

/-- A discipline that callbacks, changes of the skip depth and the store operations that bind no
values keep to. -/
structure ToleratesCalls (cfg : Config σ) (cut : Prop) (d : Discipline Int (Scanner σ)) : Prop where
  stop : ∀ e s, d.halt e s s
  skip : ∀ n s, d.step s (s.setSkipDepth n)
  halt_skip : ∀ {e s t} n, d.halt e s t → d.halt e s (t.setSkipDepth n)
  store : ∀ call before result w s, call.binds = false →
    d.step s ((s.setWorld w).push (.store call before result w))
  element : ∀ r s,
    d.step s ((s.setWorld (cfg.element r s.world)).push (.element r (cfg.element r s.world)))
  enter : ∀ entity, entity ≠ .block → entity ≠ .frame → ∀ s, d.step s (s.push (.enter entity))
  leave : ∀ entity, entity ≠ .block → entity ≠ .frame → ∀ s, d.step s (s.push (.leave entity))
  report : ∀ code line column text, code ≠ Code.frameNotAllowed →
    Keeps cut d (report cfg code line column text)
  /-- An obeyed answer has to end the run at once. -/
  handler : ∀ {α : Type} (call : HandlerCall) (f : HandlerReply σ → Parse σ α),
    (∀ reply, Keeps cut d (f reply)) →
    (∀ reply, Obeyed call reply.code → f reply = Exec.stop reply.code) →
    Keeps cut d (handlerCallback cfg call >>= f)

namespace ToleratesCalls

variable (h : ToleratesCalls cfg cut d)

include h

theorem stores : ToleratesStore cfg cut d := ⟨h.stop, h.store, h.element, h.report⟩

theorem keeps_setSkipDepth (n : Nat) : Keeps cut d (modify (setSkipDepth n) : Parse σ Unit) :=
  .modify (h.skip n)

theorem keeps_deepenSkip : Keeps cut d (modify deepenSkip : Parse σ Unit) :=
  .modify fun s => h.skip _ s

theorem keeps_leaveSkip : Keeps cut d (modify leaveSkip : Parse σ Unit) :=
  .modify fun s => h.skip _ s

theorem keeps_ensure {α : Type} {m : Parse σ α} (hm : Keeps cut d m) :
    Keeps cut d (m.ensure leaveSkip) :=
  .ensure hm (fun s => h.skip _ s) fun _ _ _ hh => h.halt_skip _ hh

theorem keeps_onStop {α : Type} {m : Parse σ α} (hm : Keeps cut d m) :
    Keeps cut d (m.onStop leaveSkip) :=
  .onStop hm fun _ _ _ hh => h.halt_skip _ hh

theorem keeps_startPacket : Keeps cut d (startPacket cfg) := by
  refine .bind (.modify (h.enter _ (by simp) (by simp))) fun _ => .bind .read fun s =>
    .ite (fun _ => h.keeps_deepenSkip) fun _ => h.handler _ _ (fun reply => ?_) fun reply ho => ?_
  · exact .ite (fun _ => h.keeps_setSkipDepth _) fun _ => .ite (fun _ => h.keeps_setSkipDepth _)
      fun _ =>
      .ite (fun _ => h.stores.keeps_stop _) fun _ => .pure _
  · have ho : reply.code = Code.traverseEnd := ho
    simp [ho]

theorem keeps_handlePacketItem (name : Option UStr) (value : Value) :
    Keeps cut d (handlePacketItem cfg name value) := by
  refine h.handler _ _ (fun reply => ?_) fun reply ho => ?_
  · exact .ite (fun _ => .bind (.pure _) fun _ => .pure _) fun _ =>
      .ite (fun _ => .bind (h.keeps_setSkipDepth _) fun _ => .pure _) fun _ =>
      .ite (fun _ => .bind (h.stores.keeps_stop _) fun _ => .pure _) fun _ => .pure _
  · obtain ⟨h1, h2, h3⟩ := ho
    rw [if_neg h2, if_neg h3, if_pos h1]
    rfl

theorem keeps_startLoop (container : Option Container) (names : List UStr) :
    Keeps cut d (startLoop cfg container names) := by
  refine .bind .read fun s => .ite (fun _ => .pure _) fun _ => h.handler _ _ (fun reply => ?_)
    fun reply ho => ?_
  · refine .ite (fun _ => ?_) fun _ => ?_
    · cases container with
      | none => exact .pure _
      | some container =>
        refine .bind (h.stores.keeps_store rfl _) fun r => ?_
        cases r with
        | ok loop => exact .pure _
        | error e =>
          exact .ite (fun _ => .pure _) fun _ => .ite (fun _ => h.stores.keeps_stop _) fun _ =>
            h.stores.keeps_stop _
    · exact .ite (fun _ => .bind (h.keeps_setSkipDepth _) fun _ => .pure _) fun _ =>
        .ite (fun _ => .bind (h.keeps_setSkipDepth _) fun _ => .pure _) fun _ =>
        .ite (fun _ => .bind (h.stores.keeps_stop _) fun _ => .pure _) fun _ => .pure _
  · have ho : reply.code = Code.traverseEnd := ho
    simp [ho]
    rfl

theorem keeps_endLoop (loop : Option Loop) : Keeps cut d (endLoop cfg loop) := by
  refine .bind .read fun s => .ite (fun _ => h.keeps_leaveSkip) fun _ =>
    h.handler _ _ (fun reply => ?_) fun reply ho => ?_
  · exact .ite (fun _ => .pure _) fun _ => .ite (fun _ => h.keeps_setSkipDepth _) fun _ =>
      .ite (fun _ => h.stores.keeps_stop _) fun _ => .pure _
  · obtain ⟨h1, h2, h3⟩ := ho
    rw [if_neg h2, if_neg h3, if_pos h1]

theorem keeps_startContainer (container : Option Container) (isBlock : Bool) :
    Keeps cut d (startContainer cfg container isBlock) := by
  refine .bind .read fun s => .ite (fun _ => h.keeps_deepenSkip) fun _ =>
    h.handler _ _ (fun reply => ?_) fun reply ho => ?_
  · exact .ite (fun _ => .pure _) fun _ => .ite (fun _ => h.keeps_setSkipDepth _) fun _ =>
      .ite (fun _ => h.keeps_setSkipDepth _) fun _ => h.stores.keeps_stop _
  · have ho : reply.code ≠ Code.traverseContinue ∧ reply.code ≠ Code.traverseSkipCurrent ∧
        reply.code ≠ Code.traverseSkipSiblings := by
      cases isBlock <;> exact ho
    obtain ⟨h1, h2, h3⟩ := ho
    rw [if_neg h1, if_neg h2, if_neg h3]

theorem keeps_endContainer (container : Option Container) (isBlock : Bool) :
    Keeps cut d (endContainer cfg container isBlock) := by
  refine .bind .read fun s => .when fun _ => .bind (h.stores.keeps_pruneContainer _) fun _ =>
    h.handler _ _ (fun reply => ?_) fun reply ho => ?_
  · exact .ite (fun _ => h.keeps_setSkipDepth _) fun _ => .ite (fun _ => .pure _) fun _ =>
      h.stores.keeps_stop _
  · have ho : reply.code ≠ Code.traverseContinue ∧ reply.code ≠ Code.traverseSkipCurrent ∧
        reply.code ≠ Code.traverseSkipSiblings := by
      cases isBlock <;> exact ho
    obtain ⟨h1, h2, h3⟩ := ho
    rw [if_neg h3, if_neg (by simp [h1, h2])]

end ToleratesCalls

/-- A discipline that callbacks, changes of the skip depth and all store operations keep to. -/
structure ToleratesRecording (cfg : Config σ) (cut : Prop) (d : Discipline Int (Scanner σ)) : Prop
    extends ToleratesCalls cfg cut d, ToleratesBinding cfg cut d

namespace ToleratesRecording

variable (h : ToleratesRecording cfg cut d)

include h

theorem binds : ToleratesBinding cfg cut d := h.toToleratesBinding

theorem keeps_recordItem (container : Container) (name : UStr) (value : Value) :
    Keeps cut d (recordItem cfg container name value) := by
  refine h.handler _ _ (fun reply => ?_) fun reply ho => ?_
  · exact .ite (fun _ => .bind (h.binds.keeps_setValue _ _ _) fun _ => h.stores.keeps_ofResult _)
      fun _ =>
      .ite (fun _ => .pure _) fun _ => .ite (fun _ => h.keeps_setSkipDepth _) fun _ =>
        h.stores.keeps_stop _
  · obtain ⟨h1, h2, h3⟩ := ho
    rw [if_neg h1, if_neg h2, if_neg h3]

theorem keeps_recordPacket (loop : Option Loop) (packet : Packet) :
    Keeps cut d (recordPacket cfg loop packet) := by
  refine h.handler _ _ (fun reply => ?_) fun reply ho => ?_
  · exact .ite (fun _ => .bind (h.binds.keeps_addPacket _ _) fun _ => .pure _) fun _ =>
      .ite (fun _ => .bind (.pure _) fun _ => .pure _) fun _ =>
      .ite (fun _ => .bind (h.keeps_setSkipDepth _) fun _ => .pure _) fun _ =>
      .bind (h.stores.keeps_stop _) fun _ => .pure _
  · obtain ⟨h1, h2, h3⟩ := ho
    dsimp only
    rw [if_neg h1, if_neg h2, if_neg h3]
    rfl

theorem keeps_endPacket (loop : Option Loop) (packet : Packet) :
    Keeps cut d (endPacket cfg loop packet) := by
  have close : Keeps cut d (closePacket cfg loop packet) :=
    .bind .read fun s => .ite (fun _ => .bind h.keeps_leaveSkip fun _ => .pure _) fun _ =>
      h.keeps_recordPacket _ _
  exact .bind close fun packet =>
    .bind (.modify (h.leave .packet (by simp) (by simp))) fun _ => .pure packet

theorem keeps_endLoopBody (loop : Option Loop) (names : List UStr) (columns : List (Option Nat))
    (st : PacketState) : Keeps cut d (endLoopBody cfg loop names columns st) :=
  .ite (fun _ => .bind (h.stores.keeps_reportBefore (by decide)) fun _ =>
    .bind (h.keeps_endPacket _ _) fun _ => .pure _) fun _ =>
    .ite (fun _ => h.stores.keeps_reportToken (by decide)) fun _ => .pure _

end ToleratesRecording

theorem keeps_openBlock (hasCif : Bool) {create : Parse σ Container} (hc : Keeps cut d create) :
    Keeps cut d (openBlock hasCif create) :=
  .bind .read fun _ => .ite (fun _ => .bind hc fun _ => .pure _) fun _ => .pure _

end CifApi
