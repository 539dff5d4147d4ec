import CifApi.Parser.Discipline
import CifApi.Scanner.Discipline

/-! Whole productions, and a whole parse, keep to every discipline that their calls and edits keep
to. -/
namespace CifApi

open Exec Scanner

variable {σ : Type} {cfg : Config σ} {d : Discipline Int (Scanner σ)} {P : Bool → Scanner σ → Prop}

/-- A discipline that the productions for values keep to. -/
structure ToleratesValues (cfg : Config σ) (d : Discipline Int (Scanner σ)) :
    Prop extends ToleratesScan cfg d where
  stop : ∀ e s, d.halt e s s
  ttype : ∀ ttype s, d.step s (s.setTtype ttype)
  setItemByKey : ∀ key, Keeps True d (setItemByKey cfg key)

namespace ToleratesValues

variable (h : ToleratesValues cfg d)

include h

theorem next : Keeps True d (nextToken cfg) := h.keeps_nextToken h.ttype

theorem consume : Keeps True d (modify consumeToken : Parse σ Unit) :=
  h.keeps_modify fun _ => ⟨rfl, rfl, rfl, rfl⟩

theorem elementCall (element : SyntaxElement) (line column : Nat) (text : List UChar) :
    Keeps True d (syntaxCallback cfg element line column text) :=
  .modify fun s => h.element _ s

theorem keeps_reportToken {code : Int} (hc : code ≠ Code.frameNotAllowed) :
    Keeps True d (reportToken cfg code) :=
  .bind .read fun _ => h.report _ _ _ _ hc

theorem keeps_reportBefore {code : Int} (hc : code ≠ Code.frameNotAllowed) :
    Keeps True d (reportBefore cfg code) :=
  .bind .read fun _ => h.report _ _ _ _ hc

theorem keeps_bareValue : Keeps True d (bareValue cfg) :=
  bareValue_keeps h.stop (h.report _ _ _ _ (by decide))

theorem keeps_pushBackColon : Keeps True d (pushBackColon cfg) := by
  refine .bind (.modify fun s => ?_) fun _ => .bind .read fun s => h.elementCall _ _ _ _
  exact d.trans (h.edit s s.pushBack ⟨rfl, rfl, rfl, rfl⟩) (h.ttype _ _)

theorem keeps_splitKey : Keeps True d (splitKey cfg) :=
  .bind .read fun _ => .bind (h.report _ _ _ _ (by decide)) fun _ => h.keeps_pushBackColon

theorem keeps_splitKeyAtColon : Keeps True d (splitKeyAtColon cfg) :=
  .bind .read fun _ => .bind (h.report _ _ _ _ (by decide)) fun _ => h.keeps_pushBackColon

variable {self : Parse σ Value} (hself : Keeps True d self)

include hself

theorem keeps_parseList : Keeps True d (parseList cfg self) := by
  refine .bind (.loop (fun list => ?_) _) fun _ => .pure _
  have helement : Keeps True d
      (do return .inl (list ++ [← self]) : Parse σ (List Value ⊕ List Value)) :=
    .bind hself fun _ => .pure _
  refine .bind h.next fun _ => .bind .read fun s => ?_
  split
  · exact .bind h.keeps_splitKey fun _ => helement
  · exact .bind h.keeps_splitKey fun _ => helement
  · exact helement
  · exact helement
  · exact helement
  · exact helement
  · exact helement
  · exact .bind h.consume fun _ => .pure _
  · exact .bind (h.keeps_reportToken (by decide)) fun _ => .pure _

omit hself in
theorem keeps_bareKey : Keeps True d (bareKey cfg) := by
  refine .bind .read fun s => .ite (fun _ => ?_) fun _ => ?_
  · exact .bind (h.keeps_reportToken (by decide)) fun _ =>
      .bind (.when fun _ => h.keeps_modify fun _ => ⟨rfl, rfl, rfl, rfl⟩) fun _ =>
      .bind h.consume fun _ => .pure _
  · split
    · rename_i i _
      refine .bind (h.keeps_reportToken (by decide)) fun _ => .bind (.modify fun s => ?_) fun _ =>
        .bind .read fun _ => .bind h.consume fun _ => .pure _
      exact d.trans
        (h.edit s { s.trimToken (i + 2) with tvalueLength := i + 1 } ⟨rfl, rfl, rfl, rfl⟩)
        (h.ttype .key { s.trimToken (i + 2) with tvalueLength := i + 1 })
    · exact .bind (h.keeps_reportToken (by decide)) fun _ => .bind h.consume fun _ => .pure _

theorem keeps_parseTableKey : Keeps True d (parseTableKey cfg self) := by
  refine .bind h.next fun _ => .bind .read fun s => ?_
  have hmissing : Keeps True d (do
      reportToken cfg Code.missingKey
      let _ ← self
      pure .dropped : Parse σ TableKey) :=
    .bind (h.keeps_reportToken (by decide)) fun _ => .bind hself fun _ => .pure _
  split
  · exact h.keeps_bareKey
  · exact .bind h.consume fun _ => .pure _
  · exact .bind (h.keeps_reportToken (by decide)) fun _ => .bind h.consume fun _ => .pure _
  · exact hmissing
  · exact hmissing
  · exact hmissing
  · exact hmissing
  · exact .bind h.consume fun _ => .pure _
  · exact .bind (h.keeps_reportBefore (by decide)) fun _ => .pure _

theorem keeps_parseTableValue : Keeps True d (parseTableValue cfg self) :=
  .bind h.next fun _ => .bind .read fun _ => .ite (fun _ => hself) fun _ =>
    .bind (h.keeps_reportToken (by decide)) fun _ => .pure _

theorem keeps_parseTable : Keeps True d (parseTable cfg self) := by
  refine .bind (.loop (fun entries => ?_) _) fun _ => .pure _
  refine .bind (h.keeps_parseTableKey hself) fun key => ?_
  split
  · exact .pure _
  · exact .pure _
  · exact .bind (h.keeps_parseTableValue hself) fun _ => .pure _
  · exact .bind (h.setItemByKey _) fun _ => .bind (h.keeps_parseTableValue hself) fun _ => .pure _

theorem keeps_parseValueBody : Keeps True d (parseValueBody cfg self) := by
  refine .bind h.next fun _ => .bind .read fun s => ?_
  split
  · exact .bind h.consume fun _ => h.keeps_parseList hself
  · exact .bind h.consume fun _ => h.keeps_parseTable hself
  · exact .bind h.consume fun _ => .pure _
  · exact .bind h.consume fun _ => .pure _
  · exact .bind h.keeps_bareValue fun _ => .bind h.consume fun _ => .pure _
  · exact .stop (h.stop _)

omit hself in
theorem keeps_parseValue : Keeps True d (parseValue cfg) :=
  .fix (fun _ hself _ => h.keeps_parseValueBody (hself ())) ()

omit hself in
theorem keeps_parseItemValue : Keeps True d (parseItemValue cfg) := by
  refine .bind .read fun s => ?_
  split
  · exact .bind h.keeps_splitKeyAtColon fun _ => h.keeps_parseValue
  · exact .bind h.keeps_splitKeyAtColon fun _ => h.keeps_parseValue
  · exact h.keeps_parseValue
  · exact h.keeps_parseValue
  · exact h.keeps_parseValue
  · exact h.keeps_parseValue
  · exact h.keeps_parseValue
  · exact .bind (h.keeps_reportToken (by decide)) fun _ => .pure _

omit hself in
theorem keeps_parseLoopHeader (hitem : ∀ container name, Keeps True d (hasItem cfg container name))
    (container : Option Container) : Keeps True d (parseLoopHeader cfg container) := by
  refine .loop (fun names => ?_) _
  refine .bind h.next fun _ => .bind .read fun s => .ite (fun _ => ?_) fun _ => .pure _
  refine .bind (.when fun _ => h.elementCall _ _ _ _) fun _ => .bind (hitem _ _) fun has => ?_
  exact .ite (fun _ => .bind (h.keeps_reportToken (by decide)) fun _ => .bind h.consume fun _ =>
    .pure _) fun _ => .bind h.consume fun _ => .pure _

end ToleratesValues

/-- A discipline that all a production does keeps to; `P` tells what holds directly inside a block
or a frame. -/
structure Tolerates (cfg : Config σ) (d : Discipline Int (Scanner σ))
    (P : Bool → Scanner σ → Prop) : Prop
    extends ToleratesScan cfg d, ToleratesRecording cfg True d where
  ttype : ∀ ttype s, d.step s (s.setTtype ttype)
  inside : ∀ isBlock s t, P isBlock s → d.step s t → P isBlock t
  frameEnds : ∀ isBlock, Keeps True (d.within (P isBlock)) (frameEndsContainer cfg isBlock)
  container : ∀ isBlock (m : Parse σ Unit), Keeps True (d.within (P isBlock)) m →
    Keeps True d (inEntity (containerEntity isBlock) m)

namespace Tolerates

variable (h : Tolerates cfg d P)

include h

theorem next : Keeps True d (nextToken cfg) := h.keeps_nextToken h.ttype

theorem consume : Keeps True d (modify consumeToken : Parse σ Unit) :=
  h.keeps_modify fun _ => ⟨rfl, rfl, rfl, rfl⟩

theorem elementCall (element : SyntaxElement) (line column : Nat) (text : List UChar) :
    Keeps True d (syntaxCallback cfg element line column text) :=
  h.stores.keeps_element element line column text

/-- In particular the productions for values keep to it. -/
theorem values : ToleratesValues cfg d where
  toToleratesScan := h.toToleratesScan
  stop := h.stop
  ttype := h.ttype
  setItemByKey := h.stores.keeps_setItemByKey

section Items

theorem keeps_parseItem (container : Option Container) (name : Option UStr) :
    Keeps True d (parseItem cfg container name) := by
  refine .bind h.next fun _ => h.keeps_ensure (.bind h.keeps_deepenSkip fun _ =>
    .bind h.values.keeps_parseItemValue fun value => ?_)
  split
  · exact h.keeps_recordItem _ _ _
  · exact .pure _

theorem keeps_parseLoopHeader (container : Option Container) :
    Keeps True d (parseLoopHeader cfg container) :=
  h.values.keeps_parseLoopHeader h.stores.keeps_hasItem container

theorem keeps_parsePacketValue (loop : Option Loop) (header : List (Option UStr))
    (columns : List (Option Nat)) (st : PacketState) :
    Keeps True d (parsePacketValue cfg loop header columns st) :=
  .bind (.when fun _ => h.keeps_startPacket) fun _ => .bind h.values.keeps_parseValue fun _ =>
    .bind (h.keeps_handlePacketItem _ _) fun _ =>
      .ite (fun _ => .bind (h.keeps_endPacket _ _) fun _ => .pure _) fun _ => .pure _

theorem keeps_parseLoopPackets (loop : Option Loop) (header : List (Option UStr)) :
    Keeps True d (parseLoopPackets cfg loop header) := by
  refine .bind (h.stores.keeps_store rfl _) fun _ => .bind (h.stores.keeps_ofResult _) fun packet =>
    .bind (h.stores.keeps_ofResult _) fun columns => .loop (fun st => ?_) _
  have hvalue : Keeps True d (do
      return .inl (← parsePacketValue cfg loop header columns st) : Parse σ (PacketState ⊕ Unit)) :=
    .bind (h.keeps_parsePacketValue _ _ _ _) fun _ => .pure _
  have hdelim : Keeps True d (do
      reportToken cfg Code.unexpectedDelim
      modify consumeToken
      pure (.inl st) : Parse σ (PacketState ⊕ Unit)) :=
    .bind (h.stores.keeps_reportToken (by decide)) fun _ => .bind h.consume fun _ => .pure _
  refine .bind h.next fun _ => .bind .read fun s => ?_
  split
  · exact .bind h.values.keeps_splitKey fun _ => hvalue
  · exact .bind h.values.keeps_splitKey fun _ => hvalue
  · exact hvalue
  · exact hvalue
  · exact hvalue
  · exact hvalue
  · exact hvalue
  · exact hdelim
  · exact hdelim
  · exact .bind (h.keeps_endLoopBody _ _ _ _) fun _ => .pure _

theorem keeps_parseLoop (container : Option Container) :
    Keeps True d (parseLoop cfg container) := by
  have hcontents : Keeps True d (parseLoopContents cfg container) :=
    .bind (h.keeps_parseLoopHeader _) fun _ =>
      .ite (fun _ => .bind (h.stores.keeps_reportBefore (by decide)) fun _ => .pure _) fun _ =>
        .bind (h.keeps_startLoop _ _) fun _ => .bind (h.keeps_parseLoopPackets _ _) fun _ => .pure _
  refine .bind (.modify (h.enter _ (by simp) (by simp))) fun _ => ?_
  refine .bind ?_ fun _ => .bind (.modify (h.leave _ (by simp) (by simp))) fun _ => .pure _
  exact .bind h.keeps_deepenSkip fun _ => .bind (h.keeps_onStop hcontents) fun _ =>
    h.keeps_endLoop _

end Items

section Containers

variable {self : Option Container × Bool → Parse σ Unit} (hself : ∀ i, Keeps True d (self i))

include hself

theorem keeps_parseFrameHead (container : Option Container) (isBlock : Bool) :
    Keeps True (d.within (P isBlock)) (parseFrameHead cfg self container isBlock) := by
  have hin : ∀ {α : Type} {m : Parse σ α}, Keeps True d m → Keeps True (d.within (P isBlock)) m :=
    fun hm => hm.within (h.inside isBlock)
  refine .bind .read fun s => ?_
  split
  · refine .bind (h.frameEnds isBlock) fun ends => .ite (fun _ => .pure _) fun _ => hin ?_
    exact .bind (h.stores.keeps_createFrame _ _) fun _ => .bind h.consume fun _ =>
      .bind (hself _) fun _ => .pure _
  · exact hin (.bind h.consume fun _ => .bind (hself _) fun _ => .pure _)

omit hself in
theorem keeps_parseNamedItem (container : Option Container) :
    Keeps True d (parseNamedItem cfg container) := by
  refine .bind .read fun s => .ite (fun _ => .bind h.consume fun _ => h.keeps_parseItem _ _)
    fun _ => ?_
  refine .bind (h.elementCall _ _ _ _) fun _ => .bind h.consume fun _ =>
    .bind (h.stores.keeps_hasItem _ _) fun has => ?_
  exact .ite (fun _ => .bind (h.stores.keeps_reportToken (by decide)) fun _ =>
    h.keeps_parseItem _ _) fun _ =>
    h.keeps_parseItem _ _

omit hself in
theorem keeps_parseStrayValue (container : Option Container) :
    Keeps True d (parseStrayValue cfg container) :=
  .bind .read fun _ => .bind (h.toToleratesScan.report _ _ _ _ (by decide)) fun _ =>
    h.keeps_parseItem _ _

theorem keeps_parseContainerToken (container : Option Container) (isBlock : Bool) :
    Keeps True (d.within (P isBlock)) (parseContainerToken cfg self container isBlock) := by
  have hin : ∀ {α : Type} {m : Parse σ α}, Keeps True d m → Keeps True (d.within (P isBlock)) m :=
    fun hm => hm.within (h.inside isBlock)
  have hstray : Keeps True d (do
      parseStrayValue cfg container
      pure (.inl ()) : Parse σ (Unit ⊕ Unit)) :=
    .bind (h.keeps_parseStrayValue _) fun _ => .pure _
  have hdelim : Keeps True d (do
      reportToken cfg Code.unexpectedDelim
      modify consumeToken
      pure (.inl ()) : Parse σ (Unit ⊕ Unit)) :=
    .bind (h.stores.keeps_reportToken (by decide)) fun _ => .bind h.consume fun _ => .pure _
  refine .bind (hin h.next) fun _ => .bind .read fun s => ?_
  split
  · exact hin (.bind (.when fun _ => h.stores.keeps_reportToken (by decide)) fun _ => .pure _)
  · exact h.keeps_parseFrameHead hself _ _
  · exact hin (.bind h.consume fun _ =>
      .ite (fun _ => .bind (h.stores.keeps_reportToken (by decide)) fun _ => .pure _) fun _ =>
        .pure _)
  · exact hin (.bind (.when fun _ => h.elementCall _ _ _ _) fun _ => .bind h.consume fun _ =>
      .bind (h.keeps_parseLoop _) fun _ => .pure _)
  · exact hin (.bind (h.keeps_parseNamedItem _) fun _ => .pure _)
  · exact hin (.bind h.values.keeps_splitKeyAtColon fun _ => hstray)
  · exact hin (.bind h.values.keeps_splitKeyAtColon fun _ => hstray)
  · exact hin hstray
  · exact hin hstray
  · exact hin hstray
  · exact hin hstray
  · exact hin hstray
  · exact hin hdelim
  · exact hin hdelim
  · exact hin (.bind (.when fun _ => h.toToleratesScan.report _ _ _ _ (by decide)) fun _ => .pure _)
  · exact hin (h.stores.keeps_stop _)

theorem keeps_parseContainerBody (i : Option Container × Bool) :
    Keeps True d (parseContainerBody cfg self i) := by
  obtain ⟨container, isBlock⟩ := i
  have hin : ∀ {α : Type} {m : Parse σ α}, Keeps True d m → Keeps True (d.within (P isBlock)) m :=
    fun hm => hm.within (h.inside isBlock)
  refine h.container isBlock _ (.bind ?_ fun _ => hin (h.keeps_endContainer _ _))
  refine .ensure (.bind (hin (h.keeps_startContainer _ _)) fun _ =>
    .loop (fun _ => h.keeps_parseContainerToken hself _ _) _) ?_ ?_
  · intro s hs
    exact ⟨h.skip _ s, h.inside isBlock _ _ hs (h.skip _ s)⟩
  · intro e s t hh hs
    exact h.halt_skip _ (hh hs)

omit hself in
theorem keeps_parseContainer (i : Option Container × Bool) : Keeps True d (parseContainer cfg i) :=
  .fix (fun _ hself i => h.keeps_parseContainerBody hself i) i

omit hself in
theorem keeps_parseBlock (hasCif : Bool) : Keeps True d (parseBlock cfg hasCif) := by
  refine .bind h.next fun _ => .bind .read fun s => ?_
  split
  · exact .bind (keeps_openBlock _ (h.stores.keeps_createBlock _)) fun _ => .bind h.consume fun _ =>
      .bind (h.keeps_parseContainer _) fun _ => .pure _
  · exact .pure _
  · exact .bind (h.stores.keeps_reportToken (by decide)) fun _ =>
      .bind (keeps_openBlock _ h.stores.keeps_createAnonymousBlock) fun _ =>
      .bind (h.keeps_parseContainer _) fun _ => .pure _

omit hself in
theorem keeps_parseBlocks (hasCif : Bool) : Keeps True d (parseBlocks cfg hasCif) := by
  refine .bind (h.keeps_ensure (.loop (fun _ => h.keeps_parseBlock _) _)) fun _ => ?_
  refine h.handler _ _ (fun reply => ?_) fun reply ho => ?_
  · exact .when fun _ => h.stores.keeps_stop _
  · obtain ⟨h1, _, _⟩ := ho
    exact if_pos h1

end Containers

end Tolerates

section Whole

variable {callbacks : Callbacks σ} {s : Scanner σ} {I : Scanner σ → Prop}
  {Q : Int → Scanner σ → Prop}

/-- What holds of a parse where it comes to `parse_cif`, and where it ends, there or before. -/
structure WholeParse (callbacks : Callbacks σ) (hasCif : Bool) (d : Discipline Int (Scanner σ))
    (I : Scanner σ → Prop) (Q : Int → Scanner σ → Prop) : Prop where
  scan : ∀ cfg : Config σ, cfg.toCallbacks = callbacks → ToleratesScan cfg d
  step : ∀ s t, I s → d.step s t → I t
  halt : ∀ e s t, I s → d.halt e s t → Q e t ∧ (e = Code.eof → Q Code.ok t)
  rest : ∀ s, I s → Q Code.ok s
  parseCif : ∀ (cfg : Config σ) s, cfg.toCallbacks = callbacks → I s →
    Ensures (parseCif cfg hasCif) s (fun _ t => Q Code.ok t) Q

namespace WholeParse

variable {hasCif : Bool} (h : WholeParse callbacks hasCif d I Q)

include h

theorem chooseVersion (hcfg : cfg.toCallbacks = callbacks) (hs : I s) (c : UChar) :
    Ensures (chooseVersion cfg c) s (fun cfg' t => cfg'.toCallbacks = callbacks ∧ I t) Q := by
  rw [Ensures, CifApi.chooseVersion, post_ite]
  refine ⟨fun _ => ⟨hcfg, hs⟩, fun _ => ?_⟩
  dsimp only
  rw [post_ite]
  refine ⟨fun _ => ?_, fun _ => ⟨hcfg, hs⟩⟩
  have hscan :=
    (h.scan { cfg with cifVersion := if cfg.cifVersion < 0 then -cfg.cifVersion else
    1 } hcfg).keeps_scanTo
  rw [post_bind]
  exact (hscan _ s).imp (fun _ t ht => ⟨hcfg, h.step s t hs ht⟩) fun e t ht =>
    (h.halt e s t hs ht).1

theorem reports (hcfg : cfg.toCallbacks = callbacks) (hs : I s) {code : Int}
    (hc : code ≠ Code.frameNotAllowed) (line column : Nat) (text : List UChar) :
    Ensures (report cfg code line column text) s (fun _ t => I t) Q :=
  ((h.scan cfg hcfg).report code line column text hc s).imp (fun _ t ht => h.step s t hs ht)
    fun e t ht => (h.halt e s t hs ht).1

theorem parseFrom (hcfg : cfg.toCallbacks = callbacks) (hs : I s) (scannedBom : Bool) (c : UChar) :
    Ensures (parseFrom cfg hasCif scannedBom c) s (fun _ t => Q Code.ok t) Q := by
  rw [Ensures, CifApi.parseFrom, post_bind]
  refine (h.chooseVersion hcfg hs c).imp (fun cfg' t ht => ?_) fun _ _ he => he
  obtain ⟨hcfg', ht⟩ := ht
  rw [post_bind, post_modify]
  have hedit :=
    (h.scan cfg' hcfg').edit t { t with nextChar := t.textStart, column := 0 } ⟨rfl, rfl, rfl, rfl⟩
  have ht₁ := h.step _ _ ht hedit
  rw [post_ite]
  refine ⟨fun _ => ?_, fun _ => ?_⟩
  · rw [post_bind, post_when]
    refine ⟨fun _ => ?_, fun _ => h.parseCif cfg'.setV1 _ hcfg' ht₁⟩
    rw [post_bind, post_read]
    exact (h.reports hcfg' ht₁ (by decide) _ _ _).imp (fun _ u hu =>
      h.parseCif cfg'.setV1 u hcfg' hu) fun _ _ he => he
  · rw [post_bind, post_when]
    refine ⟨fun _ => ?_, fun _ => h.parseCif cfg' _ hcfg' ht₁⟩
    exact (h.reports hcfg' ht₁ (by decide) _ _ _).imp (fun _ u hu => h.parseCif cfg' u hcfg' hu)
      fun _ _ he => he

theorem cifParseInternal (hcfg : cfg.toCallbacks = callbacks) (hs : I s) :
    Ensures (cifParseInternal cfg hasCif) s (fun _ t => Q Code.ok t) Q := by
  have hscan := h.scan cfg hcfg
  have hedited : ∀ {s t : Scanner σ}, I s → Edited s t → I t :=
    fun hs ht => h.step _ _ hs (hscan.edit _ _ ht)
  rw [Ensures, CifApi.cifParseInternal, post_bind, post_recode]
  refine (hscan.keeps_getFirstChar s).imp (fun some? t ht => ?_) fun e t ht => ?_
  · have ht : I t := h.step s t hs ht
    rw [post_ite]
    refine ⟨fun _ => ?_, fun _ => h.rest t ht⟩
    rw [post_bind, post_read, post_bind, post_modify, post_ite]
    have hadvance : I t.advance := hedited ht ⟨rfl, rfl, rfl, rfl⟩
    refine ⟨fun _ => ?_, fun _ => h.parseFrom hcfg hadvance _ _⟩
    rw [post_bind, post_modify, post_bind]
    have hconsumed : I t.advance.consumeToken := hedited hadvance ⟨rfl, rfl, rfl, rfl⟩
    refine (hscan.keeps_nextChar _).imp (fun c u hu => ?_) fun e u hu =>
      (h.halt e _ u hconsumed hu).1
    have hu : I u := h.step _ u hconsumed hu
    cases c with
    | none => exact h.rest u hu
    | some c => exact h.parseFrom hcfg hu _ _
  · obtain ⟨hcode, heof⟩ := h.halt e s t hs ht
    split
    · exact heof ‹_›
    · exact hcode

/-- What holds of a whole parse. -/
theorem cifParse {o : Options σ} (ho : o.toCallbacks = callbacks) {source : List (List UChar)}
    {w : World σ} {malformed : Nat → Option Malformed} (hs : I (Scanner.initial source w malformed))
    {result : Int} {t : Scanner σ}
    (hrun : cifParse o hasCif source w malformed = some (result, t)) : Q result t := by
  have hcfg : (Config.initV2 o).toCallbacks = callbacks := ho
  have hpost := h.cifParseInternal hcfg hs
  unfold CifApi.cifParse Config.parse at hrun
  split at hrun
  · cases hrun
  · rename_i heq
    obtain ⟨rfl, rfl⟩ : Code.ok = result ∧ _ = t := by simpa using hrun
    exact hpost.of_ok heq
  · rename_i heq
    obtain ⟨rfl, rfl⟩ : _ = result ∧ _ = t := by simpa using hrun
    exact hpost.of_error heq

end WholeParse

end Whole

end CifApi
