import CifApi.Exec.Guarded
import CifApi.Parser.Termination
import CifApi.Parser.Traversal

/-! A parse comes to an end if and only if every value that it binds to a statement can be bound in
the end. -/
namespace CifApi

open Exec Scanner

variable {σ : Type} {cfg : Config σ} {icu : Icu} {props : ValueProps}

/-- The configuration that has a value refused where its binding does not end. -/
def Config.guarded (cfg : Config σ) : Config σ := { cfg with props := cfg.props.guarded }

/-- The record of a call that does not return on the CIF it finds. -/
def Event.Hangs (icu : Icu) (props : ValueProps) : Event σ → Prop
  | .store (.setValue container name value) before _ _ =>
    before.setValue icu props container name value = none
  | .store (.addPacket loop packet) before _ _ => before.addPacket props loop packet = none
  | _ => False

/-- The values that a call binds. -/
def StoreCall.values : StoreCall → List Value
  | .setValue _ _ value => [value]
  | .addPacket _ packet => packet.map fun item => item.2.2
  | _ => []

/-- It is a value whose binding does not end that keeps a call from returning. -/
theorem exists_of_hangs {call : StoreCall} {before : Cif} {result : Int} {w : World σ}
    (h : (Event.store call before result w).Hangs icu props) :
    ∃ value ∈ call.values, props value = none := by
  cases call with
  | setValue container name value =>
    refine ⟨value, List.mem_singleton_self _, ?_⟩
    by_contra hends
    exact Cif.setValue_ne_none hends h
  | addPacket loop packet =>
    by_contra hends
    refine Cif.addPacket_ne_none (fun item hitem hnone => hends ?_) h
    exact ⟨_, List.mem_map_of_mem hitem, hnone⟩
  | _ => exact h.elim

/-- A call on record does not return. -/
def Hung (icu : Icu) (props : ValueProps) (s : Scanner σ) : Prop := ∃ e ∈ s.log, e.Hangs icu props

/-- Runs that record no call that does not return. -/
abbrev unhung (icu : Icu) (props : ValueProps) : Discipline Int (Scanner σ) :=
  Discipline.untouched Int (Hung icu props)

section Calls

variable {s : Scanner σ}

theorem hung_push {e : Event σ} :
    Hung icu props (s.push e) ↔ e.Hangs icu props ∨ Hung icu props s := by
  simp [Hung, push]

theorem unhung_push {e : Event σ} (he : ¬ e.Hangs icu props) (w : World σ) :
    Hung icu props ((s.setWorld w).push e) ↔ Hung icu props s := by
  rw [hung_push, or_iff_right he]
  rfl

theorem unhung_errorCallback (r : ErrorReport) :
    Keeps True (unhung icu props) (errorCallback cfg r) :=
  .update fun _ => unhung_push id _

theorem unhung_report (code : Int) (line column : Nat) (text : List UChar) :
    Keeps True (unhung icu props) (report cfg code line column text) :=
  .bind (unhung_errorCallback _) fun _ => .when fun _ => .stop fun _ => Iff.rfl

theorem not_hangs_of_binds {call : StoreCall} (h : call.binds = false) (before : Cif) (result : Int)
    (w : World σ) :
    ¬ (Event.store call before result w).Hangs icu props := by
  cases call with
  | addPacket => cases h
  | setValue => cases h
  | _ => exact id

theorem unhungCalls : ToleratesCalls cfg True (unhung icu props) where
  stop := fun _ _ => Iff.rfl
  skip := fun _ _ => Iff.rfl
  halt_skip := fun _ h => h
  store := fun _ _ _ w _ hcall => unhung_push (not_hangs_of_binds hcall _ _ _) w
  element := fun _ _ => unhung_push id _
  enter := fun _ _ _ _ => hung_push.trans (or_iff_right id)
  leave := fun _ _ _ _ => hung_push.trans (or_iff_right id)
  report := fun _ _ _ _ _ => unhung_report _ _ _ _
  handler := fun _ _ hf _ => .bind (.update fun _ => unhung_push id _) hf

theorem unhungStores : ToleratesStore cfg True (unhung icu props) := unhungCalls.stores

theorem unhungValues : ToleratesValues cfg (unhung icu props) where
  edit := by
    rintro s t ⟨_, hlog, _, _⟩
    change (∃ e ∈ t.log, e.Hangs icu props) ↔ _
    rw [hlog]
    rfl
  report := fun _ _ _ _ _ => unhung_report _ _ _ _
  element := fun _ _ => unhung_push id _
  toUnicodeCallback := keeps_toUnicodeCallback (fun _ _ => Iff.rfl) unhung_errorCallback
  stop := fun _ _ => Iff.rfl
  ttype := fun _ _ => Iff.rfl
  setItemByKey := unhungStores.keeps_setItemByKey

theorem unhung_frameEndsContainer (isBlock : Bool) :
    Keeps True (unhung icu props) (frameEndsContainer cfg isBlock) :=
  .ite (fun _ => .bind .read fun _ => .bind (unhung_errorCallback _) fun _ =>
    .ite (fun _ => .pure _) fun _ =>
    .ite (fun _ => .stop fun _ => Iff.rfl) fun _ => .pure _) fun _ =>
  .ite (fun _ => .bind (unhungStores.keeps_reportToken (by decide)) fun _ => .pure _) fun _ =>
    .pure _

end Calls

section Values

theorem classOf_guarded (c : UChar) : cfg.guarded.classOf c = cfg.classOf c := rfl

theorem copyText_guarded (afterCr : Bool) (text : List UChar) :
    copyText cfg.guarded afterCr text = copyText cfg afterCr text := by
  induction text generalizing afterCr with
  | nil => rfl
  | cons c rest ih =>
    simp only [copyText, classOf_guarded, ih]
    rfl

theorem scanFirstLine_guarded (text : List UChar) (pos : Nat) (st : FirstLine)
    (copied : List UChar) :
    scanFirstLine cfg.guarded text pos st copied = scanFirstLine cfg text pos st copied := by
  induction text generalizing pos st copied with
  | nil => rfl
  | cons c rest ih => simp only [scanFirstLine, classOf_guarded, ih]

theorem decodeLine_guarded (folded : Bool) (text out : List UChar) (temp : Option (List UChar)) :
    decodeLine cfg.guarded folded text out temp = decodeLine cfg folded text out temp := by
  induction text generalizing out temp with
  | nil => rfl
  | cons c rest ih => simp only [decodeLine, classOf_guarded, ih]

theorem decodeLines_guarded (linePrefix : List UChar) (folded : Bool) (n : Nat)
    (text out : List UChar) :
    decodeLines cfg.guarded linePrefix folded n text out
      = decodeLines cfg linePrefix folded n text out := by
  induction n generalizing text out with
  | zero => rfl
  | succ n ih => simp only [decodeLines, decodeLine_guarded, ih]

theorem decodeText_guarded (text : List UChar) :
    decodeText cfg.guarded text = decodeText cfg text := by
  simp only [decodeText, copyText_guarded, scanFirstLine_guarded, decodeLines_guarded]
  rfl

/-- The productions for values bind none. -/
theorem parseValueBody_guarded (self : Parse σ Value) :
    parseValueBody cfg.guarded self = parseValueBody cfg self := by
  have hdecode : decodeText cfg.guarded = decodeText cfg := funext decodeText_guarded
  have hkey : parseTableKey cfg.guarded self = parseTableKey cfg self := by
    rw [parseTableKey, parseTableKey, hdecode]
    rfl
  have hlist : parseList cfg.guarded self = parseList cfg self := rfl
  have hvalue : parseTableValue cfg.guarded self = parseTableValue cfg self := rfl
  have hentry : parseTableEntry cfg.guarded self = parseTableEntry cfg self := by
    funext entries
    rw [parseTableEntry, parseTableEntry, hkey, hvalue]
    rfl
  have htable : parseTable cfg.guarded self = parseTable cfg self := by
    rw [parseTable, parseTable, hentry]
  rw [parseValueBody, parseValueBody, hlist, htable, hdecode]
  rfl

theorem parseValue_guarded : parseValue cfg.guarded = parseValue cfg := by
  simp only [parseValue, parseValueBody_guarded]

theorem parseItemValue_guarded : parseItemValue cfg.guarded = parseItemValue cfg := by
  rw [parseItemValue, parseItemValue, parseValue_guarded]
  rfl

end Values

section Recording

/-- A call that binds values guards itself, where the values are refused that it cannot bind. -/
theorem guards_binding {α : Type} {call : StoreCall} {f f' : Cif → Option (Except Int α × Cif)}
    {p : Cif → Prop} (hmirrors : ∀ cif, Cif.Mirrors (p cif) (f cif) (f' cif))
    (hhangs : ∀ before result w, (Event.store call before result w : Event σ).Hangs icu props ↔
      f before = none) :
    Guards (Hung icu props) (bindingCall call f : Parse σ (Except Int α))
      (bindingCall call f') := by
  refine .operate (fun s r t hs hrun => ?_) fun s hs => ?_
  · obtain ⟨⟨r', cif⟩, -, heq⟩ := Option.map_eq_some_iff.mp hrun
    cases heq
    exact hung_push.mpr (.inr hs)
  · cases hcall : f s.world.cif with
    | none =>
      refine .inr ⟨rfl, fun r t hrun => ?_⟩
      obtain ⟨⟨r', cif⟩, -, heq⟩ := Option.map_eq_some_iff.mp hrun
      cases heq
      exact hung_push.mpr (.inl ((hhangs _ _ _).mpr hcall))
    | some r =>
      rw [(hmirrors _).eq_some hcall]
      refine .inl ⟨rfl, ?_⟩
      rintro r' t ⟨⟩
      have hreturns : ¬ f s.world.cif = none := hcall ▸ Option.some_ne_none r
      exact fun hung => (hung_push.mp hung).elim (fun h => hreturns ((hhangs _ _ _).mp h)) hs

/-- A production and what becomes of it where values are refused that cannot be bound. -/
abbrev Guarded {α : Type} (cfg : Config σ) (m m' : Parse σ α) : Prop :=
  Guards (Hung cfg.icu cfg.props) m m'

theorem guarded_next : Guarded cfg (nextToken cfg) (nextToken cfg.guarded) :=
  .of_eq rfl unhungValues.next

theorem guarded_consume : Guarded cfg (modify consumeToken) (modify consumeToken) :=
  .modify fun _ => Iff.rfl

theorem guarded_reportToken {code : Int} (hc : code ≠ Code.frameNotAllowed) :
    Guarded cfg (reportToken cfg code) (reportToken cfg.guarded code) :=
  .of_eq rfl (unhungStores.keeps_reportToken hc)

theorem guarded_reportBefore {code : Int} (hc : code ≠ Code.frameNotAllowed) :
    Guarded cfg (reportBefore cfg code) (reportBefore cfg.guarded code) :=
  .of_eq rfl (unhungStores.keeps_reportBefore hc)

theorem guarded_syntaxCallback (element : SyntaxElement) (line column : Nat) (text : List UChar) :
    Guarded cfg (syntaxCallback cfg element line column text)
      (syntaxCallback cfg.guarded element line column text) :=
  .of_eq rfl (unhungStores.keeps_element _ _ _ _)

theorem guarded_handler (call : HandlerCall) :
    Guarded cfg (handlerCallback cfg call) (handlerCallback cfg.guarded call) :=
  .of_eq rfl (.update fun _ => unhung_push id _)

theorem guarded_ofResult {α : Type} (r : Except Int α) : Guarded cfg (ofResult r) (ofResult r) :=
  .same (@ToleratesStore.keeps_ofResult _ cfg _ _ unhungStores _ r)

theorem guarded_setSkipDepth (n : Nat) :
    Guarded cfg (modify (setSkipDepth n)) (modify (setSkipDepth n)) :=
  .modify fun _ => Iff.rfl

theorem guarded_mark {e : Event σ} (he : ¬ e.Hangs cfg.icu cfg.props) :
    Guarded cfg (mark e) (mark e) :=
  .modify fun _ => hung_push.trans (or_iff_right he)

theorem guarded_inEntity {α : Type} (entity : Entity) {m m' : Parse σ α} (hm : Guarded cfg m m') :
    Guarded cfg (inEntity entity m) (inEntity entity m') :=
  .bind (guarded_mark id) fun _ => .bind hm fun _ => .bind (guarded_mark id) fun _ => .pure _

theorem guarded_hasItem (container : Option Container) (name : UStr) :
    Guarded cfg (hasItem cfg container name) (hasItem cfg.guarded container name) :=
  .of_eq rfl (unhungStores.keeps_hasItem _ _)

theorem guarded_parseValue : Guarded cfg (parseValue cfg) (parseValue cfg.guarded) :=
  .of_eq parseValue_guarded unhungValues.keeps_parseValue

theorem guarded_recordItem (container : Container) (name : UStr) (value : Value) :
    Guarded cfg (recordItem cfg container name value)
      (recordItem cfg.guarded container name value) :=
  .bind (guarded_handler _) fun _ =>
    .ite (fun _ => .bind (guards_binding
      (fun _ => Cif.mirrors_setValue cfg.props.guarded_extends) fun _ _ _ => Iff.rfl)
      fun _ => guarded_ofResult _) fun _ =>
    .ite (fun _ => .pure _) fun _ => .ite (fun _ => guarded_setSkipDepth _) fun _ => .stop _

theorem guarded_addPacket (packet : Packet) (loop : Option Loop) :
    Guarded cfg (addPacket cfg packet loop) (addPacket cfg.guarded packet loop) := by
  cases loop with
  | none => exact .pure _
  | some loop =>
    exact .bind (guards_binding (fun _ => Cif.mirrors_addPacket cfg.props.guarded_extends)
      fun _ _ _ => Iff.rfl) fun _ => guarded_ofResult _

theorem guarded_endPacket (loop : Option Loop) (packet : Packet) :
    Guarded cfg (endPacket cfg loop packet) (endPacket cfg.guarded loop packet) := by
  have hrecord : Guarded cfg (recordPacket cfg loop packet)
      (recordPacket cfg.guarded loop packet) :=
    .bind (guarded_handler _) fun _ =>
      .ite (fun _ => .bind (guarded_addPacket _ _) fun _ => .pure _) fun _ =>
      .ite (fun _ => .bind (.pure _) fun _ => .pure _) fun _ =>
      .ite (fun _ => .bind (guarded_setSkipDepth _) fun _ => .pure _) fun _ =>
        .bind (.stop _) fun _ => .pure _
  have hclose : Guarded cfg (closePacket cfg loop packet) (closePacket cfg.guarded loop packet) :=
    .bind .read fun _ => .ite (fun _ => .bind (.modify fun _ => Iff.rfl) fun _ => .pure _) fun _ =>
      hrecord
  exact .bind hclose fun _ => .bind (guarded_mark id) fun _ => .pure _

theorem guarded_endLoopBody (loop : Option Loop) (names : List UStr) (columns : List (Option Nat))
    (st : PacketState) :
    Guarded cfg (endLoopBody cfg loop names columns st)
      (endLoopBody cfg.guarded loop names columns st) :=
  .ite (fun _ => .bind (guarded_reportBefore (by decide)) fun _ => .bind (guarded_endPacket _ _)
    fun _ => .pure _) fun _ => .ite (fun _ => guarded_reportToken (by decide)) fun _ => .pure _

end Recording

section Items

theorem guarded_parseItem (container : Option Container) (name : Option UStr) :
    Guarded cfg (parseItem cfg container name) (parseItem cfg.guarded container name) := by
  refine .bind guarded_next fun _ => .ensure (.bind (.modify fun _ => Iff.rfl) fun _ =>
    .bind (.of_eq parseItemValue_guarded unhungValues.keeps_parseItemValue) fun value => ?_)
      fun _ => Iff.rfl
  split
  · exact guarded_recordItem _ _ _
  · exact .pure _

theorem guarded_parsePacketValue (loop : Option Loop) (header : List (Option UStr))
    (columns : List (Option Nat)) (st : PacketState) :
    Guarded cfg (parsePacketValue cfg loop header columns st)
      (parsePacketValue cfg.guarded loop header columns st) :=
  .bind (.when fun _ => .of_eq rfl unhungCalls.keeps_startPacket) fun _ => .bind guarded_parseValue
    fun _ =>
    .bind (.of_eq rfl (unhungCalls.keeps_handlePacketItem _ _)) fun _ =>
      .ite (fun _ => .bind (guarded_endPacket _ _) fun _ => .pure _) fun _ => .pure _

theorem packetColumns_guarded (packet : Packet) (header : List (Option UStr)) :
    packetColumns cfg.guarded packet header = packetColumns cfg packet header := by
  induction header with
  | nil => rfl
  | cons name header ih =>
    cases name with
    | none => simp only [packetColumns, ih]
    | some name =>
      simp only [packetColumns, ih]
      rfl

theorem guarded_parseLoopPackets (loop : Option Loop) (header : List (Option UStr)) :
    Guarded cfg (parseLoopPackets cfg loop header) (parseLoopPackets cfg.guarded loop header) := by
  have hstores : ToleratesStore cfg True (unhung cfg.icu cfg.props) := unhungStores
  refine .bind (.of_eq rfl (hstores.keeps_store rfl _)) fun _ => .bind (guarded_ofResult _)
    fun packet => ?_
  rw [packetColumns_guarded]
  refine .bind (guarded_ofResult _) fun columns => .loop (fun st => ?_) _
  have hvalue : Guarded cfg
      (do return .inl (← parsePacketValue cfg loop header columns st) : Parse σ
      (PacketState ⊕ Unit))
      (do return .inl (← parsePacketValue cfg.guarded loop header columns st)) :=
    .bind (guarded_parsePacketValue _ _ _ _) fun _ => .pure _
  have hsplit : Guarded cfg (splitKey cfg) (splitKey cfg.guarded) :=
    .of_eq rfl unhungValues.keeps_splitKey
  refine .bind guarded_next fun _ => .bind .read fun s => ?_
  split
  · exact .bind hsplit fun _ => hvalue
  · exact .bind hsplit fun _ => hvalue
  · exact hvalue
  · exact hvalue
  · exact hvalue
  · exact hvalue
  · exact hvalue
  · exact .bind (guarded_reportToken (by decide)) fun _ => .bind guarded_consume fun _ => .pure _
  · exact .bind (guarded_reportToken (by decide)) fun _ => .bind guarded_consume fun _ => .pure _
  · exact .bind (guarded_endLoopBody _ _ _ _) fun _ => .pure _

theorem guarded_parseLoop (container : Option Container) :
    Guarded cfg (parseLoop cfg container) (parseLoop cfg.guarded container) := by
  have hcontents : Guarded cfg (parseLoopContents cfg container)
      (parseLoopContents cfg.guarded container) :=
    .bind (.of_eq rfl (unhungValues.keeps_parseLoopHeader unhungStores.keeps_hasItem _)) fun _ =>
      .ite (fun _ => .bind (guarded_reportBefore (by decide)) fun _ => .pure _) fun _ =>
        .bind (.of_eq rfl (unhungCalls.keeps_startLoop _ _)) fun _ =>
          .bind (guarded_parseLoopPackets _ _) fun _ => .pure _
  exact guarded_inEntity _ (.bind (.modify fun _ => Iff.rfl) fun _ =>
    .bind (.onStop hcontents fun _ => Iff.rfl) fun _ => .of_eq rfl (unhungCalls.keeps_endLoop _))

end Items

section Containers

variable {self self' : Option Container × Bool → Parse σ Unit}

theorem guarded_parseFrameHead (hself : ∀ i, Guarded cfg (self i) (self' i))
    (container : Option Container) (isBlock : Bool) :
    Guarded cfg (parseFrameHead cfg self container isBlock)
      (parseFrameHead cfg.guarded self' container isBlock) := by
  refine .bind .read fun s => ?_
  split
  · refine .bind (.of_eq rfl (unhung_frameEndsContainer _)) fun ends => .ite (fun _ => .pure _)
      fun _ => ?_
    exact .bind (.of_eq rfl (unhungStores.keeps_createFrame _ _)) fun _ => .bind guarded_consume
      fun _ =>
      .bind (hself _) fun _ => .pure _
  · exact .bind guarded_consume fun _ => .bind (hself _) fun _ => .pure _

theorem guarded_parseNamedItem (container : Option Container) :
    Guarded cfg (parseNamedItem cfg container) (parseNamedItem cfg.guarded container) :=
  .bind .read fun _ => .ite (fun _ => .bind guarded_consume fun _ => guarded_parseItem _ _) fun _ =>
    .bind (guarded_syntaxCallback _ _ _ _) fun _ => .bind guarded_consume fun _ =>
    .bind (guarded_hasItem _ _) fun _ =>
    .ite (fun _ => .bind (guarded_reportToken (by decide)) fun _ => guarded_parseItem _ _) fun _ =>
      guarded_parseItem _ _

theorem guarded_parseContainerToken (hself : ∀ i, Guarded cfg (self i) (self' i))
    (container : Option Container) (isBlock : Bool) :
    Guarded cfg (parseContainerToken cfg self container isBlock)
      (parseContainerToken cfg.guarded self' container isBlock) := by
  have hreport (code : Int) (line column : Nat) (text : List UChar) :
      Guarded cfg (report cfg code line column text) (report cfg.guarded code line column text) :=
    .of_eq rfl (unhung_report _ _ _ _)
  have hstray : Guarded cfg (do
      parseStrayValue cfg container
      pure (.inl ()) : Parse σ (Unit ⊕ Unit)) (do
      parseStrayValue cfg.guarded container
      pure (.inl ())) :=
    .bind (.bind .read fun _ => .bind (hreport _ _ _ _) fun _ => guarded_parseItem _ _) fun _ =>
      .pure _
  have hsplit : Guarded cfg (splitKeyAtColon cfg) (splitKeyAtColon cfg.guarded) :=
    .of_eq rfl unhungValues.keeps_splitKeyAtColon
  refine .bind guarded_next fun _ => .bind .read fun s => ?_
  split
  · exact .bind (.when fun _ => guarded_reportToken (by decide)) fun _ => .pure _
  · exact guarded_parseFrameHead hself _ _
  · exact .bind guarded_consume fun _ =>
      .ite (fun _ => .bind (guarded_reportToken (by decide)) fun _ => .pure _) fun _ => .pure _
  · exact .bind (.when fun _ => guarded_syntaxCallback _ _ _ _) fun _ => .bind guarded_consume
      fun _ =>
      .bind (guarded_parseLoop _) fun _ => .pure _
  · exact .bind (guarded_parseNamedItem _) fun _ => .pure _
  · exact .bind hsplit fun _ => hstray
  · exact .bind hsplit fun _ => hstray
  · exact hstray
  · exact hstray
  · exact hstray
  · exact hstray
  · exact hstray
  · exact .bind (guarded_reportToken (by decide)) fun _ => .bind guarded_consume fun _ => .pure _
  · exact .bind (guarded_reportToken (by decide)) fun _ => .bind guarded_consume fun _ => .pure _
  · exact .bind (.when fun _ => hreport _ _ _ _) fun _ => .pure _
  · exact .stop _

theorem guarded_parseContainer (i : Option Container × Bool) :
    Guarded cfg (parseContainer cfg i) (parseContainer cfg.guarded i) := by
  refine .fix (fun self self' hself i => ?_) i
  obtain ⟨container, isBlock⟩ := i
  have hstart : Guarded cfg (startContainer cfg container isBlock)
      (startContainer cfg.guarded container isBlock) :=
    .of_eq rfl (unhungCalls.keeps_startContainer _ _)
  have hend : Guarded cfg (endContainer cfg container isBlock)
      (endContainer cfg.guarded container isBlock) :=
    .of_eq rfl (unhungCalls.keeps_endContainer _ _)
  exact guarded_inEntity _ (.bind (.ensure (.bind hstart fun _ =>
    .loop (fun _ => guarded_parseContainerToken hself _ _) _) fun _ => Iff.rfl) fun _ => hend)

theorem guarded_openBlock (hasCif : Bool) {create create' : Parse σ Container}
    (h : Guarded cfg create create') :
    Guarded cfg (openBlock hasCif create) (openBlock hasCif create') :=
  .bind .read fun _ => .ite (fun _ => .bind h fun _ => .pure _) fun _ => .pure _

theorem guarded_parseBlock (hasCif : Bool) :
    Guarded cfg (parseBlock cfg hasCif) (parseBlock cfg.guarded hasCif) := by
  refine .bind guarded_next fun _ => .bind .read fun s => ?_
  split
  · exact .bind (guarded_openBlock _ (.of_eq rfl (unhungStores.keeps_createBlock _))) fun _ =>
      .bind guarded_consume fun _ => .bind (guarded_parseContainer _) fun _ => .pure _
  · exact .pure _
  · exact .bind (guarded_reportToken (by decide)) fun _ =>
      .bind (guarded_openBlock _ (.of_eq rfl unhungStores.keeps_createAnonymousBlock)) fun _ =>
      .bind (guarded_parseContainer _) fun _ => .pure _

theorem guarded_parseCif (hasCif : Bool) :
    Guarded cfg (parseCif cfg hasCif) (parseCif cfg.guarded hasCif) := by
  have hblocks : Guarded cfg (parseBlocks cfg hasCif) (parseBlocks cfg.guarded hasCif) :=
    .bind (.ensure (.loop (fun _ => guarded_parseBlock _) _) fun _ => Iff.rfl) fun _ =>
      .bind (guarded_handler _) fun _ => .when fun _ => .stop _
  exact .recode _ (guarded_inEntity _ (.bind (guarded_handler _) fun _ =>
    .ite (fun _ => .bind (guarded_setSkipDepth _) fun _ => hblocks) fun _ =>
      .ite (fun _ => hblocks) fun _ => .stop _))

end Containers

section Whole

/-- The choice of a version leaves what values are bound with. -/
theorem guarded_chooseVersion {α : Type} {f f' : Config σ → Parse σ α} (c : UChar)
    (hf : ∀ version : Int, Guarded cfg (f { cfg with cifVersion := version })
      (f' { cfg with cifVersion := version }.guarded)) :
    Guarded cfg (chooseVersion cfg c >>= f) (chooseVersion cfg.guarded c >>= f') := by
  simp only [chooseVersion, ite_bind, pure_bind, bind_assoc]
  refine .ite (fun _ => hf cfg.cifVersion) fun _ => .ite (fun _ => ?_) fun _ => hf _
  exact .bind (.of_eq rfl (unhungValues.keeps_scanTo _)) fun _ => .bind .read fun _ => hf _

theorem guarded_parseFrom (hasCif scannedBom : Bool) (c : UChar) :
    Guarded cfg (parseFrom cfg hasCif scannedBom c)
      (parseFrom cfg.guarded hasCif scannedBom c) := by
  refine guarded_chooseVersion c fun version => ?_
  change Guarded { cfg with cifVersion := version } _ _
  generalize ({ cfg with cifVersion := version } : Config σ) = cfg'
  have hreport (code : Int) (line column : Nat) (text : List UChar) :
      Guarded cfg' (report cfg' code line column text)
        (report cfg'.guarded code line column text) :=
    .of_eq rfl (unhung_report _ _ _ _)
  have hV1 : Guarded cfg' (parseCif cfg'.setV1 hasCif) (parseCif cfg'.guarded.setV1 hasCif) :=
    @guarded_parseCif _ cfg'.setV1 hasCif
  refine .bind (.modify fun _ => Iff.rfl) fun _ => .ite (fun _ => ?_) fun _ => ?_
  · exact .bind (.when fun _ => .bind .read fun _ => hreport _ _ _ _) fun _ => hV1
  · exact .bind (.when fun _ => hreport _ _ _ _) fun _ => guarded_parseCif _

theorem guarded_cifParseInternal (hasCif : Bool) :
    Guarded cfg (cifParseInternal cfg hasCif) (cifParseInternal cfg.guarded hasCif) := by
  have hfirst : Guarded cfg (getFirstChar cfg) (getFirstChar cfg.guarded) :=
    .of_eq rfl unhungValues.keeps_getFirstChar
  refine .bind (.recode _ hfirst) fun some? => .ite (fun _ => ?_) fun _ => .pure _
  refine .bind .read fun s => .bind (.modify fun _ => Iff.rfl) fun _ => .ite (fun _ => ?_) fun _ =>
    guarded_parseFrom _ _ _
  have hnext : Guarded cfg (nextChar cfg) (nextChar cfg) :=
    .same (@ToleratesScan.keeps_nextChar _ cfg _ unhungValues.toToleratesScan)
  refine .bind guarded_consume fun _ => .bind hnext fun c => ?_
  cases c with
  | none => exact .pure _
  | some c => exact guarded_parseFrom _ _ _

theorem Config.parse_eq_some {hasCif : Bool} {source : List (List UChar)} {w : World σ}
    {malformed : Nat → Option Malformed} {s : Scanner σ} :
    (∃ code, cfg.parse hasCif source w malformed = some (code, s))
      ↔ ∃ r, cifParseInternal cfg hasCif (Scanner.initial source w malformed) = some (r, s) := by
  rw [parse]
  rcases cifParseInternal cfg hasCif (Scanner.initial source w malformed) with _ | ⟨_ | _, _⟩
    <;> simp

/-- A parse comes to an end if and only if all its calls that record values return. Those calls are
on the record of the parse that has each value refused that cannot be bound in the end. -/
theorem cifParse_returns_iff (o : Options σ) (hasCif : Bool) (source : List (List UChar))
    (w : World σ) (malformed : Nat → Option Malformed) :
    ∃ code s, (Config.initV2 o).guarded.parse hasCif source w malformed = some (code, s)
      ∧ ((∃ code' s', cifParse o hasCif source w malformed = some (code', s'))
        ↔ ∀ e ∈ s.log, ¬ e.Hangs o.icu (Value.setValueProps o.platform)) := by
  obtain ⟨code, s, hrun⟩ :=
    (Config.initV2 o).guarded.parse_terminates rfl (ValueProps.guarded_ne_none _) hasCif source w
    malformed
  obtain ⟨r, hguarded⟩ := Config.parse_eq_some.mp ⟨code, hrun⟩
  have hstart : ¬ Hung (Config.initV2 o).icu (Config.initV2 o).props
      (Scanner.initial source w malformed) := by
    rintro ⟨e, he, -⟩
    cases he
  refine ⟨code, s, hrun, ?_⟩
  have hreturns := (guarded_cifParseInternal hasCif).terminates_iff hstart hguarded
  rw [Hung] at hreturns
  push Not at hreturns
  refine Iff.trans ?_ hreturns
  constructor
  · rintro ⟨code', s', hrun'⟩
    obtain ⟨r', hparse⟩ := Config.parse_eq_some.mp ⟨code', hrun'⟩
    exact ⟨_, hparse⟩
  · rintro ⟨⟨r', s'⟩, hparse⟩
    obtain ⟨code', hrun'⟩ := Config.parse_eq_some.mpr ⟨r', hparse⟩
    exact ⟨code', s', hrun'⟩

/-- A data block with one item, a list of one string of 400 characters. -/
def longListText : List UChar := units "data_a _b [ '" ++ List.replicate 400 0x61 ++ units "' ]"

/-- Recording the list does not return. -/
theorem not_cifParse_returns_longList :
    cifParse (Options.create .ignoring .ascii .exact 2) true [longListText] ⟨(), {}⟩ = none :=
  Option.isNone_iff_eq_none.mp (by decide +kernel)

end Whole

end CifApi
