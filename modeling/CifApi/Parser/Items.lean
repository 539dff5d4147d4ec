import CifApi.Parser.Values

/-! The productions for items and loops: `parse_item`, `parse_loop`, its header and its packets. -/
namespace CifApi

open Exec Scanner

variable {σ : Type} (cfg : Config σ)

/-- A key where an item's value is wanted: reported at its colon, which is pushed back. -/
def splitKeyAtColon : Parse σ Unit := do
  let s ← read
  report cfg Code.missingSpace s.line (addColumn s.column (-1)) []
  pushBackColon cfg

/-- The value a handler leaves in the item it was given. -/
def HandlerReply.value (reply : HandlerReply σ) (value : Value) : Value :=
  match reply.call with
  | .item _ v => v
  | _ => value

def HandlerReply.packet (reply : HandlerReply σ) (packet : Packet) : Packet :=
  match reply.call with
  | .packetEnd p => p
  | _ => packet

/-- The category a handler gives to a loop about to be created. -/
def HandlerReply.category (reply : HandlerReply σ) : Option UStr :=
  match reply.call with
  | .loopStart _ category _ => category
  | _ => none

/-- The value of an item, or the unknown value for one that is missing. -/
def parseItemValue : Parse σ Value := do
  let s ← read
  match s.ttype with
  | .tkey | .key => do
    splitKeyAtColon cfg
    parseValue cfg
  | .olist | .otable | .tvalue | .qvalue | .value => parseValue cfg
  | _ => do
    reportToken cfg Code.missingValue
    -- the token is not consumed
    pure .unk

/-- Hands an item to the handler, and records it if the handler says so. -/
def recordItem (container : Container) (name : UStr) (value : Value) : Parse σ Unit := do
  let reply ← handlerCallback cfg (.item (some name) value)
  if reply.code = Code.traverseContinue then do
    let value := reply.value value
    ofResult (← bindingCall (.setValue container name value)
      (·.setValue cfg.icu cfg.props container name value))
  else if reply.code = Code.traverseSkipCurrent then pure ()
  else if reply.code = Code.traverseSkipSiblings then modify (·.setSkipDepth 2)
  else stop reply.code

/-- `parse_item`; without a name or a container the value is parsed and dropped. -/
def parseItem (container : Option Container) (name : Option UStr) : Parse σ Unit := do
  nextToken cfg
  ensure (do
    modify deepenSkip
    let value ← parseItemValue cfg
    match container, name with
    | some container, some name => recordItem cfg container name value
    | _, _ => pure ()) leaveSkip

/-- Whether the container already has an item of this name. -/
def hasItem (container : Option Container) (name : UStr) : Parse σ Bool := do
  match container with
  | none => pure false
  | some container =>
    match ← storeCall (.getItemLoop container name)
        fun cif => (cif.getItemLoop cfg.icu container name, cif) with
    | .ok _ => pure true
    | .error e => if e = Code.nosuchItem then pure false else stop e

/-- One name of a loop header; a duplicate leaves a place-holder. -/
def parseLoopName (container : Option Container) (names : List (Option UStr)) :
    Parse σ (List (Option UStr) ⊕ List (Option UStr)) := do
  nextToken cfg
  let s ← read
  if s.ttype = .name then do
    when (s.skipDepth = 0) (syntaxCallback cfg .dataname s.line s.column s.tvalue)
    let name := cstr s.tvalue
    if ← hasItem cfg container name then do
      reportToken cfg Code.dupItemname
      modify consumeToken
      pure (.inl (names ++ [none]))
    else do
      modify consumeToken
      pure (.inl (names ++ [some name]))
  else pure (.inr names)

/-- The names of the header in order, `none` for those dropped. -/
def parseLoopHeader (container : Option Container) : Parse σ (List (Option UStr)) :=
  loop tokenBound (parseLoopName cfg container) []

/-- The packet being filled, the column of its next value, and whether a packet is complete. -/
structure PacketState where
  packet : Packet
  columnIndex : Nat := 0
  havePackets : Bool := false

/-- `packet_values`: the packet entry of each column, `none` for the dummy value. -/
def packetColumns (packet : Packet) : List (Option UStr) → Except Int (List (Option Nat))
  | [] => .ok []
  | none :: rest => return none :: (← packetColumns packet rest)
  | some name :: rest => do
    let i ← (packet.findIdx cfg.icu name).mapError fun e =>
      if e = Code.nosuchItem then Code.internalError else e
    return some i :: (← packetColumns packet rest)

/-- Calls the packet start handler, unless the packet is being skipped. -/
def startPacket : Parse σ Unit := do
  mark (.enter .packet)
  let s ← read
  if 0 < s.skipDepth then modify deepenSkip
  else do
    let reply ← handlerCallback cfg .packetStart
    if reply.code = Code.traverseSkipCurrent then modify (·.setSkipDepth 1)
    else if reply.code = Code.traverseSkipSiblings then modify (·.setSkipDepth 2)
    else if reply.code = Code.traverseEnd then stop reply.code
    -- any other code is ignored

def addPacket (packet : Packet) : Option Loop → Parse σ Unit
  | some loop => do
    ofResult (← bindingCall (.addPacket loop packet) (·.addPacket cfg.props loop packet))
  | none => pure ()

/-- Hands a packet to its end handler, and records it if the handler says so. -/
def recordPacket (loop : Option Loop) (packet : Packet) : Parse σ Packet := do
  let reply ← handlerCallback cfg (.packetEnd packet)
  let packet := reply.packet packet
  if reply.code = Code.traverseContinue then addPacket cfg packet loop
  else if reply.code = Code.traverseSkipCurrent then pure ()
  else if reply.code = Code.traverseSkipSiblings then modify (·.setSkipDepth 1)
  else stop reply.code
  pure packet

/-- Records a packet, unless it is being skipped. -/
def closePacket (loop : Option Loop) (packet : Packet) : Parse σ Packet := do
  let s ← read
  if 0 < s.skipDepth then do
    modify leaveSkip
    pure packet
  else recordPacket cfg loop packet

def endPacket (loop : Option Loop) (packet : Packet) : Parse σ Packet := do
  let packet ← closePacket cfg loop packet
  mark (.leave .packet)
  pure packet

/-- Hands an item of a packet to the handler, which may replace its value. -/
def handlePacketItem (name : Option UStr) (value : Value) : Parse σ Value := do
  let reply ← handlerCallback cfg (.item name value)
  if reply.code = Code.traverseSkipCurrent then pure ()
  else if reply.code = Code.traverseSkipSiblings then modify (·.setSkipDepth 1)
  else if reply.code ≠ Code.ok then stop reply.code
  pure (reply.value value)

/-- A value of a loop's body. -/
def parsePacketValue (loop : Option Loop) (header : List (Option UStr))
    (columns : List (Option Nat)) (st : PacketState) : Parse σ PacketState := do
  when (st.columnIndex = 0) (startPacket cfg)
  let value ← parseValue cfg
  let value ← handlePacketItem cfg (header.getD st.columnIndex none) value
  let packet := match columns.getD st.columnIndex none with
    | some i => st.packet.setValue i value
    | none => st.packet
  let columnIndex := (st.columnIndex + 1) % header.length
  if columnIndex = 0 then return ⟨← endPacket cfg loop packet, 0, true⟩
  else pure ⟨packet, columnIndex, st.havePackets⟩

/-- The values a partial packet is filled out with; `names` is the array of the names kept, in which
what lies beyond its terminator is not initialised. -/
def fillPacket (names : List UStr) (columns : List (Option Nat)) (columnIndex : Nat)
    (packet : Packet) :
    Packet :=
  (List.range (columns.length - columnIndex)).foldl (fun packet k =>
    let i := columnIndex + k
    let isName := i < names.length || (names.length < i && cfg.strayName i)
    match columns.getD i none with
    | some j => if isName then packet.setValue j .unk else packet
    | none => packet) packet

/-- The end of a loop's body, at a token that cannot continue it. -/
def endLoopBody (loop : Option Loop) (names : List UStr) (columns : List (Option Nat))
    (st : PacketState) : Parse σ Unit := do
  if st.columnIndex ≠ 0 then do
    reportBefore cfg Code.partialPacket
    let _ ← endPacket cfg loop (fillPacket cfg names columns st.columnIndex st.packet)
  else if !st.havePackets then reportToken cfg Code.emptyLoop

def parseLoopToken (loop : Option Loop) (header : List (Option UStr)) (columns : List (Option Nat))
    (st : PacketState) : Parse σ (PacketState ⊕ Unit) := do
  nextToken cfg
  let s ← read
  match s.ttype with
  | .tkey | .key => do
    splitKey cfg
    return .inl (← parsePacketValue cfg loop header columns st)
  | .olist | .otable | .tvalue | .qvalue | .value =>
    return .inl (← parsePacketValue cfg loop header columns st)
  | .clist | .ctable => do
    reportToken cfg Code.unexpectedDelim
    modify consumeToken
    pure (.inl st)
  | _ => return .inr (← endLoopBody cfg loop (header.filterMap id) columns st)

def parseLoopPackets (loop : Option Loop) (header : List (Option UStr)) : Parse σ Unit := do
  let names := header.filterMap id
  let packet ← ofResult (← storeCall (.createPacket names)
    fun cif => (Packet.create cfg.icu names, cif))
  let columns ← ofResult (packetColumns cfg packet header)
  Exec.loop tokenBound (parseLoopToken cfg loop header columns) { packet := packet }

/-- Calls the loop start handler and creates the loop, unless it is being skipped. -/
def startLoop (container : Option Container) (names : List UStr) : Parse σ (Option Loop) := do
  let s ← read
  if 0 < s.skipDepth then pure none
  else do
    let reply ← handlerCallback cfg (.loopStart container none names)
    if reply.code = Code.traverseContinue then
      match container with
      | none => pure none
      | some container =>
        match ← storeCall (.createLoop container reply.category names)
            (·.createLoop cfg.icu container reply.category names) with
        | .ok loop => pure (some loop)
        | .error e =>
          if e = Code.nullLoop then pure none
          else if e = Code.invalidItemname ∨ e = Code.dupItemname then stop Code.internalError
          else stop e
    else do
      if reply.code = Code.traverseSkipCurrent then modify (·.setSkipDepth 1)
      else if reply.code = Code.traverseSkipSiblings then modify (·.setSkipDepth 2)
      else if reply.code = Code.traverseEnd then stop reply.code
      -- any other code is ignored
      pure none

/-- The header and the body of a loop. -/
def parseLoopContents (container : Option Container) : Parse σ (Option Loop) := do
  let header ← parseLoopHeader cfg container
  if header = [] then do
    reportBefore cfg Code.nullLoop
    pure none
  else do
    let loop ← startLoop cfg container (header.filterMap id)
    parseLoopPackets cfg loop header
    pure loop

/-- Calls the loop end handler, unless the loop is being skipped. -/
def endLoop (loop : Option Loop) : Parse σ Unit := do
  let s ← read
  if 0 < s.skipDepth then modify leaveSkip
  else do
    let reply ← handlerCallback cfg (.loopEnd loop)
    if reply.code = Code.traverseSkipCurrent then pure ()
    else if reply.code = Code.traverseSkipSiblings then modify (·.setSkipDepth 1)
    else if reply.code ≠ Code.ok then stop reply.code

def parseLoop (container : Option Container) : Parse σ Unit := inEntity .loop do
  modify deepenSkip
  let loop ← onStop (parseLoopContents cfg container) leaveSkip
  endLoop cfg loop

end CifApi
