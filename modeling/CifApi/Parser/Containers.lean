import CifApi.Parser.Items

/-! The productions for blocks, save frames and a whole CIF: `parse_container` and `parse_cif`. -/
namespace CifApi

open Exec Scanner

variable {σ : Type} (cfg : Config σ)

def containerEntity (isBlock : Bool) : Entity := if isBlock then .block else .frame

/-- Calls the block or frame start handler, unless the container is being skipped. -/
def startContainer (container : Option Container) (isBlock : Bool) : Parse σ Unit := do
  let s ← read
  if 0 < s.skipDepth then modify deepenSkip
  else do
    let reply ← handlerCallback cfg (if isBlock then .blockStart container else
        .frameStart container)
    if reply.code = Code.traverseContinue then pure ()
    else if reply.code = Code.traverseSkipCurrent then modify (·.setSkipDepth 1)
    else if reply.code = Code.traverseSkipSiblings then modify (·.setSkipDepth 2)
    else stop reply.code

def pruneContainer : Option Container → Parse σ Unit
  | some container => do
    ofResult (← storeCall (.prune container) fun cif => (.ok (), cif.prune container))
  | none => pure ()

/-- Prunes the container and calls the block or frame end handler, unless it is being skipped. -/
def endContainer (container : Option Container) (isBlock : Bool) : Parse σ Unit := do
  let s ← read
  when (s.skipDepth = 0) do
    pruneContainer container
    let reply ← handlerCallback cfg (if isBlock then .blockEnd container else .frameEnd container)
    if reply.code = Code.traverseSkipSiblings then modify (·.setSkipDepth 1)
    else if reply.code = Code.traverseContinue ∨ reply.code = Code.traverseSkipCurrent then pure ()
    else stop reply.code

/-- Whether a frame header here ends the current container instead: frames are not permitted at all,
or not inside one another. -/
def frameEndsContainer (isBlock : Bool) : Parse σ Bool := do
  if cfg.maxFrameDepth = 0 then do
    let s ← read
    let reply ← errorCallback cfg
      ⟨Code.frameNotAllowed, s.line, sizeSub s.column s.tvalueLength, s.tvalue⟩
    if isBlock then pure false  -- whatever the callback answers
    else if reply ≠ Code.ok then stop reply
    else pure true
  else if cfg.maxFrameDepth = 1 ∧ !isBlock then do
    reportToken cfg Code.noFrameTerm
    pure true
  else pure false

/-- Creates the frame a header names, or reopens it. -/
def createFrame (container : Container) (code : UStr) : Parse σ Container := do
  let create (lenient : Bool) : Parse σ (Except Int Container) :=
    storeCall (.createFrame container code lenient)
      (·.createFrameInternal cfg.icu container code lenient)
  let reopen : Parse σ Container := do
    reportToken cfg Code.dupFramecode
    ofResult (← storeCall (.getFrame container code)
      fun cif => (cif.getFrame cfg.icu container code, cif))
  match ← create false with
  | .ok frame => pure frame
  | .error e =>
    if e = Code.invalidFramecode then do
      reportToken cfg e
      match ← create true with
      | .ok frame => pure frame
      | .error e => if e = Code.dupFramecode then reopen else stop e
    else if e = Code.dupFramecode then reopen
    else stop e

/-- A save frame header; answers whether it ends the current container. -/
def parseFrameHead (parseContainer : Option Container × Bool → Parse σ Unit)
    (container : Option Container) (isBlock : Bool) : Parse σ (Unit ⊕ Unit) := do
  let s ← read
  match container, s.skipDepth with
  | some container, 0 => do
    if ← frameEndsContainer cfg isBlock then pure (.inr ())
    else do
      let frame ← createFrame cfg container (cstr s.tvalue)
      modify consumeToken
      parseContainer (some frame, false)
      pure (.inl ())
  | _, _ => do
    modify consumeToken
    parseContainer (none, false)
    pure (.inl ())

/-- A data name and its value. -/
def parseNamedItem (container : Option Container) : Parse σ Unit := do
  let s ← read
  if 0 < s.skipDepth then do
    modify consumeToken
    parseItem cfg container none
  else do
    syntaxCallback cfg .dataname s.line s.column s.tvalue
    let name := cstr s.tvalue
    modify consumeToken
    if ← hasItem cfg container name then do
      reportToken cfg Code.dupItemname
      -- the item is rejected, but its value still parsed
      parseItem cfg container none
    else parseItem cfg container (some name)

/-- A value without a name: reported, parsed and dropped. -/
def parseStrayValue (container : Option Container) : Parse σ Unit := do
  let s ← read
  report cfg Code.unexpectedValue s.line (sizeSub (addColumn s.column 1) s.tvalueLength) s.tvalue
  parseItem cfg container none

/-- What `parse_container` does with the next token; `.inr` ends the container. -/
def parseContainerToken (parseContainer : Option Container × Bool → Parse σ Unit)
    (container : Option Container) (isBlock : Bool) : Parse σ (Unit ⊕ Unit) := do
  nextToken cfg
  let s ← read
  match s.ttype with
  | .blockHead => do
    when (!isBlock) (reportToken cfg Code.noFrameTerm)
    -- the token is not consumed
    pure (.inr ())
  | .frameHead => parseFrameHead cfg parseContainer container isBlock
  | .frameTerm => do
    modify consumeToken
    if isBlock then do
      reportToken cfg Code.unexpectedTerm
      pure (.inl ())
    else pure (.inr ())
  | .loopkw => do
    when (s.skipDepth = 0) (syntaxCallback cfg .keyword s.line s.column s.tvalue)
    modify consumeToken
    parseLoop cfg container
    pure (.inl ())
  | .name => do
    parseNamedItem cfg container
    pure (.inl ())
  | .tkey | .key => do
    splitKeyAtColon cfg
    parseStrayValue cfg container
    pure (.inl ())
  | .tvalue | .qvalue | .value | .olist | .otable => do
    parseStrayValue cfg container
    pure (.inl ())
  | .ctable | .clist => do
    reportToken cfg Code.unexpectedDelim
    modify consumeToken
    pure (.inl ())
  | .end_ => do
    when (!isBlock) (report cfg Code.eofInFrame s.line s.column [])
    pure (.inr ())
  | .error => stop Code.internalError

def parseContainerBody (parseContainer : Option Container × Bool → Parse σ Unit) :
    Option Container × Bool → Parse σ Unit
  | (container, isBlock) => inEntity (containerEntity isBlock) do
    ensure (do
      startContainer cfg container isBlock
      loop tokenBound (fun _ => parseContainerToken cfg parseContainer container isBlock) ())
        leaveSkip
    endContainer cfg container isBlock

/-- `parse_container`, for a container (if there is one) and whether it is a block. -/
def parseContainer : Option Container × Bool → Parse σ Unit :=
  fix tokenBound (parseContainerBody cfg)

/-- Creates the block a header names, or reopens it. -/
def createBlock (code : UStr) : Parse σ Container := do
  let create (lenient : Bool) : Parse σ (Except Int Container) :=
    storeCall (.createBlock code lenient) (·.createBlockInternal cfg.icu code lenient)
  let reopen : Parse σ Container := do
    reportToken cfg Code.dupBlockcode
    ofResult (← storeCall (.getBlock code) fun cif => (cif.getBlock cfg.icu code, cif))
  match ← create false with
  | .ok block => pure block
  | .error e =>
    if e = Code.invalidBlockcode then do
      reportToken cfg e
      match ← create true with
      | .ok block => pure block
      | .error e => if e = Code.dupBlockcode then reopen else stop e
    else if e = Code.dupBlockcode then reopen
    else stop e

/-- Creates the block that takes what precedes any header, or falls back to one there is. -/
def createAnonymousBlock : Parse σ Container := do
  match ← storeCall (.createBlock [] true) (·.createBlockInternal cfg.icu [] true) with
  | .ok block => pure block
  | .error e =>
    if e = Code.dupBlockcode then
      ofResult (← storeCall (.getBlock []) fun cif => (cif.getBlock cfg.icu [], cif))
    else stop e

/-- The block to parse into; none if there is no CIF, or the block is being skipped. -/
def openBlock (hasCif : Bool) (create : Parse σ Container) : Parse σ (Option Container) := do
  let s ← read
  if hasCif ∧ s.skipDepth = 0 then return some (← create) else pure none

/-- The next block of a CIF; `hasCif` tells whether there is a CIF to parse into. -/
def parseBlock (hasCif : Bool) : Parse σ (Unit ⊕ Unit) := do
  nextToken cfg
  let s ← read
  match s.ttype with
  | .blockHead => do
    let block ← openBlock hasCif (createBlock cfg (cstr s.tvalue))
    modify consumeToken
    parseContainer cfg (block, true)
    pure (.inl ())
  | .end_ => pure (.inr ())
  | _ => do
    reportToken cfg Code.noBlockHeader
    let block ← openBlock hasCif (createAnonymousBlock cfg)
    parseContainer cfg (block, true)
    pure (.inl ())

/-- The blocks of a CIF, and the CIF end handler. -/
def parseBlocks (hasCif : Bool) : Parse σ Unit := do
  ensure (loop tokenBound (fun _ => parseBlock cfg hasCif) ()) leaveSkip
  let reply ← handlerCallback cfg .cifEnd
  when (reply.code ≠ Code.ok) (stop reply.code)

/-- `parse_cif`; codes below zero are navigation signals, not failures. -/
def parseCif (hasCif : Bool) : Parse σ Unit :=
  recode (inEntity .cif do
    let reply ← handlerCallback cfg .cifStart
    if reply.code = Code.traverseSkipCurrent ∨ reply.code = Code.traverseSkipSiblings then do
      modify (·.setSkipDepth 1)
      parseBlocks cfg hasCif
    else if reply.code = Code.traverseContinue then parseBlocks cfg hasCif
    else stop reply.code) (fun e => if Code.ok < e then e else Code.ok)

end CifApi
