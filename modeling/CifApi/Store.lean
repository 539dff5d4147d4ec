import CifApi.Value.Columns

/-! The store behind a CIF: the tables of its database, its transactions, and the operations parsing
uses. -/
namespace CifApi

structure ContainerRow where
  id : Nat
  nextLoopNum : Nat

structure DataBlockRow where
  containerId : Nat
  name : UStr
  nameOrig : UStr

structure SaveFrameRow where
  containerId : Nat
  parentId : Nat
  name : UStr
  nameOrig : UStr

structure LoopRow where
  containerId : Nat
  loopNum : Nat
  category : Option UStr
  lastRowNum : Nat

structure LoopItemRow where
  containerId : Nat
  name : UStr
  nameOrig : UStr
  loopNum : Nat

structure ItemValueRow where
  containerId : Nat
  name : UStr
  rowNum : Nat
  value : Value

structure Tables where
  container : List ContainerRow := []
  dataBlock : List DataBlockRow := []
  saveFrame : List SaveFrameRow := []
  loop : List LoopRow := []
  loopItem : List LoopItemRow := []
  itemValue : List ItemValueRow := []
  /-- The last key the autoincrement sequence of `container` gave out. -/
  lastId : Nat := 0

/-- An open CIF: its tables, and those saved by the open transaction and its savepoints, innermost
first. -/
structure Cif where
  tables : Tables := {}
  saved : List Tables := []

/-- A handle on a data block (no parent) or a save frame. -/
structure Container where
  id : Nat
  code : UStr
  codeOrig : UStr
  parentId : Option Nat
  deriving DecidableEq

/-- A handle on a loop of a container. -/
structure Loop where
  container : Container
  loopNum : Nat
  category : Option UStr
  deriving DecidableEq

namespace Cif

def autocommit (cif : Cif) : Bool := cif.saved.isEmpty

def beginTx (cif : Cif) : Option Cif :=
  if cif.autocommit then some { cif with saved := [cif.tables] } else none

def commit (cif : Cif) : Cif := { cif with saved := [] }

def rollback (cif : Cif) : Cif := { tables := cif.saved.getLastD cif.tables, saved := [] }

/-- `BEGIN_NESTTX`: a transaction, or a savepoint inside the open one. -/
def beginNesttx (cif : Cif) : Cif := { cif with saved := cif.tables :: cif.saved }

/-- `COMMIT_NESTTX`; `topTx` tells whether the level is the transaction itself. -/
def commitNesttx (topTx : Bool) (cif : Cif) : Cif :=
  if topTx then cif.commit else { cif with saved := cif.saved.tail }

/-- `ROLLBACK_NESTTX`: a savepoint rolled back to stays on the stack. -/
def rollbackNesttx (topTx : Bool) (cif : Cif) : Cif :=
  if topTx then cif.rollback else { cif with tables := cif.saved.headD cif.tables }

variable (icu : Icu)

def createBlockInternal (code : UStr) (lenient : Bool) (cif : Cif) : Except Int Container × Cif :=
  match if lenient then .ok (icu.normalize code)
    else icu.normalizeName code Code.invalidBlockcode with
  | .error e => (.error e, cif)
  | .ok name =>
    match cif.beginTx with
    | none => (.error Code.error, cif)
    | some cif =>
      let t := cif.tables
      let id := t.lastId + 1
      if t.dataBlock.any (·.name = name) then (.error Code.dupBlockcode, cif.rollback)
      else
        let t := { t with
          container := t.container ++ [⟨id, 0⟩]
          lastId := id
          dataBlock := t.dataBlock ++ [⟨id, name, code⟩] }
        (.ok ⟨id, name, code, none⟩, { cif with tables := t }.commit)

def createBlock (code : UStr) (cif : Cif) : Except Int Container × Cif :=
  cif.createBlockInternal icu code false

def getBlock (code : UStr) (cif : Cif) : Except Int Container :=
  let name := icu.normalize code
  match cif.tables.dataBlock.find? (·.name = name) with
  | some b => .ok ⟨b.containerId, name, b.nameOrig, none⟩
  | none => .error Code.nosuchBlock

/-- Whether a row of `container` has this id; foreign keys rest on it. -/
def Tables.hasContainer (t : Tables) (id : Nat) : Bool := t.container.any (·.id = id)

def createFrameInternal (parent : Container) (code : UStr) (lenient : Bool) (cif : Cif) :
    Except Int Container × Cif :=
  match if lenient then .ok (icu.normalize code)
    else icu.normalizeName code Code.invalidFramecode with
  | .error e => (.error e, cif)
  | .ok name =>
    match cif.beginTx with
    | none => (.error Code.error, cif)
    | some cif =>
      let t := cif.tables
      let id := t.lastId + 1
      if t.saveFrame.any (fun f => f.parentId = parent.id && f.name = name)
          || !Tables.hasContainer t parent.id then
        (.error Code.dupFramecode, cif.rollback)
      else
        let t := { t with
          container := t.container ++ [⟨id, 0⟩]
          lastId := id
          saveFrame := t.saveFrame ++ [⟨id, parent.id, name, code⟩] }
        (.ok ⟨id, name, code, some parent.id⟩, { cif with tables := t }.commit)

def createFrame (parent : Container) (code : UStr) (cif : Cif) : Except Int Container × Cif :=
  cif.createFrameInternal icu parent code false

def getFrame (parent : Container) (code : UStr) (cif : Cif) : Except Int Container := do
  let name ← icu.normalizeName code Code.invalidFramecode
  match cif.tables.saveFrame.find? fun f => f.parentId = parent.id && f.name = name with
  | some f => .ok ⟨f.containerId, name, f.nameOrig, some parent.id⟩
  | none => .error Code.nosuchFrame

/-- The loops `GET_ITEM_LOOP_SQL` selects. -/
def itemLoops (container : Container) (name : UStr) (t : Tables) : List LoopRow :=
  t.loop.filter fun l => l.containerId = container.id && t.loopItem.any fun li =>
    li.containerId = container.id && li.name = name && li.loopNum = l.loopNum

def getItemLoopInternal (container : Container) (name : UStr) (cif : Cif) : Except Int Loop :=
  match itemLoops container name cif.tables with
  | [] => .error Code.nosuchItem
  | [l] => .ok ⟨container, l.loopNum, l.category⟩
  | _ => .error Code.internalError

def getItemLoop (container : Container) (itemName : UStr) (cif : Cif) : Except Int Loop :=
  match icu.normalizeItemName itemName Code.invalidItemname with
  | .error e => .error (if e = Code.invalidItemname then Code.nosuchItem else e)
  | .ok name => cif.getItemLoopInternal container name

/-- `ADD_LOOP_ITEM_SQL`; `none` is a constraint failure. -/
def addLoopItem (container : Container) (name nameOrig : UStr) (loopNum : Nat) (t : Tables) :
    Option Tables :=
  if t.loopItem.any (fun li => li.containerId = container.id && li.name = name)
      || !t.loop.any (fun l => l.containerId = container.id && l.loopNum = loopNum) then none
  else some { t with loopItem := t.loopItem ++ [⟨container.id, name, nameOrig, loopNum⟩] }

def addLoopItems (container : Container) (loopNum : Nat) :
    List (UStr × UStr) → Tables → Option Tables
  | [], t => some t
  | (name, nameOrig) :: rest, t =>
    (addLoopItem container name nameOrig loopNum t).bind (addLoopItems container loopNum rest)

/-- `CREATE_LOOP_SQL`: the insertion through the view takes the container's next loop number. -/
def insertLoop (container : Container) (category : Option UStr) (t : Tables) :
    Except Int (Nat × Tables) :=
  match t.container.find? (·.id = container.id) with
  | none => .error Code.invalidHandle
  | some row =>
    if category = some [] && t.loop.any (fun l => l.containerId = container.id
      && l.category = some [])
    then .error Code.reservedLoop
    else .ok (row.nextLoopNum, { t with
      loop := t.loop ++ [⟨container.id, row.nextLoopNum, category, 0⟩]
      container := t.container.map fun c =>
        if c.id = container.id then { c with nextLoopNum := c.nextLoopNum + 1 } else c })

/-- Names come as pairs of the normalised name and the name as given. -/
def createLoopInternal (container : Container) (category : Option UStr) (names : List (UStr × UStr))
    (cif : Cif) : Except Int Loop × Cif :=
  let topTx := cif.autocommit
  let cif := cif.beginNesttx
  match insertLoop container category cif.tables with
  | .error e => (.error e, cif.rollbackNesttx topTx)
  | .ok (loopNum, t) =>
    match addLoopItems container loopNum names t with
    | none => (.error Code.dupItemname, { cif with tables := t }.rollbackNesttx topTx)
    | some t => (.ok ⟨container, loopNum, category⟩, { cif with tables := t }.commitNesttx topTx)

def createLoop (container : Container) (category : Option UStr) (names : List UStr) (cif : Cif) :
    Except Int Loop × Cif :=
  if names = [] then (.error Code.nullLoop, cif)
  else
    match names.mapM fun name => return (← icu.normalizeItemName name Code.invalidItemname,
      name) with
    | .error e => (.error e, cif)
    | .ok names => cif.createLoopInternal container category names

/-- The row numbers of the packets of the loop that holds the item. -/
def packetRows (container : Container) (name : UStr) (t : Tables) : List Nat :=
  ((t.itemValue.filter fun iv => iv.containerId = container.id && t.loopItem.any fun li1 =>
    li1.containerId = container.id && li1.name = name && t.loopItem.any fun li2 =>
      li2.containerId = container.id && li2.loopNum = li1.loopNum && li2.name = iv.name).map
    (·.rowNum)).eraseDups

/-- `SET_ALL_VALUES_SQL`, with the number of rows it changes. -/
def setAllValuesSql (container : Container) (name : UStr) (value : Value) (t : Tables) :
    Nat × Tables :=
  let rows := packetRows container name t
  (rows.length, { t with
    itemValue := (t.itemValue.filter fun iv =>
        !(iv.containerId = container.id && iv.name = name && rows.contains iv.rowNum))
      ++ rows.map fun row => ⟨container.id, name, row, value⟩ })

/-- `cif_container_get_category_loop` for the category of scalars. -/
def scalarLoop (container : Container) (cif : Cif) : Except Int Loop :=
  match cif.tables.loop.find? fun l => l.containerId = container.id && l.category = some [] with
  | some l => .ok ⟨container, l.loopNum, some []⟩
  | none => .error Code.nosuchLoop

/-! Where a call binds a value, `none` is a call that does not return. A row keeps the value for its
columns. -/

variable (props : ValueProps)

/-- `cif_container_set_all_values`, answering the number of packets changed. -/
def setAllValues (container : Container) (name : UStr) (value : Value) (cif : Cif) :
    Option (Except Int Nat × Cif) :=
  match props value with
  | none => none
  | some (.error e) => some (.error e, cif)
  | some (.ok columns) =>
    -- the checks are of rows, and there may be none
    if packetRows container name cif.tables ≠ [] && !columns.check then
      some (.error Code.error, cif)
    else
      let (changes, t) := setAllValuesSql container name value cif.tables
      some (.ok changes, { cif with tables := t })

/-- `cif_loop_add_item_internal`, answering the number of packets changed. -/
def addItemInternal (loop : Loop) (name nameOrig : UStr) (value : Value) (cif : Cif) :
    Option (Except Int Nat × Cif) :=
  let topTx := cif.autocommit
  let cif := cif.beginNesttx
  match addLoopItem loop.container name nameOrig loop.loopNum cif.tables with
  | none => some (.error Code.dupItemname, cif.rollbackNesttx topTx)
  | some t =>
    match { cif with tables := t }.setAllValues props loop.container name value with
    | none => none
    | some (.error _, cif) => some (.error Code.error, cif.rollbackNesttx topTx)
    | some (.ok changes, cif) => some (.ok changes, cif.commitNesttx topTx)

/-- `INSERT_VALUE_SQL` for the items of a packet, each checked to belong to the loop first. -/
def insertValues (loop : Loop) (rowNum : Nat) : Packet → Tables → Option (Except Int Tables)
  | [], t => some (.ok t)
  | (key, _, value) :: rest, t =>
    let id := loop.container.id
    if !t.loopItem.any (fun li => li.containerId = id && li.name = key && li.loopNum = loop.loopNum)
    then some (.error Code.wrongLoop)
    else
      match props value with
      | none => none
      | some (.error e) => some (.error e)
      | some (.ok columns) =>
        if !columns.check || t.itemValue.any fun iv =>
            iv.containerId = id && iv.name = key && iv.rowNum = rowNum
        then some (.error Code.error)
        else insertValues loop rowNum rest
          { t with itemValue := t.itemValue ++ [⟨id, key, rowNum, value⟩] }

/-- `cif_loop_add_packet`. -/
def addPacket (loop : Loop) (packet : Packet) (cif : Cif) : Option (Except Int Unit × Cif) :=
  if packet = [] then some (.error Code.invalidPacket, cif)
  else
    let topTx := cif.autocommit
    let cif := cif.beginNesttx
    let t := cif.tables
    let isLoop (l : LoopRow) := l.containerId = loop.container.id && l.loopNum = loop.loopNum
    match t.loop.find? isLoop with
    | none => some (.error Code.internalError, cif.rollbackNesttx topTx)
    | some l =>
      let rowNum := l.lastRowNum + 1
      -- the trigger on updates of a scalar loop
      if l.category = some [] && 1 < rowNum then
        some (.error Code.reservedLoop, cif.rollbackNesttx topTx)
      else
        let t := { t with
          loop := t.loop.map fun l => if isLoop l then { l with lastRowNum := l.lastRowNum + 1 }
            else l }
        match insertValues props loop rowNum packet t with
        | none => none
        | some (.error e) => some (.error e, { cif with tables := t }.rollbackNesttx topTx)
        | some (.ok t) => some (.ok (), { cif with tables := t }.commitNesttx topTx)

/-- What `cif_container_add_scalar` does once the loop is there. -/
def addScalarTo (loop : Loop) (name nameOrig : UStr) (value : Value) (cif : Cif) :
    Option (Except Int Unit × Cif) :=
  match cif.addItemInternal props loop name nameOrig value with
  | none => none
  | some (.error e, cif) => some (.error e, cif)
  | some (.ok 0, cif) =>
    -- the packet is keyed by the normalised name, which is validated once more
    match icu.normalizeItemName name Code.invalidItemname with
    | .error e => some (.error e, cif)
    | .ok key => cif.addPacket props loop [(key, name, value)]
  | some (.ok _, cif) => some (.ok (), cif)

/-- `cif_container_add_scalar`. -/
def addScalar (container : Container) (name nameOrig : UStr) (value : Value) (cif : Cif) :
    Option (Except Int Unit × Cif) :=
  match cif.scalarLoop container with
  | .ok loop => cif.addScalarTo icu props loop name nameOrig value
  | .error _ =>
    match cif.createLoopInternal container (some []) [] with
    | (.error e, cif) => some (.error e, cif)
    | (.ok loop, cif) => cif.addScalarTo icu props loop name nameOrig value

/-- Ends the transaction of a call: committed if what was done in it succeeded, else rolled back. -/
def endTx {α : Type} : Option (Except Int α × Cif) → Option (Except Int Unit × Cif)
  | none => none
  | some (.ok _, cif) => some (.ok (), cif.commit)
  | some (.error e, cif) => some (.error e, cif.rollback)

/-- `cif_container_set_value`. -/
def setValue (container : Container) (nameOrig : UStr) (value : Value) (cif : Cif) :
    Option (Except Int Unit × Cif) :=
  match icu.normalizeItemName nameOrig Code.invalidItemname with
  | .error e => some (.error e, cif)
  | .ok name =>
    match cif.beginTx with
    | none => some (.error Code.error, cif)
    | some cif =>
      match cif.getItemLoopInternal container name with
      | .ok _ => endTx (cif.setAllValues props container name value)
      | .error e =>
        if e = Code.nosuchItem then endTx (cif.addScalar icu props container name nameOrig value)
        else some (.error e, cif.rollback)

/-- `PRUNE_SQL`: loops without a value go, and their items with them. -/
def prune (container : Container) (cif : Cif) : Cif :=
  let t := cif.tables
  let kept (loopNum : Nat) : Bool := t.loopItem.any fun li => li.containerId = container.id
    && li.loopNum = loopNum
    && t.itemValue.any fun iv => iv.containerId = container.id && iv.name = li.name
  { cif with tables := { t with
      loop := t.loop.filter fun l => !(l.containerId = container.id) || kept l.loopNum
      loopItem := t.loopItem.filter fun li => !(li.containerId = container.id)
        || kept li.loopNum } }

end Cif

end CifApi
