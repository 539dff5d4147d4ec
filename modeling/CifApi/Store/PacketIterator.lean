import CifApi.Store.Operations

/-! Iteration over the packets of a loop, inside a transaction of its own. -/
namespace CifApi

/-- An open iterator. The rows are those its statement has still to give, the one it stands at
first; `previousRowNum` is zero where the source has no positive number. -/
structure PacketIterator where
  loop : Loop
  itemNames : List UStr
  rows : List ItemValueRow
  finished : Bool := false
  previousRowNum : Nat := 0

namespace Cif

variable (icu : Icu)

/-- The rows `GET_LOOP_VALUES_SQL` selects. -/
def loopValues (loop : Loop) (t : Tables) : List ItemValueRow :=
  (t.itemValue.filter fun iv => iv.containerId = loop.container.id &&
    (loopItems loop t).any (·.name = iv.name)).insertionSort (·.rowNum ≤ ·.rowNum)

/-- `cif_loop_get_packets`. -/
def getPackets (loop : Loop) (cif : Cif) : Except Int PacketIterator × Cif :=
  match cif.getNamesInternal icu loop true with
  | (.error e, cif) => (.error e, cif)
  | (.ok itemNames, cif) =>
    match cif.beginTx with
    | none => (.error Code.error, cif)
    | some cif =>
      if loopValues loop cif.tables = [] then (.error Code.emptyLoop, cif.rollback)
      else (.ok { loop, itemNames, rows := loopValues loop cif.tables }, cif)

end Cif

namespace PacketIterator

/-- Sets an item of a new packet, which is expected to be unknown yet, from the value of a row. -/
def readValue (packet : Packet) (row : ItemValueRow) : Except Int Packet :=
  match packet.findIdx? (·.1 = row.name) with
  | none => .error Code.internalError
  | some i =>
    match packet[i]? with
    | some (_, _, .unk) => .ok (packet.setValue i row.value)
    | _ => .error Code.internalError

/-- Reads the rows of one packet, as long as they have its number. -/
def readPacket (currentRow : Nat) :
    Packet → List ItemValueRow → Except Int Packet × List ItemValueRow
  | packet, [] => (.ok packet, [])
  | packet, row :: rest =>
    if row.rowNum = currentRow then
      match readValue packet row with
      | .error e => (.error e, row :: rest)
      | .ok packet => readPacket currentRow packet rest
    else (.ok packet, row :: rest)

/-- The packet of unknown values that `cif_packet_create_norm` makes. -/
def newPacket (it : PacketIterator) : Packet := it.itemNames.map fun name => (name, name, .unk)

/-- `cif_pktitr_next_packet`. -/
def nextPacket (it : PacketIterator) (cif : Cif) : Except Int Packet × PacketIterator :=
  if it.finished then (.error Code.finished, it)
  else
    let currentRow := (it.rows.head?.map (·.rowNum)).getD 0
    if cif.autocommit then (.error Code.invalidHandle, it)
    else
      match readPacket currentRow it.newPacket it.rows with
      | (.error e, rows) => (.error e, { it with rows })
      | (.ok packet, rows) =>
        (.ok packet, { it with rows, finished := rows.isEmpty, previousRowNum := currentRow })

/-- `UPDATE_VALUE_SQL` for the items of a packet; `none` is a value that is never done with. -/
def updateValues (props : ValueProps) (it : PacketIterator) :
    Packet → Tables → Option (Except Int Tables)
  | [], t => some (.ok t)
  | (key, _, value) :: rest, t =>
    let id := it.loop.container.id
    if !it.itemNames.contains key then some (.error Code.wrongLoop)
    else
      match props value with
      | none => none
      | some (.error e) => some (.error e)
      | some (.ok columns) =>
        -- a value belongs to an item of the container
        if !columns.check || !t.loopItem.any fun li => li.containerId = id && li.name = key then
          some (.error Code.error)
        else updateValues props it rest { t with
          itemValue := (t.itemValue.filter fun iv =>
              !(iv.containerId = id && iv.name = key && iv.rowNum = it.previousRowNum))
            ++ [⟨id, key, it.previousRowNum, value⟩] }

/-- `cif_pktitr_update_packet`. -/
def updatePacket (props : ValueProps) (it : PacketIterator) (packet : Packet) (cif : Cif) :
    Option (Except Int Unit × Cif) :=
  if cif.autocommit then some (.error Code.invalidHandle, cif)
  else if it.previousRowNum = 0 then some (.error Code.misuse, cif)
  else
    let cif := cif.beginNesttx
    match it.updateValues props packet cif.tables with
    | none => none
    | some (.error e) => some (.error e, cif.rollbackNesttx false)
    | some (.ok t) => some (.ok (), { cif with tables := t }.commitNesttx false)

/-- `REMOVE_PACKET_SQL`. -/
def deletePacket (loop : Loop) (rowNum : Nat) (t : Tables) : Tables :=
  { t with
    itemValue := t.itemValue.filter fun iv => !(iv.containerId = loop.container.id &&
      iv.rowNum = rowNum && (Cif.loopItems loop t).any (·.name = iv.name)) }

/-- `RESET_PACKET_NUM_SQL`. -/
def resetPacketNumber (loop : Loop) (t : Tables) : Tables :=
  { t with
    loop := t.loop.map fun l =>
      if l.containerId = loop.container.id && l.loopNum = loop.loopNum then
        { l with lastRowNum := 0 }
      else l }

/-- `cif_pktitr_remove_packet`; whether the loop is scalar is what its handle says. -/
def removePacket (it : PacketIterator) (cif : Cif) : Except Int Unit × PacketIterator × Cif :=
  if cif.autocommit then (.error Code.invalidHandle, it, cif)
  else if it.previousRowNum = 0 then (.error Code.misuse, it, cif)
  else
    let cif := cif.beginNesttx
    let t := deletePacket it.loop it.previousRowNum cif.tables
    let t := if it.loop.category = some [] then resetPacketNumber it.loop t else t
    (.ok (), { it with previousRowNum := 0 }, { cif with tables := t }.commitNesttx false)

/-- `cif_pktitr_close`. -/
def close (cif : Cif) : Except Int Unit × Cif :=
  if cif.autocommit then (.error Code.error, cif) else (.ok (), cif.commit)

/-- `cif_pktitr_abort`. -/
def abort (cif : Cif) : Except Int Unit × Cif :=
  if cif.autocommit then (.error Code.error, cif) else (.ok (), cif.rollback)

end PacketIterator

end CifApi
