import Mathlib.Data.List.Sort
import CifApi.Store

/-! The operations on a store beyond those that parsing uses. -/
namespace CifApi

namespace Cif

variable (icu : Icu)

/-- `cif_get_all_blocks`. -/
def getAllBlocks (cif : Cif) : List Container :=
  cif.tables.dataBlock.map fun b => ⟨b.containerId, b.name, b.nameOrig, none⟩

/-- `cif_container_get_all_frames`. -/
def getAllFrames (container : Container) (cif : Cif) : List Container :=
  (cif.tables.saveFrame.filter (·.parentId = container.id)).map fun f =>
    ⟨f.containerId, f.name, f.nameOrig, some container.id⟩

/-- `DESTROY_CONTAINER_SQL`: what belongs to the container goes with it, and so do the frames' rows
that name it as their parent. -/
def deleteContainer (id : Nat) (t : Tables) : Tables where
  container := t.container.filter (·.id ≠ id)
  dataBlock := t.dataBlock.filter (·.containerId ≠ id)
  saveFrame := t.saveFrame.filter fun f => f.containerId ≠ id && f.parentId ≠ id
  loop := t.loop.filter (·.containerId ≠ id)
  loopItem := t.loopItem.filter (·.containerId ≠ id)
  itemValue := t.itemValue.filter (·.containerId ≠ id)
  lastId := t.lastId

/-- `cif_container_destroy`. -/
def destroyContainer (container : Container) (cif : Cif) : Except Int Unit × Cif :=
  if Tables.hasContainer cif.tables container.id then
    (.ok (), { cif with tables := deleteContainer container.id cif.tables })
  else (.error Code.invalidHandle, cif)

/-- `cif_container_get_all_loops`. -/
def getAllLoops (container : Container) (cif : Cif) : Except Int (List Loop) × Cif :=
  let topTx := cif.autocommit
  let cif := cif.beginNesttx
  (if Tables.hasContainer cif.tables container.id then
    .ok ((cif.tables.loop.filter (·.containerId = container.id)).map fun l =>
      ⟨container, l.loopNum, l.category⟩)
  else .error Code.invalidHandle, cif.rollbackNesttx topTx)

/-- `DESTROY_LOOP_SQL`: the loop's items and their values go with it. -/
def deleteLoop (containerId loopNum : Nat) (t : Tables) : Tables :=
  { t with
    loop := t.loop.filter fun l => !(l.containerId = containerId && l.loopNum = loopNum)
    loopItem := t.loopItem.filter fun li => !(li.containerId = containerId && li.loopNum = loopNum)
    itemValue := t.itemValue.filter fun iv => !(iv.containerId = containerId &&
      t.loopItem.any fun li => li.containerId = containerId && li.loopNum = loopNum
        && li.name = iv.name) }

/-- `cif_loop_destroy`. -/
def destroyLoop (loop : Loop) (cif : Cif) : Except Int Unit × Cif :=
  if cif.tables.loop.any fun l => l.containerId = loop.container.id && l.loopNum = loop.loopNum then
    (.ok (), { cif with tables := deleteLoop loop.container.id loop.loopNum cif.tables })
  else (.error Code.invalidHandle, cif)

/-- `cif_loop_set_category`, with the category the handle has afterwards. -/
def setCategory (loop : Loop) (category : Option UStr) (cif : Cif) :
    Except Int Unit × Option UStr × Cif :=
  let isLoop (l : LoopRow) := l.containerId = loop.container.id && l.loopNum = loop.loopNum
  -- the scalar loop's category is kept from changing to another, but not from being dropped
  if category = some [] || (category ≠ none && loop.category = some []) then
    (.error Code.reservedLoop, loop.category, cif)
  else
    let t := { cif.tables with
      loop := cif.tables.loop.map fun l => if isLoop l then { l with category } else l }
    (if cif.tables.loop.any isLoop then .ok () else .error Code.invalidHandle,
      category, { cif with tables := t })

/-- The rows `GET_LOOP_NAMES_SQL` selects. -/
def loopItems (loop : Loop) (t : Tables) : List LoopItemRow :=
  t.loopItem.filter fun li => li.containerId = loop.container.id && li.loopNum = loop.loopNum

/-- `cif_loop_get_names_internal`. -/
def getNamesInternal (loop : Loop) (normalize : Bool) (cif : Cif) : Except Int (List UStr) × Cif :=
  let topTx := cif.autocommit
  let cif := cif.beginNesttx
  let names := (loopItems loop cif.tables).map (·.nameOrig)
  (if names = [] then .error Code.invalidHandle
  else if normalize then names.mapM fun name => icu.normalizeItemName name Code.internalError
  else .ok names, cif.rollbackNesttx topTx)

/-- `cif_loop_get_names`. -/
def getNames (loop : Loop) (cif : Cif) : Except Int (List UStr) × Cif :=
  cif.getNamesInternal icu loop false

/-- `cif_loop_add_item`, with the unknown value for a null one. -/
def addItem (props : ValueProps) (loop : Loop) (itemName : UStr) (val : Option Value) (cif : Cif) :
    Option (Except Int Unit × Cif) :=
  match icu.normalizeItemName itemName Code.invalidItemname with
  | .error e => some (.error e, cif)
  | .ok name => (cif.addItemInternal props loop name itemName (val.getD .unk)).map
    fun (result, cif) =>
    (result.map fun _ => (), cif)

/-- The values of an item, in the order of their rows. -/
def itemValues (containerId : Nat) (name : UStr) (t : Tables) : List ItemValueRow :=
  (t.itemValue.filter fun iv => iv.containerId = containerId && iv.name = name).insertionSort
    (·.rowNum ≤ ·.rowNum)

/-- `cif_container_get_value`: the value handed back, as its row gives it, if there is one, and the
code. -/
def getValue (platform : Platform) (container : Container) (name : UStr) (cif : Cif) :
    Option (Option Value × Int) :=
  match icu.normalizeItemName name Code.nosuchItem with
  | .error e => some (none, e)
  | .ok name =>
    match itemValues container.id name cif.tables with
    | [] => some (none, Code.nosuchItem)
    | iv :: rest =>
      match iv.value.reread platform with
      | none => none
      | some (.error e) => some (none, e)
      | some (.ok value) => some (some value, if rest.isEmpty then Code.ok else Code.ambiguousItem)

/-- `REMOVE_ITEM_SQL`: the item's values go with it. -/
def deleteItem (containerId : Nat) (name : UStr) (t : Tables) : Tables :=
  { t with
    loopItem := t.loopItem.filter fun li => !(li.containerId = containerId && li.name = name)
    itemValue := t.itemValue.filter fun iv => !(iv.containerId = containerId && iv.name = name) }

/-- `cif_container_remove_item`. -/
def removeItem (container : Container) (itemName : UStr) (cif : Cif) : Except Int Unit × Cif :=
  match icu.normalizeItemName itemName Code.nosuchItem with
  | .error e => (.error e, cif)
  | .ok name =>
    match cif.beginTx with
    | none => (.error Code.error, cif)
    | some cif =>
      let t := cif.tables
      match t.loopItem.find? fun li => li.containerId = container.id && li.name = name with
      | none => (.error Code.nosuchItem, cif.rollback)
      | some li =>
        let size := (loopItems ⟨container, li.loopNum, none⟩ t).length
        let t := if size = 1 then deleteLoop container.id li.loopNum t
          else deleteItem container.id name t
        (.ok (), { cif with tables := t }.commit)

end Cif

end CifApi
