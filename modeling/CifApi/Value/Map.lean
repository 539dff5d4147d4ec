import CifApi.Data.Dictionary
import CifApi.Data.Keyed
import CifApi.Value

/-! Packets and tables as hash maps whose entries own their key strings. -/
namespace CifApi

/-- An entry: its normalised key, the key as given, and whether the two are one string; `freed`
tells that the string of the key has been freed. -/
structure Entry where
  key : UStr
  keyOrig : UStr
  value : Value
  shared : Bool
  freed : Bool := false

/-- Gives an entry its original name, as a string of its own unless it is the key. -/
def Entry.assignOrig (entry : Entry) (name : UStr) : Entry :=
  if name = entry.key then entry else { entry with keyOrig := name, shared := false }

/-- What a map is part of, which decides how it normalises keys. -/
inductive MapKind where
  | packet
  | table
  deriving DecidableEq

/-- `cif_map_t`, its entries in the order of the hash table's list. -/
structure CifMap where
  kind : MapKind
  isStandalone : Bool
  entries : List Entry

namespace MapKind

variable (icu : Icu)

def normalizer : MapKind → UStr → Int → Except Int UStr
  | packet => icu.normalizeItemName
  | table => icu.normalizeTableIndex

/-- The code `set_item` answers for a key that is not valid. -/
def setInvalidity : MapKind → Int
  | packet => Code.invalidItemname
  | table => Code.invalidIndex

end MapKind

namespace CifMap

variable (icu : Icu)

/-- `cif_table_init`. -/
def tableInit : CifMap := ⟨.table, true, []⟩

/-- `cif_packet_create_norm`. -/
def createNorm (names : List UStr) (avoidAliasing : Bool) : CifMap where
  kind := .packet
  isStandalone := avoidAliasing
  entries := names.map fun name =>
    { key := name, keyOrig := name, value := .unk, shared := true }

/-- `cif_packet_create`. -/
def packetCreate (names : List UStr) : Except Int CifMap := do
  let namesNorm ← names.mapM (icu.normalizeItemName · Code.invalidItemname)
  let map := createNorm namesNorm false
  return { map with isStandalone := true, entries := List.zipWith Entry.assignOrig map.entries names
    }

/-- `convert_to_standalone`; each name copied counts twice, so that two names are too many. -/
def convertToStandalone (map : CifMap) : Option CifMap :=
  if map.isStandalone then some map
  else if map.entries.length ≤ 1 then
    some { map with
      isStandalone := true
      entries := map.entries.map fun entry => { entry with shared := false } }
  else none

section Lookup

-- whether what is left in the memory of a freed key still reads as the key
variable (stray : UStr → Bool)

def matchesKey (key : UStr) (entry : Entry) : Bool :=
  entry.key = key && (!entry.freed || stray key)

/-- `HASH_FIND`: hash buckets keep the entry added last in front. -/
def hashFind (map : CifMap) (key : UStr) : Option Nat :=
  (List.range map.entries.length).reverse.find? fun i =>
    (map.entries[i]?).any (matchesKey stray key)

/-- `cif_map_set_item`, with the unknown value for a null one. -/
def setItem (map : CifMap) (key : UStr) (value : Option Value) : Except Int Unit × CifMap :=
  match map.kind.normalizer icu key map.kind.setInvalidity with
  | .error e => (.error e, map)
  | .ok keyNorm =>
    match hashFind stray map keyNorm with
    | some i =>
      let sameKey := (map.entries[i]?).any (·.keyOrig = key)
      match if sameKey then some map else map.convertToStandalone with
      | none => (.error Code.error, map)
      | some map =>
        (.ok (), { map with entries := map.entries.modify i fun entry =>
          -- a name that was the key's own string is freed with the key still in use
          if sameKey then { entry with value := value.getD .unk }
          else { entry with
            keyOrig := key
            shared := false
            freed := entry.freed || entry.shared
            value := value.getD .unk } })
    | none =>
      match map.convertToStandalone with
      | none => (.error Code.error, map)
      | some map =>
        (.ok (), { map with entries := map.entries ++
          [{ key := keyNorm, keyOrig := key, value := value.getD .unk, shared := false }] })

/-- `cif_map_retrieve_item`. -/
def retrieveItem (map : CifMap) (key : UStr) (doRemove : Bool) : Except Int Value × CifMap :=
  match map.kind.normalizer icu key Code.nosuchItem with
  | .error e => (.error e, map)
  | .ok keyNorm =>
    match (hashFind stray map keyNorm).bind fun i => (map.entries[i]?).map (i, ·) with
    | none => (.error Code.nosuchItem, map)
    | some (i, entry) =>
      (.ok entry.value, if doRemove then { map with entries := map.entries.eraseIdx i } else map)

end Lookup

/-- `cif_map_get_keys`. -/
def getKeys (map : CifMap) : List UStr := map.entries.map (·.keyOrig)

/-- What the store and the parser see of a packet. -/
def toPacket (map : CifMap) : Packet :=
  map.entries.map fun entry => (entry.key, entry.keyOrig, entry.value)

end CifMap

/-- The calls on a packet or a table. -/
inductive MapOp where
  | setItem (key : UStr) (value : Option Value)
  | getItem (key : UStr)
  | removeItem (key : UStr)
  | getKeys

/-- What a call gives back. -/
inductive MapAnswer where
  | done (result : Except Int Unit)
  | item (result : Except Int Value)
  | keys (keys : List UStr)

namespace MapOp

variable (icu : Icu) (stray : UStr → Bool)

def step (map : CifMap) : MapOp → MapAnswer × CifMap
  | setItem key value =>
    let (result, map) := map.setItem icu stray key value
    (.done result, map)
  | getItem key =>
    let (result, map) := map.retrieveItem icu stray key false
    (.item result, map)
  | removeItem key =>
    let (result, map) := map.retrieveItem icu stray key true
    (.item result, map)
  | getKeys => (.keys map.getKeys, map)

def run (map : CifMap) : List MapOp → List MapAnswer × CifMap
  | [] => ([], map)
  | op :: ops =>
    let (answer, map) := op.step icu stray map
    let (answers, map) := run map ops
    (answer :: answers, map)

end MapOp

namespace MapKind

variable (icu : Icu)

/-- The normal form of a key, if it is valid. -/
def normalKey (kind : MapKind) (key : UStr) : Option UStr :=
  match kind with
  | packet => if isValidName key true then some (icu.normalize key) else none
  | table => if hasDisallowedChars key then none else some (icu.nfc key)

theorem normalizer_eq (kind : MapKind) (key : UStr) (code : Int) :
    kind.normalizer icu key code = (kind.normalKey icu key).elim (.error code) .ok := by
  cases kind with
  | packet =>
    by_cases h : isValidName key true <;> simp [normalizer, normalKey, Icu.normalizeItemName, h]
  | table =>
    by_cases h : hasDisallowedChars key <;> simp [normalizer, normalKey, Icu.normalizeTableIndex, h]

end MapKind

/-- What a map starts from: the names of a new packet, or an empty table. -/
inductive MapStart where
  | packet (names : List UStr)
  | table

namespace MapStart

variable (icu : Icu)

def kind : MapStart → MapKind
  | packet _ => .packet
  | table => .table

def names : MapStart → List UStr
  | packet names => names
  | table => []

def map : MapStart → Except Int CifMap
  | packet names => CifMap.packetCreate icu names
  | table => .ok CifMap.tableInit

/-- The names a packet is made with in their normal form. -/
def normalNames (start : MapStart) : List UStr :=
  start.names.filter fun name => start.kind.normalKey icu name = some name

end MapStart

section Specification

/-- Normalised keys, each bound to the spelling last used for it and the value last set. -/
abbrev KeyDictionary := Dictionary UStr (UStr × Value)

variable (icu : Icu) (kind : MapKind)

def KeyDictionary.set (d : KeyDictionary) (key : UStr) (value : Value) : KeyDictionary :=
  match kind.normalKey icu key with
  | some k => d.insert k (key, value)
  | none => d

/-- What a call does to the dictionary, and what it answers. -/
def MapOp.specStep (d : KeyDictionary) : MapOp → MapAnswer × KeyDictionary
  | setItem key value =>
    match kind.normalKey icu key with
    | none => (.done (.error kind.setInvalidity), d)
    | some k => (.done (.ok ()), d.insert k (key, value.getD .unk))
  | getItem key => (.item (((kind.normalKey icu key).bind d.get).elim (.error Code.nosuchItem)
      fun a => .ok a.2), d)
  | removeItem key =>
    match kind.normalKey icu key with
    | none => (.item (.error Code.nosuchItem), d)
    | some k => (.item ((d.get k).elim (.error Code.nosuchItem) fun a => .ok a.2), d.erase k)
  | getKeys => (.keys (d.order.filterMap fun k => (d.get k).map (·.1)), d)

def MapOp.specRun (d : KeyDictionary) : List MapOp → List MapAnswer × KeyDictionary
  | [] => ([], d)
  | op :: ops =>
    let (answer, d) := op.specStep icu kind d
    let (answers, d) := specRun d ops
    (answer :: answers, d)

/-- A new packet binds each of its names to the unknown value, as if set in turn. -/
def MapStart.dictionary (start : MapStart) : KeyDictionary :=
  start.names.foldl (fun d name => d.set icu start.kind name .unk) Dictionary.empty

/-- The entries of the map, in order, are the bindings of the dictionary. -/
def CifMap.Represents (map : CifMap) (d : KeyDictionary) : Prop := d.Lists map.toPacket

/-- From this start, the calls are answered as by the dictionary, which the map then represents. -/
def IsAssociationList (stray : UStr → Bool) (start : MapStart) (ops : List MapOp) : Prop :=
  ∀ map, start.map icu = .ok map →
    (MapOp.run icu stray map ops).1
        = (MapOp.specRun icu start.kind (start.dictionary icu) ops).1
      ∧ (MapOp.run icu stray map ops).2.Represents
        (MapOp.specRun icu start.kind (start.dictionary icu) ops).2

/-- No call sets under another spelling a name the packet was made with in its normal form and still
has. -/
def KeepsSpelling : List UStr → List MapOp → Prop
  | _, [] => True
  | normal, .setItem key _ :: ops =>
    (∀ k ∈ normal, kind.normalKey icu key = some k → key = k) ∧ KeepsSpelling normal ops
  | normal, .removeItem key :: ops =>
    KeepsSpelling (normal.filter fun k => kind.normalKey icu key ≠ some k) ops
  | normal, .getItem _ :: ops => KeepsSpelling normal ops
  | normal, .getKeys :: ops => KeepsSpelling normal ops

instance decidableKeepsSpelling : (normal : List UStr) → (ops : List MapOp) →
    Decidable (KeepsSpelling icu kind normal ops)
  | _, [] => isTrue trivial
  | normal, .setItem key _ :: ops =>
    have := decidableKeepsSpelling normal ops
    inferInstanceAs (Decidable ((∀ k ∈ normal, kind.normalKey icu key = some k → key = k) ∧ _))
  | normal, .removeItem key :: ops =>
    decidableKeepsSpelling (normal.filter fun k => kind.normalKey icu key ≠ some k) ops
  | normal, .getItem _ :: ops => decidableKeepsSpelling normal ops
  | normal, .getKeys :: ops => decidableKeepsSpelling normal ops

end Specification

namespace CifMap

variable {icu : Icu} {stray : UStr → Bool} {map : CifMap} {d : KeyDictionary} {normal : List UStr}

/-- What every run keeps: no key in use is freed, and only names in `normal` share their string with
the key. -/
structure Sound (normal : List UStr) (map : CifMap) (d : KeyDictionary) : Prop where
  standalone : map.isStandalone = true
  live : ∀ entry ∈ map.entries, entry.freed = false
  shared : ∀ entry ∈ map.entries, entry.shared = true → entry.key ∈ normal
    ∧ entry.keyOrig = entry.key
  represents : map.Represents d

theorem hashFind_some {key : UStr} {i : Nat}
    (hfind : map.hashFind stray key = some i) :
    ∃ entry, map.entries[i]? = some entry ∧ entry.key = key := by
  have hany := List.find?_some hfind
  rw [Option.any_eq_true] at hany
  obtain ⟨entry, hentry, hmatch⟩ := hany
  refine ⟨entry, hentry, ?_⟩
  simp_all [matchesKey]

theorem hashFind_none (h : map.Sound normal d) {key : UStr}
    (hfind : map.hashFind stray key = none) : key ∉ d.order := by
  intro hmem
  obtain ⟨i, a, hi⟩ := h.represents.exists_of_mem hmem
  rw [toPacket, List.getElem?_map] at hi
  obtain ⟨entry, hentry, heq⟩ := Option.map_eq_some_iff.mp hi
  have hlive := h.live entry (List.mem_of_getElem? hentry)
  have hlt := (List.getElem?_eq_some_iff.mp hentry).1
  have hnone := List.find?_eq_none.mp hfind i (by simpa using hlt)
  simp_all [matchesKey]

theorem convertToStandalone_eq (h : map.isStandalone = true) :
    map.convertToStandalone = some map := by
  simp [convertToStandalone, h]

/-- The entry an operation leaves in place of the one at `i`. -/
theorem Sound.modify (h : map.Sound normal d) {i : Nat} {entry : Entry}
    (hi : map.entries[i]? = some entry) {f : Entry → Entry} {spelling : UStr} {value : Value}
    (hf : f entry = { entry with
      keyOrig := spelling, value, shared := (f entry).shared, freed := false })
    (hshared : (f entry).shared = true → entry.shared = true ∧ spelling = entry.key) :
    ({ map with entries := map.entries.modify i f } : CifMap).Sound normal
      (d.insert entry.key (spelling, value)) where
  standalone := h.standalone
  live := by
    intro e he
    rcases mem_modify hi he with rfl | hold
    · rw [hf]
    · exact h.live e hold
  shared := by
    intro e he hs
    rcases mem_modify hi he with rfl | hold
    · obtain ⟨hentry, hspelling⟩ := hshared hs
      rw [hf]
      exact ⟨(h.shared entry (List.mem_of_getElem? hi) hentry).1, hspelling⟩
    · exact h.shared e hold hs
  represents := by
    have hpair : map.toPacket[i]?
        = some (entry.key, entry.keyOrig, entry.value) := by
      rw [toPacket, List.getElem?_map, hi]
      rfl
    have hset := h.represents.set hpair (spelling, value)
    rw [Represents, toPacket, map_modify_eq_set hi]
    rwa [hf]

theorem Sound.append (h : map.Sound normal d) {entry : Entry} (hk : entry.key ∉ d.order)
    (hlive : entry.freed = false)
    (hshared : entry.shared = true → entry.key ∈ normal ∧ entry.keyOrig = entry.key) :
    ({ map with entries := map.entries ++ [entry] } : CifMap).Sound normal
      (d.insert entry.key (entry.keyOrig, entry.value)) where
  standalone := h.standalone
  live := by
    intro e he
    rcases List.mem_append.mp he with hold | hnew
    · exact h.live e hold
    · obtain rfl := List.mem_singleton.mp hnew
      exact hlive
  shared := by
    intro e he hs
    rcases List.mem_append.mp he with hold | hnew
    · exact h.shared e hold hs
    · obtain rfl := List.mem_singleton.mp hnew
      exact hshared hs
  represents := by
    have happ := h.represents.append hk (entry.keyOrig, entry.value)
    rw [Represents, toPacket, List.map_append]
    exact happ

theorem Sound.eraseIdx (h : map.Sound normal d) {i : Nat} {entry : Entry}
    (hi : map.entries[i]? = some entry) :
    ({ map with entries := map.entries.eraseIdx i } : CifMap).Sound
      (normal.filter (· ≠ entry.key)) (d.erase entry.key) := by
  have hpair : map.toPacket[i]?
      = some (entry.key, entry.keyOrig, entry.value) := by
    rw [toPacket, List.getElem?_map, hi]
    rfl
  refine ⟨h.standalone, ?_, ?_, ?_⟩
  · intro e he
    exact h.live e (List.mem_of_mem_eraseIdx he)
  · intro e he hs
    obtain ⟨hmem, horig⟩ := h.shared e (List.mem_of_mem_eraseIdx he) hs
    refine ⟨List.mem_filter.mpr ⟨hmem, ?_⟩, horig⟩
    -- the same key at another place would make two places with one key
    obtain ⟨j, hne, hj⟩ := List.mem_eraseIdx_iff_getElem?.mp he
    have hkey : e.key ≠ entry.key := by
      intro heq
      have hpair' : map.toPacket[j]?
          = some (entry.key, e.keyOrig, e.value) := by
        rw [toPacket, List.getElem?_map, hj, ← heq]
        rfl
      exact hne (h.represents.index_eq hpair' hpair)
    simpa using hkey
  · rw [Represents, toPacket, ← List.eraseIdx_map]
    exact h.represents.eraseIdx hpair

/-- A key that is not there is no longer one to keep the spelling of. -/
theorem Sound.forget (h : map.Sound normal d) {k : UStr} (hk : k ∉ d.order) :
    map.Sound (normal.filter (· ≠ k)) d where
  standalone := h.standalone
  live := h.live
  shared := by
    intro e he hs
    obtain ⟨hmem, horig⟩ := h.shared e he hs
    refine ⟨List.mem_filter.mpr ⟨hmem, ?_⟩, horig⟩
    have hkey : e.key ∈ d.order := by
      rw [← h.represents.keys]
      exact List.mem_map_of_mem (List.mem_map_of_mem he)
    have hne : e.key ≠ k := fun heq => hk (heq ▸ hkey)
    simpa using hne
  represents := h.represents

end CifMap

section Refinement

variable {icu : Icu} {stray : UStr → Bool} {map : CifMap} {d : KeyDictionary} {normal : List UStr}

theorem setItem_refines (stray : UStr → Bool) (h : map.Sound normal d) {key : UStr}
    (value : Option Value) (hspell : ∀ k ∈ normal, map.kind.normalKey icu key = some k → key = k) :
    (map.setItem icu stray key value).1 = ((map.kind.normalKey icu key).elim
        (.error map.kind.setInvalidity) fun _ => .ok ())
      ∧ (map.setItem icu stray key value).2.kind = map.kind
      ∧ (map.setItem icu stray key value).2.Sound normal
        (((map.kind.normalKey icu key)).elim d fun k => d.insert k (key, value.getD .unk)) := by
  unfold CifMap.setItem
  rw [MapKind.normalizer_eq]
  cases hkey : map.kind.normalKey icu key with
  | none => exact ⟨rfl, rfl, h⟩
  | some k =>
    simp only [Option.elim_some]
    cases hfind : map.hashFind stray k with
    | none =>
      simp only [CifMap.convertToStandalone_eq h.standalone]
      exact ⟨trivial, trivial, h.append (CifMap.hashFind_none h hfind) rfl (by simp)⟩
    | some i =>
      obtain ⟨entry, hentry, rfl⟩ := CifMap.hashFind_some hfind
      have hlive := h.live entry (List.mem_of_getElem? hentry)
      have hshared := h.shared entry (List.mem_of_getElem? hentry)
      by_cases hsame : entry.keyOrig = key
      · have hany : (map.entries[i]?).any (·.keyOrig = key) = true := by simp [hentry, hsame]
        simp only [hany, if_true]
        refine ⟨trivial, trivial, h.modify hentry ?_ ?_⟩
        · subst hsame
          simp [← hlive]
        · intro hs
          exact ⟨hs, hsame ▸ (hshared hs).2⟩
      · have hany : (map.entries[i]?).any (·.keyOrig = key) = false := by simp [hentry, hsame]
        have hown : entry.shared = false := by
          -- a shared name is still in its normal form, under which it is then set again
          by_contra hs
          obtain ⟨hmem, horig⟩ := hshared (by simpa using hs)
          exact hsame (horig.trans (hspell entry.key hmem hkey).symm)
        simp only [hany, Bool.false_eq_true, if_false, CifMap.convertToStandalone_eq h.standalone]
        refine ⟨trivial, trivial, h.modify hentry ?_ ?_⟩
        · simp [hlive, hown]
        · intro hs
          simp at hs

theorem retrieveItem_refines (stray : UStr → Bool) (h : map.Sound normal d) (key : UStr)
    (doRemove : Bool) :
    (map.retrieveItem icu stray key doRemove).1
        = (((map.kind.normalKey icu key).bind d.get).elim (.error Code.nosuchItem) fun a => .ok a.2)
      ∧ (map.retrieveItem icu stray key doRemove).2.kind = map.kind
      ∧ (doRemove = false → (map.retrieveItem icu stray key doRemove).2.Sound normal d)
      ∧ (doRemove = true → (map.retrieveItem icu stray key doRemove).2.Sound
          (normal.filter fun k => map.kind.normalKey icu key ≠ some k)
          ((map.kind.normalKey icu key).elim d fun k => d.erase k)) := by
  unfold CifMap.retrieveItem
  rw [MapKind.normalizer_eq]
  cases hkey : map.kind.normalKey icu key with
  | none =>
    refine ⟨rfl, rfl, fun _ => h, fun _ => ?_⟩
    simpa using h
  | some k =>
    have hnormal : (normal.filter fun k' => some k ≠ some k') = normal.filter (· ≠ k) := by
      refine List.filter_congr ?_
      intro k' _
      by_cases hk : k = k' <;> simp [hk, Ne.symm]
    simp only [Option.elim_some, Option.bind_some, hnormal]
    cases hfind : map.hashFind stray k with
    | none =>
      have habsent := CifMap.hashFind_none h hfind
      have hget := Dictionary.get_eq_none habsent
      refine ⟨by simp [hget], rfl, fun _ => h, fun _ => ?_⟩
      simp only [Option.bind_none, Dictionary.erase_of_notMem habsent]
      exact h.forget habsent
    | some i =>
      obtain ⟨entry, hentry, rfl⟩ := CifMap.hashFind_some hfind
      have hget : d.get entry.key = some (entry.keyOrig, entry.value) :=
        h.represents.bound _ (List.mem_map_of_mem (List.mem_of_getElem? hentry))
      simp only [Option.bind_some, hentry, Option.map_some]
      refine ⟨by simp [hget], ?_, ?_, ?_⟩
      · cases doRemove <;> rfl
      · rintro rfl
        exact h
      · rintro rfl
        exact h.eraseIdx hentry

theorem step_refines (stray : UStr → Bool) (h : map.Sound normal d) {op : MapOp} {ops : List MapOp}
    (hspell : KeepsSpelling icu map.kind normal (op :: ops)) :
    (op.step icu stray map).1 = (op.specStep icu map.kind d).1
      ∧ (op.step icu stray map).2.kind = map.kind
      ∧ ∃ normal', (op.step icu stray map).2.Sound normal' (op.specStep icu map.kind d).2
          ∧ KeepsSpelling icu map.kind normal' ops := by
  cases op with
  | setItem key value =>
    obtain ⟨hanswer, hkind, hsound⟩ := setItem_refines stray h value hspell.1
    refine ⟨?_, hkind, normal, ?_, hspell.2⟩
    · cases hkey : map.kind.normalKey icu key <;> simp_all [MapOp.step, MapOp.specStep]
    · cases hkey : map.kind.normalKey icu key <;> simp_all [MapOp.step, MapOp.specStep]
  | getItem key =>
    obtain ⟨hanswer, hkind, hsound, _⟩ := retrieveItem_refines stray h key false
    refine ⟨?_, hkind, normal, hsound rfl, hspell⟩
    simp [MapOp.step, MapOp.specStep, hanswer]
  | removeItem key =>
    obtain ⟨hanswer, hkind, _, hsound⟩ := retrieveItem_refines stray h key true
    refine ⟨?_, hkind, _, ?_, hspell⟩
    · cases hkey : map.kind.normalKey icu key <;> simp_all [MapOp.step, MapOp.specStep]
    · have hsound := hsound rfl
      cases hkey : map.kind.normalKey icu key <;> simp_all [MapOp.step, MapOp.specStep]
  | getKeys =>
    refine ⟨?_, rfl, normal, h, hspell⟩
    have hkeys : map.entries.map (·.keyOrig) = d.order.filterMap fun k => (d.get k).map (·.1) := by
      rw [← h.represents.keys, CifMap.toPacket, List.map_map, List.filterMap_map]
      refine (List.filterMap_eq_map_iff_forall_eq_some.mpr ?_).symm
      intro entry hentry
      have hget := h.represents.bound _ (List.mem_map_of_mem hentry)
      simp_all
    simp [MapOp.step, MapOp.specStep, CifMap.getKeys, hkeys]

theorem run_refines {ops : List MapOp} (h : map.Sound normal d)
    (hspell : KeepsSpelling icu map.kind normal ops) :
    (MapOp.run icu stray map ops).1 = (MapOp.specRun icu map.kind d ops).1
      ∧ (MapOp.run icu stray map ops).2.Represents (MapOp.specRun icu map.kind d ops).2 := by
  induction ops generalizing map d normal with
  | nil => exact ⟨rfl, h.represents⟩
  | cons op ops ih =>
    obtain ⟨hanswer, hkind, normal', hsound, hspell'⟩ := step_refines stray h hspell
    rw [← hkind] at hspell'
    obtain ⟨hanswers, hrep⟩ := ih hsound hspell'
    rw [hkind] at hanswers hrep
    simp only [MapOp.run, MapOp.specRun]
    exact ⟨by rw [hanswer, hanswers], hrep⟩

/-- The entries `cif_packet_create` adds for the names from some point on. -/
theorem zipWith_sound {names norms : List UStr} (h : map.Sound normal d)
    (hnorm : List.Forall₂ (fun name norm =>
      MapKind.packet.normalKey icu name = some norm) names norms)
    (hdistinct : norms.Nodup) (hnew : ∀ norm ∈ norms, norm ∉ d.order)
    (hnormal : ∀ name ∈ names, MapKind.packet.normalKey icu name = some name → name ∈ normal) :
    ({ map with entries := map.entries ++
        List.zipWith Entry.assignOrig (CifMap.createNorm norms false).entries names
          } : CifMap).Sound
      normal
      (names.foldl (fun d name => d.set icu .packet name .unk) d) := by
  induction hnorm generalizing map d with
  | nil => simpa [CifMap.createNorm] using h
  | @cons name norm names norms hname _ ih =>
    obtain ⟨hfirst, hdistinct⟩ := List.nodup_cons.mp hdistinct
    have hstep : ∀ entry : Entry, entry.key = norm → entry.keyOrig = name → entry.value = .unk →
        entry.freed = false → (entry.shared = true → name = norm) →
        ({ map with entries := map.entries ++ [entry] } : CifMap).Sound normal
          (d.set icu .packet name .unk) := by
      rintro entry rfl rfl hvalue hlive hshared
      have happ := h.append (hnew _ (by simp)) hlive (by
        intro hs
        have heq := hshared hs
        exact ⟨heq ▸ hnormal _ (by simp) (heq ▸ hname), heq⟩)
      simpa [KeyDictionary.set, hname, hvalue] using happ
    have hrest : ∀ k ∈ norms, k ∉ (d.set icu .packet name .unk).order := by
      intro k hk hmem
      have hold := hnew k (by simp [hk])
      have hne : k ≠ norm := fun heq => hfirst (heq ▸ hk)
      have hnorm := hnew norm (by simp)
      simp [KeyDictionary.set, hname, Dictionary.insert, hnorm, hold, hne] at hmem
    have hgo := fun entry h1 h2 h3 h4 h5 => ih (hstep entry h1 h2 h3 h4 h5) hdistinct hrest
      (fun n hn => hnormal n (by simp [hn]))
    by_cases hsame : name = norm
    · have hentry := hgo { key := norm, keyOrig := norm, value := .unk, shared := true } rfl
        hsame.symm rfl rfl (fun _ => hsame)
      simpa [CifMap.createNorm, Entry.assignOrig, hsame] using hentry
    · have hentry :=
        hgo { key := norm, keyOrig := name, value := .unk, shared := false } rfl rfl rfl
        rfl (by simp)
      simpa [CifMap.createNorm, Entry.assignOrig, hsame] using hentry

theorem forall₂_of_mapM {names norms : List UStr}
    (h : names.mapM (icu.normalizeItemName · Code.invalidItemname) = .ok norms) :
    List.Forall₂ (fun name norm => MapKind.packet.normalKey icu name = some norm) names norms := by
  refine (forall₂_of_mapM_eq_ok h).imp fun name norm hname => ?_
  have heq := MapKind.normalizer_eq icu .packet name Code.invalidItemname
  rw [MapKind.normalizer, hname] at heq
  cases hkey : MapKind.packet.normalKey icu name with
  | none =>
    rw [hkey] at heq
    cases heq
  | some norm' =>
    rw [hkey] at heq
    cases heq
    rfl

theorem start_sound {start : MapStart} (hstart : start.map icu = .ok map)
    (hdistinct : (start.names.map (start.kind.normalKey icu)).Nodup) :
    map.kind = start.kind ∧ map.Sound (start.normalNames icu) (start.dictionary icu) := by
  cases start with
  | table =>
    obtain rfl : CifMap.tableInit = map := by simpa [MapStart.map] using hstart
    exact ⟨rfl, rfl, by simp [CifMap.tableInit], by simp [CifMap.tableInit], Dictionary.Lists.empty⟩
  | packet names =>
    simp only [MapStart.map, CifMap.packetCreate] at hstart
    cases hnorms : names.mapM (icu.normalizeItemName · Code.invalidItemname) with
    | error e => simp [hnorms, bind, Except.bind] at hstart
    | ok norms =>
      have hforall := forall₂_of_mapM hnorms
      have hmap : names.map (MapKind.packet.normalKey icu) = norms.map some := by
        clear hdistinct hnorms hstart
        induction hforall with
        | nil => rfl
        | cons hname _ ih => simp [hname, ih]
      have hnodup : norms.Nodup := by
        have h : (norms.map some).Nodup := hmap ▸ hdistinct
        exact List.Nodup.of_map some h
      have hempty : (⟨.packet, true, []⟩ : CifMap).Sound
          ((MapStart.packet names).normalNames icu) Dictionary.empty :=
        ⟨rfl, by simp, by simp, Dictionary.Lists.empty⟩
      have hsound := zipWith_sound hempty hforall hnodup (by simp [Dictionary.empty]) (by
        intro name hname hkey
        simpa [MapStart.normalNames, MapStart.names, MapStart.kind, hkey] using hname)
      simp only [hnorms, bind, Except.bind, pure, Except.pure, Except.ok.injEq] at hstart
      subst hstart
      rw [List.nil_append] at hsound
      exact ⟨rfl, hsound⟩

theorem toPacket_packetCreate (names : List UStr) :
    (CifMap.packetCreate icu names).map CifMap.toPacket = Packet.create icu names := by
  have hmapM : Packet.create icu names
      = (names.mapM (icu.normalizeItemName · Code.invalidItemname)).map
        fun norms => List.zipWith (fun norm name => (norm, name, Value.unk)) norms names := by
    unfold Packet.create
    induction names with
    | nil => rfl
    | cons name names ih =>
      rw [List.mapM_cons, List.mapM_cons, ih]
      cases icu.normalizeItemName name Code.invalidItemname with
      | error e => rfl
      | ok norm =>
        cases names.mapM (icu.normalizeItemName · Code.invalidItemname) <;> rfl
  have hassign : ∀ norms : List UStr,
      (List.zipWith Entry.assignOrig (CifMap.createNorm norms false).entries names).map
          (fun entry => (entry.key, entry.keyOrig, entry.value))
        = List.zipWith (fun norm name => (norm, name, Value.unk)) norms names := by
    intro norms
    rw [CifMap.createNorm, List.zipWith_map_left, List.map_zipWith]
    congr
    funext norm name
    by_cases hsame : name = norm <;> simp [Entry.assignOrig, hsame]
  rw [hmapM, CifMap.packetCreate]
  cases names.mapM (icu.normalizeItemName · Code.invalidItemname) with
  | error e => rfl
  | ok norms =>
    have h := hassign norms
    exact congrArg Except.ok h

/-- A packet whose names are distinct, or a table, is an association list as long as no name that
the packet was made with in its normal form is set under another spelling. -/
theorem isAssociationList_of_keepsSpelling {start : MapStart} {ops : List MapOp}
    (hdistinct : (start.names.map (start.kind.normalKey icu)).Nodup)
    (hspell : KeepsSpelling icu start.kind (start.normalNames icu) ops) :
    IsAssociationList icu stray start ops := by
  intro map hstart
  obtain ⟨hkind, hsound⟩ := start_sound hstart hdistinct
  rw [← hkind] at hspell
  rw [← hkind]
  exact run_refines hsound hspell

/-- An entry made under one spelling, listed under another, removed, and made again. -/
theorem isAssociationList_keys :
    IsAssociationList Icu.ascii (fun _ => false) (.packet [units "_A", units "_b"])
      [.setItem (units "_a") none, .setItem (units "_b") (some .na), .removeItem (units "_B"),
        .setItem (units "_B") none, .getKeys] :=
  isAssociationList_of_keepsSpelling (by decide +kernel) (by decide +kernel)

end Refinement

/-- Two spellings of one name make two entries of a new packet. -/
theorem not_isAssociationList_of_duplicate :
    ¬ ∀ icu stray start ops, IsAssociationList icu stray start ops := by
  intro h
  have hkeys := h Icu.ascii (fun _ => false) (.packet [units "_a", units "_A"]) [.getKeys]
  obtain ⟨hanswers, _⟩ := hkeys _ rfl
  have hlength := congrArg (List.map fun
    | .keys keys => keys.length
    | _ => 0) hanswers
  revert hlength
  decide +kernel

/-- A name set under another spelling frees the key that its entry is found by. -/
example : let map := CifMap.createNorm [units "_a"] true
    let (_, map) := map.setItem Icu.ascii (fun _ => false) (units "_A") none
    (map.retrieveItem Icu.ascii (fun _ => false) (units "_a") false).1.toOption.isNone = true := by
  decide +kernel

end CifApi
