import CifApi.Data.Heap
import CifApi.Data.Nodes
import CifApi.Value.Map
import Mathlib.Data.List.Perm.Basic

/-! The strings that the keys of packets and tables are, and the calls that make and free them. All
maps that these calls make are standalone. -/
namespace CifApi

/-- The strings of an entry's key and of the key as given, which may be one, and the text that the
entry is hashed by. -/
structure KeyIds where
  key : Nat
  keyOrig : Nat
  hashed : UStr

/-- `cif_map_entry_clean_metadata_internal`: the strings freed with an entry. -/
def KeyIds.ids (entry : KeyIds) : List Nat :=
  if entry.key = entry.keyOrig then [entry.keyOrig] else [entry.key, entry.keyOrig]

/-- Values and packets, with the keys of their entries. -/
inductive Held where
  | single (value : Value)
  | list (elements : List Held)
  | map (kind : MapKind) (entries : List (KeyIds × Held))

/-- The live strings. -/
abbrev Strings := Heap UStr

namespace Held

mutual

/-- The keys of all entries in a value, with the kind of their maps. -/
def keys : Held → List (MapKind × KeyIds)
  | single _ => []
  | list elements => keysOfElements elements
  | map kind entries => keysOfEntries kind entries

def keysOfElements : List Held → List (MapKind × KeyIds)
  | [] => []
  | element :: rest => keys element ++ keysOfElements rest

def keysOfEntries (kind : MapKind) : List (KeyIds × Held) → List (MapKind × KeyIds)
  | [] => []
  | (ids, value) :: rest => (kind, ids) :: (keys value ++ keysOfEntries kind rest)

end

mutual

/-- `cif_value_clone`, which copies each key of a table. -/
def store : Value → Strings → Held × Strings
  | .list elements, strings =>
    let (elements, strings) := storeElements elements strings
    (list elements, strings)
  | .table entries, strings =>
    let (entries, strings) := storeEntries entries strings
    (map .table entries, strings)
  | value, strings => (single value, strings)

def storeElements : List Value → Strings → List Held × Strings
  | [], strings => ([], strings)
  | element :: rest, strings =>
    let (element, strings) := store element strings
    let (rest, strings) := storeElements rest strings
    (element :: rest, strings)

def storeEntries : List (UStr × UStr × Value) → Strings → List (KeyIds × Held) × Strings
  | [], strings => ([], strings)
  | (key, keyOrig, value) :: rest, strings =>
    let (keyId, strings) := strings.alloc key
    let (origId, strings) := strings.alloc keyOrig
    let (value, strings) := store value strings
    let (rest, strings) := storeEntries rest strings
    ((⟨keyId, origId, key⟩, value) :: rest, strings)

end

/-- `cif_value_clean`: the strings of all entries in the value are freed. -/
def release (value : Held) (strings : Strings) : Option Strings :=
  Heap.freeAll (value.keys.flatMap (·.2.ids)) strings

end Held

open Held

/-- `HASH_FIND` by what the entries are hashed by: hash buckets keep the entry added last in
front. -/
def findEntry (entries : List (KeyIds × Held)) (key : UStr) : Option Nat :=
  (List.range entries.length).reverse.find? fun i => (entries[i]?).any (·.1.hashed = key)

section Calls

variable (icu : Icu)

/-- The key as given of an entry is replaced by a copy of another spelling. -/
def respell (entry : KeyIds) (key : UStr) (strings : Strings) : Option (KeyIds × Strings) := do
  let orig ← strings.read entry.keyOrig
  if key = orig then some (entry, strings)
  else do
    let (copy, strings) := strings.alloc key
    let strings ← strings.free entry.keyOrig
    some ({ entry with keyOrig := copy }, strings)

/-- `cif_map_set_item`, with the code it answers; there is no result where it reads or frees what is
freed. -/
def setKeyed (kind : MapKind) (entries : List (KeyIds × Held)) (key : UStr) (value : Option Value)
    (strings : Strings) :
    Option (Int × List (KeyIds × Held) × Strings) :=
  match kind.normalizer icu key kind.setInvalidity with
  | .error code => some (code, entries, strings)
  | .ok keyNorm => do
    let (normId, strings) := strings.alloc keyNorm
    match findEntry entries keyNorm with
    | some i =>
      let (entry, old) ← entries[i]?
      let _ ← strings.read entry.key
      let (entry, strings) ← respell entry key strings
      let strings ← old.release strings
      let (new, strings) := store (value.getD .unk) strings
      let strings ← strings.free normId
      some (Code.ok, entries.set i (entry, new), strings)
    | none =>
      let (copy, strings) := strings.alloc key
      let (new, strings) := store (value.getD .unk) strings
      some (Code.ok, entries ++ [(⟨normId, copy, keyNorm⟩, new)], strings)

/-- `cif_map_retrieve_item` with removal: the value is given to the caller or freed. -/
def removeKeyed (kind : MapKind) (entries : List (KeyIds × Held)) (key : UStr) (keep : Bool)
    (strings : Strings) :
    Option (Int × List (KeyIds × Held) × List Held × Strings) :=
  match kind.normalizer icu key Code.nosuchItem with
  | .error code => some (code, entries, [], strings)
  | .ok keyNorm => do
    let (normId, strings) := strings.alloc keyNorm
    match findEntry entries keyNorm with
    | none =>
      let strings ← strings.free normId
      some (Code.nosuchItem, entries, [], strings)
    | some i =>
      let (entry, value) ← entries[i]?
      let _ ← strings.read entry.key
      let strings ← strings.free normId
      let strings ← Heap.freeAll entry.ids strings
      if keep then some (Code.ok, entries.eraseIdx i, [value], strings)
      else
        let strings ← value.release strings
        some (Code.ok, entries.eraseIdx i, [], strings)

/-- The entries of `cif_packet_create`, for the names with their normal forms. -/
def createKeyed : List (UStr × UStr) → Strings → List (KeyIds × Held) × Strings
  | [], strings => ([], strings)
  | (name, norm) :: rest, strings =>
    let (keyId, strings) := strings.alloc norm
    let (origId, strings) := if name = norm then (keyId, strings) else strings.alloc name
    let (rest, strings) := createKeyed rest strings
    ((⟨keyId, origId, norm⟩, single .unk) :: rest, strings)

/-- The temporary packet of `cif_pktitr_next_packet`, whose entries have one string for both
keys. -/
def tempKeyed : List (UStr × Value) → Strings → List (KeyIds × Held) × Strings
  | [], strings => ([], strings)
  | (name, value) :: rest, strings =>
    let (keyId, strings) := strings.alloc name
    let (value, strings) := store value strings
    let (rest, strings) := tempKeyed rest strings
    ((⟨keyId, keyId, name⟩, value) :: rest, strings)

/-- The first loop over an existing packet: its entries take over the values of those in the
temporary packet, or go. -/
def overwriteKeyed : List (KeyIds × Held) → List (KeyIds × Held) → Strings →
    Option (List (KeyIds × Held) × List (KeyIds × Held) × Strings)
  | [], temp, strings => some ([], temp, strings)
  | (target, old) :: targets, temp, strings => do
    let key ← strings.read target.key
    match findEntry temp key with
    | none =>
      let strings ← Heap.freeAll target.ids strings
      let strings ← old.release strings
      overwriteKeyed targets temp strings
    | some i =>
      let (entry, value) ← temp[i]?
      let _ ← strings.read entry.key
      let strings ← old.release strings
      let strings ← Heap.freeAll entry.ids strings
      let (kept, temp, strings) ← overwriteKeyed targets (temp.eraseIdx i) strings
      some ((target, value) :: kept, temp, strings)

/-- The second loop: entries moved get a string of their own for the key. -/
def moveKeyed : List (KeyIds × Held) → Strings → Option (List (KeyIds × Held) × Strings)
  | [], strings => some ([], strings)
  | (entry, value) :: rest, strings => do
    let key ← strings.read entry.key
    let (copy, strings) := strings.alloc key
    let (rest, strings) ← moveKeyed rest strings
    some (({ entry with key := copy }, value) :: rest, strings)

/-- `cif_pktitr_next_packet` into a packet, of names with their values. -/
def fillKeyed (entries : List (KeyIds × Held)) (items : List (UStr × Value)) (strings : Strings) :
    Option (List (KeyIds × Held) × Strings) := do
  let (temp, strings) := tempKeyed items strings
  let (kept, temp, strings) ← overwriteKeyed entries temp strings
  let (moved, strings) ← moveKeyed temp strings
  some (kept ++ moved, strings)

end Calls

/-- The keys of an entry are live, and the key is the normal form of the key as given. -/
def KeyIds.Live (icu : Icu) (strings : Strings) (entry : MapKind × KeyIds) : Prop :=
  ∃ keyOrig, strings.read entry.2.keyOrig = some keyOrig
    ∧ strings.read entry.2.key = some entry.2.hashed
    ∧ entry.1.normalKey icu keyOrig = some entry.2.hashed

/-- Loose strings with their texts, and keys of entries: all of them are live, and none has two
owners. -/
structure Sound (icu : Icu) (strings : Strings) (loose : List (Nat × UStr))
    (keys : List (MapKind × KeyIds)) : Prop where
  owns : strings.Owns (loose.map (·.1) ++ keys.flatMap (·.2.ids))
  texts : ∀ p ∈ loose, strings.read p.1 = some p.2
  live : ∀ entry ∈ keys, KeyIds.Live icu strings entry

namespace Sound

variable {icu : Icu} {strings : Strings} {loose loose' : List (Nat × UStr)}
  {keys keys' : List (MapKind × KeyIds)} {kind : MapKind} {entry : KeyIds} {p : Nat × UStr}

theorem empty : Sound icu Heap.empty [] [] := ⟨Heap.owns_empty, by simp, by simp⟩

theorem perm (h : Sound icu strings loose keys) (hloose : loose.Perm loose')
    (hkeys : keys.Perm keys') :
    Sound icu strings loose' keys' where
  owns := h.owns.perm ((hloose.map _).append (hkeys.flatMap_right _))
  texts := fun p hp => h.texts p (hloose.mem_iff.mpr hp)
  live := fun entry he => h.live entry (hkeys.mem_iff.mpr he)

theorem keyOrig_mem_ids (entry : KeyIds) : entry.keyOrig ∈ entry.ids := by
  rw [KeyIds.ids]
  split
  · exact List.mem_singleton_self _
  · exact List.mem_cons_of_mem _ (List.mem_singleton_self _)

theorem key_mem_ids (entry : KeyIds) : entry.key ∈ entry.ids := by
  rw [KeyIds.ids]
  split
  · rename_i heq
    exact List.mem_singleton.mpr heq
  · exact List.mem_cons_self ..

theorem live_of_agree {strings' : Strings} {key : MapKind × KeyIds}
    (hagree : Heap.Agree strings strings' key.2.ids) (h : KeyIds.Live icu strings key) :
    KeyIds.Live icu strings' key := by
  obtain ⟨keyOrig, horig, hkey, hnorm⟩ := h
  refine ⟨keyOrig, ?_, ?_, hnorm⟩
  · rw [hagree _ (keyOrig_mem_ids _), horig]
  · rw [hagree _ (key_mem_ids _), hkey]

/-- Strings that the heaps agree on stay as they are. -/
theorem of_agree {strings' : Strings} (h : Sound icu strings loose keys)
    (howns : strings'.Owns (loose.map (·.1) ++ keys.flatMap (·.2.ids)))
    (hagree : Heap.Agree strings strings' (loose.map (·.1) ++ keys.flatMap (·.2.ids))) :
    Sound icu strings' loose keys where
  owns := howns
  texts := by
    intro p hp
    rw [hagree _ (List.mem_append_left _ (List.mem_map_of_mem hp))]
    exact h.texts p hp
  live := by
    intro entry he
    refine live_of_agree (hagree.mono fun id hid => ?_) (h.live entry he)
    exact List.mem_append_right _ (List.mem_flatMap.mpr ⟨entry, he, hid⟩)

theorem alloc (h : Sound icu strings loose keys) (text : UStr) :
    Sound icu (strings.alloc text).2 (((strings.alloc text).1, text) :: loose) keys := by
  obtain ⟨howns, hagree⟩ := h.owns.alloc text
  have hrest :=
    h.of_agree ⟨(List.nodup_cons.mp howns.nodup).2,
    fun id hid => howns.live id (List.mem_cons_of_mem _ hid)⟩
    hagree
  refine ⟨howns, ?_, hrest.live⟩
  intro p hp
  rcases List.mem_cons.mp hp with rfl | hp
  · exact Heap.read_alloc strings text
  · exact hrest.texts p hp

/-- Loose strings can be freed. -/
theorem freeAll {ids : List Nat} (h : Sound icu strings (loose' ++ loose) keys)
    (hids : loose'.map (·.1) = ids) :
    ∃ strings', Heap.freeAll ids strings = some strings' ∧ Sound icu strings' loose keys := by
  have howns := h.owns
  rw [List.map_append, hids, List.append_assoc] at howns
  obtain ⟨strings', hfree, howns', hagree⟩ := howns.freeAll
  have hrest : Sound icu strings loose keys := by
    refine ⟨⟨?_, ?_⟩, fun p hp => h.texts p (List.mem_append_right _ hp), h.live⟩
    · exact (List.nodup_append.mp howns.nodup).2.1
    · exact fun id hid => howns.live id (List.mem_append_right _ hid)
  exact ⟨strings', hfree, hrest.of_agree howns' hagree⟩

/-- A string that nobody frees any more. -/
theorem drop (h : Sound icu strings (p :: loose) keys) : Sound icu strings loose keys := by
  have howns := h.owns
  rw [List.map_cons, List.cons_append] at howns
  refine ⟨⟨(List.nodup_cons.mp howns.nodup).2,
    fun id hid => howns.live id (List.mem_cons_of_mem _ hid)⟩, ?_, h.live⟩
  exact fun p hp => h.texts p (List.mem_cons_of_mem _ hp)

theorem free (h : Sound icu strings (p :: loose) keys) :
    ∃ strings', strings.free p.1 = some strings' ∧ Sound icu strings' loose keys := by
  obtain ⟨strings', hfree, hrest⟩ := @freeAll icu strings loose [p] keys [p.1] h rfl
  refine ⟨strings', ?_, hrest⟩
  obtain ⟨strings'', hfree, heq⟩ := Option.bind_eq_some_iff.mp hfree
  cases heq
  exact hfree

/-- The strings of an entry, apart. -/
theorem openEntry (h : Sound icu strings loose ((kind, entry) :: keys)) :
    ∃ orig, kind.normalKey icu orig = some entry.hashed
    ∧ strings.read entry.key = some entry.hashed ∧ strings.read entry.keyOrig = some orig
    ∧ Sound icu strings ((if entry.key = entry.keyOrig then [(entry.keyOrig, orig)]
      else [(entry.key, entry.hashed), (entry.keyOrig, orig)]) ++ loose) keys := by
  obtain ⟨orig, horig, hkey, hnorm⟩ := h.live _ (List.mem_cons_self ..)
  refine ⟨orig, hnorm, hkey, horig, ?_, ?_, fun e he => h.live e (List.mem_cons_of_mem _ he)⟩
  · refine h.owns.perm ?_
    have hids : (if entry.key = entry.keyOrig then [(entry.keyOrig, orig)]
        else [(entry.key, entry.hashed), (entry.keyOrig, orig)]).map (·.1) = entry.ids := by
      rw [KeyIds.ids]
      split
      · rfl
      · rfl
    rw [List.map_append, hids, List.flatMap_cons, ← List.append_assoc]
    exact List.perm_append_comm.append_right _
  · intro p hp
    rcases List.mem_append.mp hp with hp | hp
    · split at hp
      · obtain rfl := List.mem_singleton.mp hp
        exact horig
      · rcases List.mem_cons.mp hp with rfl | hp
        · exact hkey
        · obtain rfl := List.mem_singleton.mp hp
          exact horig
    · exact h.texts p hp

/-- Two strings make an entry. -/
theorem closeEntry {key keyOrig : Nat} {text orig : UStr}
    (h : Sound icu strings ((key, text) :: (keyOrig, orig) :: loose) keys)
    (hnorm : kind.normalKey icu orig = some text) :
    Sound icu strings loose ((kind, ⟨key, keyOrig, text⟩) :: keys) := by
  have hne : key ≠ keyOrig := by
    have hnodup := h.owns.nodup
    simp only [List.map_cons, List.cons_append, List.nodup_cons, List.mem_cons, not_or] at hnodup
    exact hnodup.1.1
  refine ⟨h.owns.perm ?_, fun p hp =>
    h.texts p (List.mem_cons_of_mem _ (List.mem_cons_of_mem _ hp)), ?_⟩
  · rw [List.flatMap_cons, KeyIds.ids, if_neg hne, ← List.append_assoc]
    exact (@List.perm_append_comm _ [key, keyOrig] _).append_right _
  · intro e he
    rcases List.mem_cons.mp he with rfl | he
    · exact ⟨orig, h.texts _ (List.mem_cons_of_mem _ (List.mem_cons_self ..)),
        h.texts _ (List.mem_cons_self ..), hnorm⟩
    · exact h.live e he

/-- One string that is its own normal form makes an entry. -/
theorem closeShared {key : Nat} {text : UStr} (h : Sound icu strings ((key, text) :: loose) keys)
    (hnorm : kind.normalKey icu text = some text) :
    Sound icu strings loose ((kind, ⟨key, key, text⟩) :: keys) := by
  refine ⟨h.owns.perm ?_, fun p hp => h.texts p (List.mem_cons_of_mem _ hp), ?_⟩
  · rw [List.flatMap_cons, KeyIds.ids, if_pos rfl, ← List.append_assoc]
    exact (@List.perm_append_comm _ [key] _).append_right _
  · intro e he
    rcases List.mem_cons.mp he with rfl | he
    · exact ⟨text, h.texts _ (List.mem_cons_self ..), h.texts _ (List.mem_cons_self ..), hnorm⟩
    · exact h.live e he

/-- Entries can be freed. -/
theorem release (h : Sound icu strings loose (keys' ++ keys)) :
    ∃ strings', Heap.freeAll (keys'.flatMap (·.2.ids)) strings = some strings'
      ∧ Sound icu strings' loose keys := by
  have howns := h.owns
  rw [List.flatMap_append] at howns
  obtain ⟨strings', hfree, howns', hagree⟩ :=
    (howns.perm (List.perm_append_comm_assoc _ _ _)).freeAll
  have hrest : Sound icu strings loose keys := by
    refine ⟨⟨?_, ?_⟩, h.texts, fun e he => h.live e (List.mem_append_right _ he)⟩
    · exact howns.nodup.sublist ((List.sublist_append_right _ _).append_left _)
    · intro id hid
      exact howns.live id (((List.sublist_append_right _ _).append_left _).subset hid)
  exact ⟨strings', hfree, hrest.of_agree howns' hagree⟩

theorem releaseEntry (h : Sound icu strings loose ((kind, entry) :: keys)) :
    ∃ strings', Heap.freeAll entry.ids strings = some strings' ∧ Sound icu strings' loose keys := by
  obtain ⟨strings', hfree, hrest⟩ := @release icu strings loose keys [(kind, entry)] h
  rw [List.flatMap_singleton] at hfree
  exact ⟨strings', hfree, hrest⟩

end Sound

/-- The keys of a table value are normal forms, as they are in every value that can be made. -/
inductive Value.WellKeyed (icu : Icu) : Value → Prop where
  | char (text : UStr) (quoted : Bool) : WellKeyed icu (.char text quoted)
  | numb (number : Numb) (quoted : Bool) : WellKeyed icu (.numb number quoted)
  | list {elements : List Value} (h : ∀ element ∈ elements, WellKeyed icu element) :
    WellKeyed icu (.list elements)
  | table {entries : List (UStr × UStr × Value)}
    (hkey : ∀ entry ∈ entries, MapKind.table.normalKey icu entry.2.1 = some entry.1)
    (h : ∀ entry ∈ entries, WellKeyed icu entry.2.2) : WellKeyed icu (.table entries)
  | na : WellKeyed icu .na
  | unk : WellKeyed icu .unk

section Store

variable {icu : Icu} {loose : List (Nat × UStr)}

mutual

/-- Storing a value frees no string. -/
theorem grows_store : ∀ (value : Value) (strings : Strings), strings.Grows (store value strings).2
  | .char _ _, strings => by simpa [store] using Heap.grows_refl strings
  | .numb _ _, strings => by simpa [store] using Heap.grows_refl strings
  | .na, strings => by simpa [store] using Heap.grows_refl strings
  | .unk, strings => by simpa [store] using Heap.grows_refl strings
  | .list elements, strings => by
    rw [store]
    exact grows_storeElements elements strings
  | .table entries, strings => by
    rw [store]
    exact grows_storeEntries entries strings

theorem grows_storeElements : ∀ (elements : List Value) (strings : Strings),
    strings.Grows (storeElements elements strings).2
  | [], strings => by
    rw [storeElements]
    exact Heap.grows_refl strings
  | element :: rest, strings => by
    rw [storeElements]
    exact (grows_store element strings).trans (grows_storeElements rest _)

theorem grows_storeEntries : ∀ (entries : List (UStr × UStr × Value)) (strings : Strings),
    strings.Grows (storeEntries entries strings).2
  | [], strings => by
    rw [storeEntries]
    exact Heap.grows_refl strings
  | (key, keyOrig, value) :: rest, strings => by
    rw [storeEntries]
    have hkeys := (strings.grows_alloc key).trans ((strings.alloc key).2.grows_alloc keyOrig)
    exact (hkeys.trans (grows_store value _)).trans (grows_storeEntries rest _)

end

theorem perm_exchange {α : Type} (x y : α) (a b c d e : List α) :
    (x :: (a ++ (b ++ y :: (c ++ (d ++ e))))).Perm (y :: (a ++ (b ++ (d ++ x :: (c ++ e))))) := by
  classical
  rw [List.perm_iff_count]
  intro z
  simp only [List.count_cons, List.count_append]
  omega

theorem perm_cons_apart {α : Type} (x : α) (a b c d : List α) :
    (a ++ (b ++ x :: (c ++ d))).Perm (x :: (c ++ a) ++ (b ++ d)) := by
  classical
  rw [List.perm_iff_count]
  intro z
  simp only [List.count_cons, List.count_append]
  omega

theorem perm_cons_middle {α : Type} (a b c : List α) (x : α) :
    (a ++ (b ++ x :: c)).Perm (x :: (b ++ a) ++ c) := by
  calc (a ++ (b ++ x :: c)).Perm (b ++ (a ++ x :: c)) := List.perm_append_comm_assoc a b _
    _ = (b ++ a) ++ x :: c := (List.append_assoc b a _).symm
    List.Perm _ (x :: ((b ++ a) ++ c)) := List.perm_middle

mutual

/-- A stored value has its keys to itself. -/
theorem sound_store :
    ∀ {value : Value} {strings : Strings} {others : List (MapKind × KeyIds)}, value.WellKeyed icu →
    Sound icu strings loose others →
      Sound icu (store value strings).2 loose ((store value strings).1.keys ++ others)
  | .char _ _, _, _, _, h => by simpa [store, keys] using h
  | .numb _ _, _, _, _, h => by simpa [store, keys] using h
  | .na, _, _, _, h => by simpa [store, keys] using h
  | .unk, _, _, _, h => by simpa [store, keys] using h
  | .list elements, strings, others, hkeyed, h => by
    cases hkeyed with
    | list hkeyed =>
      rw [store]
      exact sound_storeElements hkeyed h
  | .table entries, strings, others, hkeyed, h => by
    cases hkeyed with
    | table hkey hkeyed =>
      rw [store]
      exact sound_storeEntries hkey hkeyed h

theorem sound_storeElements :
    ∀ {elements : List Value} {strings : Strings} {others : List (MapKind × KeyIds)},
    (∀ element ∈ elements, Value.WellKeyed icu element) → Sound icu strings loose others →
    Sound icu (storeElements elements strings).2 loose
      (keysOfElements (storeElements elements strings).1 ++ others)
  | [], strings, others, _, h => by
    rw [storeElements, keysOfElements]
    exact h
  | element :: rest, strings, others, hkeyed, h => by
    have hfirst := sound_store (hkeyed _ (List.mem_cons_self ..)) h
    have hrest := sound_storeElements (fun e he => hkeyed e (List.mem_cons_of_mem _ he)) hfirst
    rw [storeElements, keysOfElements, List.append_assoc]
    exact hrest.perm (List.Perm.refl _) (List.perm_append_comm_assoc _ _ _)

theorem sound_storeEntries : ∀ {entries : List (UStr × UStr × Value)} {strings : Strings}
    {others : List (MapKind × KeyIds)},
      (∀ entry ∈ entries, MapKind.table.normalKey icu entry.2.1 = some entry.1) →
    (∀ entry ∈ entries, Value.WellKeyed icu entry.2.2) → Sound icu strings loose others →
    Sound icu (storeEntries entries strings).2 loose
      (keysOfEntries .table (storeEntries entries strings).1 ++ others)
  | [], strings, others, _, _, h => by
    rw [storeEntries, keysOfEntries]
    exact h
  | (key, keyOrig, value) :: rest, strings, others, hkey, hkeyed, h => by
    have hstrings := ((h.alloc key).alloc keyOrig).perm (List.Perm.swap _ _ _) (List.Perm.refl _)
    have hentry := hstrings.closeEntry (hkey _ (List.mem_cons_self ..))
    have hvalue := sound_store (hkeyed _ (List.mem_cons_self ..)) hentry
    have hrest := sound_storeEntries (fun e he => hkey e (List.mem_cons_of_mem _ he))
      (fun e he => hkeyed e (List.mem_cons_of_mem _ he)) hvalue
    rw [storeEntries, keysOfEntries]
    exact hrest.perm (List.Perm.refl _) (perm_cons_middle _ _ _ _)

end

end Store

section Entries

variable {kind : MapKind} {entries : List (KeyIds × Held)} {entry : KeyIds} {value : Held} {i : Nat}
  {key : UStr}

theorem findEntry_some (h : findEntry entries key = some i) :
    ∃ entry value, entries[i]? = some (entry, value) ∧ entry.hashed = key := by
  have hany := List.find?_some h
  rw [Option.any_eq_true] at hany
  obtain ⟨⟨entry, value⟩, hentry, hhashed⟩ := hany
  exact ⟨entry, value, hentry, of_decide_eq_true hhashed⟩

theorem keysOfEntries_eq (kind : MapKind) (entries : List (KeyIds × Held)) :
    keysOfEntries kind entries = entries.flatMap fun e => (kind, e.1) :: e.2.keys := by
  induction entries with
  | nil => rw [keysOfEntries, List.flatMap_nil]
  | cons e entries ih =>
    obtain ⟨entry, value⟩ := e
    rw [keysOfEntries, ih, List.flatMap_cons, List.cons_append]

theorem keysOfEntries_append (kind : MapKind) (entries entries' : List (KeyIds × Held)) :
    keysOfEntries kind (entries ++ entries')
      = keysOfEntries kind entries ++ keysOfEntries kind entries' := by
  rw [keysOfEntries_eq, keysOfEntries_eq, keysOfEntries_eq, List.flatMap_append]

/-- An entry's keys, those in its value and those of the other entries. -/
theorem perm_eraseIdx (h : entries[i]? = some (entry, value)) (others : List (MapKind × KeyIds)) :
    (keysOfEntries kind entries ++ others).Perm
      ((kind, entry) :: (value.keys ++ (keysOfEntries kind (entries.eraseIdx i) ++ others))) := by
  obtain ⟨hi, heq⟩ := List.getElem?_eq_some_iff.mp h
  have hperm := (List.getElem_cons_eraseIdx_perm hi).symm.flatMap_right fun e =>
    (kind, e.1) :: e.2.keys
  rw [heq, List.flatMap_cons] at hperm
  rw [keysOfEntries_eq, keysOfEntries_eq, ← List.append_assoc]
  exact hperm.append_right others

theorem perm_set (hi : i < entries.length) (kind : MapKind) (entry : KeyIds) (value : Held)
    (others : List (MapKind × KeyIds)) :
    (keysOfEntries kind (entries.set i (entry, value)) ++ others).Perm
      ((kind, entry) :: (value.keys ++ (keysOfEntries kind (entries.eraseIdx i) ++ others))) := by
  have hperm := (List.set_perm_cons_eraseIdx hi (entry, value)).flatMap_right fun e =>
    (kind, e.1) :: e.2.keys
  rw [List.flatMap_cons] at hperm
  rw [keysOfEntries_eq, keysOfEntries_eq, ← List.append_assoc]
  exact hperm.append_right others

theorem perm_concat (kind : MapKind) (entries : List (KeyIds × Held)) (entry : KeyIds)
    (value : Held) (others : List (MapKind × KeyIds)) :
    (keysOfEntries kind (entries ++ [(entry, value)]) ++ others).Perm
      ((kind, entry) :: (value.keys ++ (keysOfEntries kind entries ++ others))) := by
  rw [keysOfEntries_append, keysOfEntries, keysOfEntries, List.append_nil, List.append_assoc,
    List.cons_append]
  exact List.perm_middle.trans ((List.perm_append_comm_assoc _ _ _).cons _)

end Entries

section Calls

variable {icu : Icu} {kind : MapKind} {entries : List (KeyIds × Held)} {key : UStr}
  {strings : Strings} {loose : List (Nat × UStr)} {others : List (MapKind × KeyIds)}

/-- Another spelling of a key that has two strings, or that is spelled the same. -/
theorem respell_spec {entry : KeyIds} (h : Sound icu strings loose ((kind, entry) :: others))
    (hnorm : kind.normalKey icu key = some entry.hashed)
    (hspares : entry.key = entry.keyOrig → strings.read entry.keyOrig = some key) :
    ∃ entry' strings', respell entry key strings = some (entry', strings')
      ∧ Sound icu strings' loose ((kind, entry') :: others) := by
  obtain ⟨orig, -, hkey, horig, hopen⟩ := h.openEntry
  by_cases hsame : key = orig
  · refine ⟨entry, strings, ?_, h⟩
    rw [respell, horig]
    exact if_pos hsame
  · have hne : entry.key ≠ entry.keyOrig := by
      intro heq
      rw [hspares heq] at horig
      exact hsame (Option.some.inj horig)
    rw [if_neg hne] at hopen
    have hcopied := (hopen.alloc key).perm (@List.perm_middle _ _ [_, _] _) (List.Perm.refl _)
    obtain ⟨strings', hfree, hfreed⟩ := hcopied.free
    refine ⟨_, strings', ?_,
      (hfreed.perm (List.Perm.swap _ _ _) (List.Perm.refl _)).closeEntry hnorm⟩
    rw [respell, horig]
    show (if key = orig then some (entry, strings)
      else ((strings.alloc key).2.free entry.keyOrig).bind fun freed =>
        some ({ entry with keyOrig := (strings.alloc key).1 }, freed)) = _
    rw [if_neg hsame, hfree]
    rfl

/-- An entry that the key is found for and whose keys are one string is named as it is spelled. -/
def Spares (icu : Icu) (strings : Strings) (kind : MapKind) (entries : List (KeyIds × Held))
    (key : UStr) : Prop :=
  ∀ norm i entry value, kind.normalKey icu key = some norm → findEntry entries norm = some i →
    entries[i]? = some (entry, value) → entry.key = entry.keyOrig →
      strings.read entry.keyOrig = some key

theorem read_keyOrig_alloc {entry : KeyIds} (h : Sound icu strings loose ((kind, entry) :: others))
    (text : UStr) :
    (strings.alloc text).2.read entry.keyOrig = strings.read entry.keyOrig := by
  refine (h.owns.alloc text).2 _
    (List.mem_append_right _ (List.mem_flatMap.mpr ⟨_, List.mem_cons_self .., ?_⟩))
  exact Sound.keyOrig_mem_ids entry

/-- An item is set: its entry has live keys after, and every other entry as before. -/
theorem setKeyed_spec {value : Option Value}
    (h : Sound icu strings loose (keysOfEntries kind entries ++ others))
    (hvalue : (value.getD .unk).WellKeyed icu) (hspares : Spares icu strings kind entries key) :
    ∃ code entries' strings', setKeyed icu kind entries key value strings
      = some (code, entries', strings')
      ∧ Sound icu strings' loose (keysOfEntries kind entries' ++ others) := by
  rw [setKeyed, MapKind.normalizer_eq]
  cases hnorm : kind.normalKey icu key with
  | none => exact ⟨_, entries, strings, rfl, h⟩
  | some norm =>
    have hnormed := h.alloc norm
    cases hfind : findEntry entries norm with
    | none =>
      have hadded :=
        ((hnormed.alloc key).perm (List.Perm.swap _ _ _) (List.Perm.refl _)).closeEntry hnorm
      let copied := (strings.alloc norm).2.alloc key
      refine ⟨Code.ok,
        entries ++ [(⟨(strings.alloc norm).1, copied.1, norm⟩,
        (store (value.getD .unk) copied.2).1)], _, ?_,
        (sound_store hvalue hadded).perm (List.Perm.refl _) ?_⟩
      · simp only [Option.elim_some, hfind]
        rfl
      · exact List.perm_middle.trans (perm_concat ..).symm
    | some i =>
      obtain ⟨entry, old, hentry, hhashed⟩ := findEntry_some hfind
      have hopened := h.perm (List.Perm.refl _) (perm_eraseIdx hentry others)
      have hcopied := hnormed.perm (List.Perm.refl _) (perm_eraseIdx hentry others)
      obtain ⟨-, -, hkey, -⟩ := hcopied.openEntry
      have hspares' : entry.key = entry.keyOrig →
          (strings.alloc norm).2.read entry.keyOrig = some key := by
        intro hshared
        rw [read_keyOrig_alloc hopened]
        exact hspares norm i entry old hnorm hfind hentry hshared
      obtain ⟨entry', strings₁, hrespell, hrespelled⟩ :=
        respell_spec hcopied (hhashed ▸ hnorm) hspares'
      obtain ⟨strings₂, hrelease, hreleased⟩ :=
        (hrespelled.perm (List.Perm.refl _) List.perm_middle.symm).release
      obtain ⟨strings₃, hfree, hfreed⟩ := (sound_store hvalue hreleased).free
      refine ⟨Code.ok, entries.set i (entry', (store (value.getD .unk) strings₂).1), strings₃, ?_,
        hfreed.perm (List.Perm.refl _) ?_⟩
      · simp only [Option.elim_some, hfind, hentry, hkey, hrespell, Held.release, hrelease, hfree,
          Option.bind_eq_bind, Option.bind_some]
      · exact List.perm_middle.trans
          (perm_set (List.getElem?_eq_some_iff.mp hentry).1 kind entry' _ others).symm

/-- Otherwise, the string that is the key and the key as given is freed with the entry left in the
map. -/
theorem setKeyed_freed {value : Option Value}
    (h : Sound icu strings loose (keysOfEntries kind entries ++ others))
    (hspares : ¬ Spares icu strings kind entries key) {code : Int} {entries' : List (KeyIds × Held)}
    {strings' : Strings}
    (hset : setKeyed icu kind entries key value strings = some (code, entries', strings')) :
    ∃ entry ∈ entries', strings'.Freed entry.1.key := by
  simp only [Spares, not_forall] at hspares
  obtain ⟨norm, i, entry, old, hnorm, hfind, hentry, hshared, hne⟩ := hspares
  have hopened := (h.alloc norm).perm (List.Perm.refl _) (perm_eraseIdx hentry others)
  obtain ⟨orig, -, hkey, horig, -⟩ := hopened.openEntry
  have hdifferent : key ≠ orig := by
    rintro rfl
    rw [read_keyOrig_alloc (h.perm (List.Perm.refl _) (perm_eraseIdx hentry others))] at horig
    exact hne horig
  rw [setKeyed, MapKind.normalizer_eq, hnorm] at hset
  simp only [Option.elim_some, hfind, hentry, hkey, respell, horig, if_neg hdifferent,
    Option.bind_eq_bind, Option.bind_some] at hset
  obtain ⟨⟨entry', strings₁⟩, hrespell, hset⟩ := Option.bind_eq_some_iff.mp hset
  obtain ⟨strings₀, hfree, hentry'⟩ := Option.bind_eq_some_iff.mp hrespell
  cases hentry'
  obtain ⟨strings₂, hrelease, hset⟩ := Option.bind_eq_some_iff.mp hset
  obtain ⟨strings₃, hnormed, hset⟩ := Option.bind_eq_some_iff.mp hset
  cases hset
  refine ⟨_, List.mem_set (List.getElem?_eq_some_iff.mp hentry).1 _, ?_⟩
  show Heap.Freed _ entry.key
  rw [hshared]
  exact (((Heap.freed_free hfree).freeAll hrelease).grows (grows_store _ _)).free hnormed

/-- An item is removed: no key of its entry is left, and those in a value that is given out still
are. -/
theorem removeKeyed_spec (key : UStr) (keep : Bool)
    (h : Sound icu strings loose (keysOfEntries kind entries ++ others)) :
    ∃ code entries' values strings', removeKeyed icu kind entries key keep strings
      = some (code, entries', values, strings')
      ∧ Sound icu strings' loose (keysOfElements values
        ++ (keysOfEntries kind entries' ++ others)) := by
  rw [removeKeyed, MapKind.normalizer_eq]
  cases hnorm : kind.normalKey icu key with
  | none => exact ⟨_, entries, [], strings, rfl, h⟩
  | some norm =>
    have hnormed := h.alloc norm
    cases hfind : findEntry entries norm with
    | none =>
      obtain ⟨strings', hfree, hfreed⟩ := hnormed.free
      refine ⟨Code.nosuchItem, entries, [], strings', ?_, hfreed⟩
      simp only [Option.elim_some, hfind, hfree, Option.bind_eq_bind, Option.bind_some]
    | some i =>
      obtain ⟨entry, value, hentry, -⟩ := findEntry_some hfind
      have hopened := hnormed.perm (List.Perm.refl _) (perm_eraseIdx hentry others)
      obtain ⟨-, -, hkey, -⟩ := hopened.openEntry
      obtain ⟨strings₁, hfree, hfreed⟩ := hopened.free
      obtain ⟨strings₂, hclean, hcleaned⟩ := hfreed.releaseEntry
      cases keep with
      | true =>
        refine ⟨Code.ok, entries.eraseIdx i, [value], strings₂, ?_, ?_⟩
        · simp only [Option.elim_some, hfind, hentry, hkey, hfree, hclean, Option.bind_eq_bind,
            Option.bind_some, if_true]
        · rw [keysOfElements, keysOfElements, List.append_nil]
          exact hcleaned
      | false =>
        obtain ⟨strings₃, hrelease, hreleased⟩ := hcleaned.release
        refine ⟨Code.ok, entries.eraseIdx i, [], strings₃, ?_, hreleased⟩
        simp only [Option.elim_some, hfind, hentry, hkey, hfree, hclean, Held.release, hrelease,
          Option.bind_eq_bind, Option.bind_some]
        rfl

/-- A new packet's entries have one string or two. -/
theorem createKeyed_spec (names : List (UStr × UStr))
    (hnorm : ∀ p ∈ names, kind.normalKey icu p.1 = some p.2) (h : Sound icu strings loose others) :
    Sound icu (createKeyed names strings).2 loose (keysOfEntries kind (createKeyed names strings).1
      ++ others) := by
  induction names generalizing strings others with
  | nil => exact h
  | cons p names ih =>
    obtain ⟨name, norm⟩ := p
    have hname := hnorm _ (List.mem_cons_self ..)
    have hnorm' := fun p hp => hnorm p (List.mem_cons_of_mem _ hp)
    by_cases hsame : name = norm
    · subst hsame
      have hrest := ih hnorm' ((h.alloc name).closeShared hname)
      rw [createKeyed]
      simp only [if_true]
      exact hrest.perm (List.Perm.refl _) List.perm_middle
    · have hrest :=
        ih hnorm'
        ((((h.alloc norm).alloc name).perm (List.Perm.swap _ _ _) (List.Perm.refl _)).closeEntry
        hname)
      rw [createKeyed]
      simp only [hsame, if_false]
      exact hrest.perm (List.Perm.refl _) List.perm_middle

/-- The entries of a packet that is read have one string. -/
theorem tempKeyed_spec (items : List (UStr × Value))
    (hnorm : ∀ p ∈ items, kind.normalKey icu p.1 = some p.1)
    (hkeyed : ∀ p ∈ items, p.2.WellKeyed icu) (h : Sound icu strings loose others) :
    Sound icu (tempKeyed items strings).2 loose (keysOfEntries kind (tempKeyed items strings).1
      ++ others) := by
  induction items generalizing strings others with
  | nil => exact h
  | cons p items ih =>
    obtain ⟨name, value⟩ := p
    have hentry := (h.alloc name).closeShared (hnorm _ (List.mem_cons_self ..))
    have hvalue := sound_store (hkeyed _ (List.mem_cons_self ..)) hentry
    have hrest :=
      ih (fun p hp => hnorm p (List.mem_cons_of_mem _ hp)) (fun p hp =>
        hkeyed p (List.mem_cons_of_mem _ hp))
      hvalue
    rw [tempKeyed, keysOfEntries]
    exact hrest.perm (List.Perm.refl _) (perm_cons_middle _ _ _ _)

/-- The entries of a packet that is read over have the keys they had. -/
theorem overwriteKeyed_spec (targets temp : List (KeyIds × Held))
    (h : Sound icu strings loose (keysOfEntries kind targets
      ++ (keysOfEntries kind temp ++ others))) :
    ∃ kept temp' strings', overwriteKeyed targets temp strings = some (kept, temp', strings')
      ∧ Sound icu strings' loose (keysOfEntries kind kept
        ++ (keysOfEntries kind temp' ++ others)) := by
  induction targets generalizing temp strings others with
  | nil => exact ⟨[], temp, strings, rfl, h⟩
  | cons e targets ih =>
    obtain ⟨target, old⟩ := e
    rw [keysOfEntries, List.cons_append, List.append_assoc] at h
    obtain ⟨-, -, hkey, -⟩ := h.openEntry
    cases hfind : findEntry temp target.hashed with
    | none =>
      obtain ⟨strings₁, hclean, hcleaned⟩ := h.releaseEntry
      obtain ⟨strings₂, hrelease, hreleased⟩ := hcleaned.release
      obtain ⟨kept, temp', strings', hrest, hsound⟩ := ih temp hreleased
      refine ⟨kept, temp', strings', ?_, hsound⟩
      simp only [overwriteKeyed, hkey, hfind, hclean, Held.release, hrelease, hrest,
        Option.bind_eq_bind, Option.bind_some]
    | some i =>
      obtain ⟨entry, value, hentry, -⟩ := findEntry_some hfind
      have hopened :=
        h.perm (List.Perm.refl _)
        ((((perm_eraseIdx hentry others).append_left _).append_left _).cons _)
      have htaken := hopened.perm (List.Perm.refl _) (perm_exchange ..)
      obtain ⟨-, -, hfound, -⟩ := htaken.openEntry
      obtain ⟨strings₁, hrelease, hreleased⟩ :=
        (htaken.perm (List.Perm.refl _) List.perm_middle.symm).release
      obtain ⟨strings₂, hclean, hcleaned⟩ := hreleased.releaseEntry
      obtain ⟨kept, temp', strings', hrest, hsound⟩ := ih (temp.eraseIdx i) hcleaned
      refine ⟨(target, value) :: kept, temp', strings', ?_, hsound.perm (List.Perm.refl _) ?_⟩
      · simp only [overwriteKeyed, hkey, hfind, hentry, hfound, Held.release, hrelease, hclean,
          hrest, Option.bind_eq_bind, Option.bind_some]
      · rw [keysOfEntries]
        exact perm_cons_apart ..

/-- Entries that are moved get a string of their own for the key. -/
theorem moveKeyed_spec (temp : List (KeyIds × Held))
    (h : Sound icu strings loose (keysOfEntries kind temp ++ others)) :
    ∃ moved strings', moveKeyed temp strings = some (moved, strings')
      ∧ Sound icu strings' loose (keysOfEntries kind moved ++ others) := by
  induction temp generalizing strings others with
  | nil => exact ⟨[], strings, rfl, h⟩
  | cons e temp ih =>
    obtain ⟨entry, value⟩ := e
    obtain ⟨orig, hnorm, hkey, -, hopened⟩ := h.openEntry
    have hloose : Sound icu strings ((entry.keyOrig, orig) :: loose)
        (value.keys ++ keysOfEntries kind temp ++ others) := by
      split at hopened
      · exact hopened
      · exact hopened.drop
    have hmade := (hloose.alloc entry.hashed).closeEntry hnorm
    obtain ⟨moved, strings', hmove, hsound⟩ :=
      ih (hmade.perm (List.Perm.refl _) (perm_cons_middle ..).symm)
    refine ⟨({ entry with key := (strings.alloc entry.hashed).1 }, value) :: moved, strings', ?_,
      hsound.perm (List.Perm.refl _) (perm_cons_middle ..)⟩
    simp only [moveKeyed, hkey, hmove, Option.bind_eq_bind, Option.bind_some]

/-- A packet is read over another. -/
theorem fillKeyed_spec (items : List (UStr × Value))
    (hnorm : ∀ p ∈ items, kind.normalKey icu p.1 = some p.1)
    (hkeyed : ∀ p ∈ items, p.2.WellKeyed icu)
    (h : Sound icu strings loose (keysOfEntries kind entries ++ others)) :
    ∃ entries' strings', fillKeyed entries items strings = some (entries', strings')
      ∧ Sound icu strings' loose (keysOfEntries kind entries' ++ others) := by
  have htemp :=
    (tempKeyed_spec items hnorm hkeyed h).perm (List.Perm.refl _)
    (List.perm_append_comm_assoc _ _ _)
  obtain ⟨kept, temp, strings₁, hover, hkept⟩ := overwriteKeyed_spec entries _ htemp
  obtain ⟨moved, strings₂, hmove, hmoved⟩ := moveKeyed_spec temp
    (hkept.perm (List.Perm.refl _) (List.perm_append_comm_assoc _ _ _))
  refine ⟨kept ++ moved, strings₂, ?_, hmoved.perm (List.Perm.refl _) ?_⟩
  · simp only [fillKeyed, hover, hmove, Option.bind_eq_bind, Option.bind_some]
  · rw [keysOfEntries_append, List.append_assoc]
    exact List.perm_append_comm_assoc _ _ _

end Calls

namespace Held

/-- The elements of a list, or the values of a map. -/
def parts : Held → List Held
  | list elements => elements
  | map _ entries => entries.map (·.2)
  | single _ => []

def replacePart : Held → Nat → Held → Held
  | list elements, i, part => list (elements.set i part)
  | map kind entries, i, part => map kind (entries.modify i fun e => (e.1, part))
  | single value, _, _ => single value

theorem parts_replacePart (value part : Held) (i : Nat) :
    (value.replacePart i part).parts = value.parts.set i part := by
  cases value with
  | single => rfl
  | list elements => rfl
  | map kind entries =>
    exact Nodes.map_modify_part (fun _ _ => rfl) entries i part

theorem replacePart_part {value part : Held} {i : Nat} (h : value.parts[i]? = some part) :
    value.replacePart i part = value := by
  cases value with
  | single => rfl
  | list elements =>
    obtain ⟨hi, rfl⟩ := List.getElem?_eq_some_iff.mp h
    exact congrArg list (List.set_getElem_self _)
  | map kind entries =>
    show map kind _ = map kind _
    rw [Nodes.modify_part (fun _ => rfl) h]

instance : Nodes Held where
  child value i := value.parts[i]?
  replace := replacePart
  child_replace_self := by
    intro value part i part' h
    obtain ⟨hi, -⟩ := List.getElem?_eq_some_iff.mp h
    rw [parts_replacePart, List.getElem?_set_self hi]
  child_replace_of_ne := by
    intro i j value part hij
    rw [parts_replacePart, List.getElem?_set_ne hij]
  replace_child := replacePart_part
  replace_replace := by
    intro value part part' i
    cases value with
    | single => rfl
    | list elements => simp [replacePart]
    | map kind entries => simp [replacePart, List.modify_modify_eq, Function.comp_def]

end Held

/-- A value that can be made. -/
abbrev KeyedValue (icu : Icu) := {value : Value // value.WellKeyed icu}

/-- An item name that is its own normal form, as those kept for a packet iterator are. -/
abbrev NormalName (icu : Icu) := {name : UStr // MapKind.packet.normalKey icu name = some name}

/-- Packets and values in the hands of the caller, and the live strings. -/
structure KeyState where
  objects : List Held
  strings : Strings

/-- Calls that make, change and free packets and values; a map in an object is found by a path. -/
inductive KeyOp (icu : Icu) where
  | packetCreate (names : List UStr)
  | makeValue (value : KeyedValue icu)
  | setItem (object : Nat) (path : List Nat) (key : UStr) (value : Option (KeyedValue icu))
  | removeItem (object : Nat) (path : List Nat) (key : UStr) (keep : Bool)
  | nextPacket (object : Option Nat) (items : List (NormalName icu × KeyedValue icu))
  | freeObject (object : Nat)

namespace KeyState

variable (icu : Icu)

def empty : KeyState := ⟨[], Heap.empty⟩

def keys (state : KeyState) : List (MapKind × KeyIds) := keysOfElements state.objects

/-- The map that a path leads to, with its entries. -/
def mapAt (state : KeyState) (object : Nat) (path : List Nat) :
    Option (MapKind × List (KeyIds × Held)) :=
  match (state.objects[object]?).bind (Nodes.get · path) with
  | some (.map kind entries) => some (kind, entries)
  | _ => none

/-- Other entries for a map, values for the caller and other strings. -/
def replaceAt (state : KeyState) (object : Nat) (path : List Nat) (kind : MapKind)
    (entries : List (KeyIds × Held)) (given : List Held) (strings : Strings) : KeyState :=
  ⟨given ++ state.objects.modify object (Nodes.put · path (.map kind entries)), strings⟩

/-- A call's effect; there is no result where what is freed is read or freed again. -/
def step (state : KeyState) : KeyOp icu → Option KeyState
  | .packetCreate names =>
    match names.mapM fun name => (MapKind.packet.normalKey icu name).map (name, ·) with
    | none => some state
    | some names =>
      let (entries, strings) := createKeyed names state.strings
      some ⟨.map .packet entries :: state.objects, strings⟩
  | .makeValue value =>
    let (value, strings) := store value state.strings
    some ⟨value :: state.objects, strings⟩
  | .setItem object path key value =>
    match state.mapAt object path with
    | none => some state
    | some (kind, entries) => do
      let (_, entries, strings) ← setKeyed icu kind entries key (value.map Subtype.val)
          state.strings
      some (state.replaceAt object path kind entries [] strings)
  | .removeItem object path key keep =>
    match state.mapAt object path with
    | none => some state
    | some (kind, entries) => do
      let (_, entries, given, strings) ← removeKeyed icu kind entries key keep state.strings
      some (state.replaceAt object path kind entries given strings)
  | .nextPacket object items =>
    let items := items.map fun item => (item.1.val, item.2.val)
    match object with
    | none =>
      let (entries, strings) := tempKeyed items state.strings
      some ⟨.map .packet entries :: state.objects, strings⟩
    | some object =>
      match state.mapAt object [] with
      | some (.packet, entries) => do
        let (entries, strings) ← fillKeyed entries items state.strings
        some (state.replaceAt object [] .packet entries [] strings)
      | _ => some state
  | .freeObject object =>
    match state.objects[object]? with
    | none => some state
    | some value => do
      let strings ← value.release state.strings
      some ⟨state.objects.eraseIdx object, strings⟩

def run (state : KeyState) (ops : List (KeyOp icu)) : Option KeyState := ops.foldlM (step icu) state

/-- An item that is set is named as its entry is spelled, if the entry's keys are one string. -/
def Spares (state : KeyState) : KeyOp icu → Prop
  | .setItem object path key _ =>
    ∀ kind entries, state.mapAt object path = some (kind, entries) →
      CifApi.Spares icu state.strings kind entries key
  | _ => True

def SparesAll : KeyState → List (KeyOp icu) → Prop
  | _, [] => True
  | state, op :: ops => state.Spares icu op ∧ ∀ state', state.step icu op = some state' →
    SparesAll state' ops

end KeyState

/-- In every state that the calls lead through, the keys of all entries are live, with one the
normal form of the other; nothing is freed twice, and nothing freed is read. -/
def OwnsLiveKeys (icu : Icu) (ops : List (KeyOp icu)) : Prop :=
  ∀ done, done <+: ops → ∃ state, KeyState.empty.run icu done = some state
    ∧ ∀ entry ∈ state.keys, KeyIds.Live icu state.strings entry

section Runs

variable {icu : Icu} {state state' : KeyState} {object : Nat} {path : List Nat} {kind : MapKind}
  {entries : List (KeyIds × Held)} {op : KeyOp icu} {ops : List (KeyOp icu)}

theorem keysOfElements_append (elements elements' : List Held) :
    keysOfElements (elements ++ elements')
      = keysOfElements elements ++ keysOfElements elements' := by
  induction elements with
  | nil => rfl
  | cons element elements ih =>
    rw [List.cons_append, keysOfElements, keysOfElements, ih, List.append_assoc]

/-- The keys below a part are listed together. -/
theorem keys_replacePart {value part : Held} {i : Nat} (h : value.parts[i]? = some part) :
    ∃ before after, ∀ b : Held, (value.replacePart i b).keys = before ++ (b.keys ++ after) := by
  cases value with
  | single => cases h
  | list elements =>
    obtain ⟨hi, -⟩ := List.getElem?_eq_some_iff.mp h
    refine ⟨keysOfElements (elements.take i), keysOfElements (elements.drop (i + 1)), fun b => ?_⟩
    rw [Held.replacePart, Held.keys]
    show keysOfElements (elements.set i b) = _
    rw [List.set_eq_take_cons_drop (l := elements) b hi, keysOfElements_append, keysOfElements]
  | map kind entries =>
    have hi : i < entries.length := by
      obtain ⟨hi, -⟩ := List.getElem?_eq_some_iff.mp h
      simpa [Held.parts] using hi
    refine ⟨keysOfEntries kind (entries.take i) ++ [(kind, entries[i].1)],
      keysOfEntries kind (entries.drop (i + 1)), fun b => ?_⟩
    rw [Held.replacePart, Held.keys, List.modify_eq_take_cons_drop hi, keysOfEntries_append,
      keysOfEntries, List.append_assoc]
    rfl

namespace KeyState

theorem mapAt_some (h : state.mapAt object path = some (kind, entries)) : ∃ value,
    state.objects[object]? = some value ∧ Nodes.get value path = some (.map kind entries) := by
  rw [mapAt] at h
  split at h
  · rename_i hget
    cases h
    exact Option.bind_eq_some_iff.mp hget
  · cases h

/-- The keys below a map, and those elsewhere, which stay. -/
theorem keys_replaceAt (h : state.mapAt object path = some (kind, entries)) : ∃ before after,
    state.keys = before ++ (keysOfEntries kind entries ++ after) ∧ ∀ entries' given strings,
      (state.replaceAt object path kind entries' given strings).keys
        = keysOfElements given ++ (before ++ (keysOfEntries kind entries' ++ after)) := by
  obtain ⟨value, hobject, hget⟩ := mapAt_some h
  obtain ⟨hi, rfl⟩ := List.getElem?_eq_some_iff.mp hobject
  obtain ⟨before, after, hkeys⟩ :=
    Nodes.listed_put (f := Held.keys) (fun h => keys_replacePart h) hget
  refine ⟨keysOfElements (state.objects.take object) ++ before,
    after ++ keysOfElements (state.objects.drop (object + 1)),
    ?_, fun entries' given strings => ?_⟩
  · have hsplit : state.objects = state.objects.take object
        ++ state.objects[object] :: state.objects.drop (object + 1) := by
      simp
    have hself := hkeys (.map kind entries)
    rw [Nodes.put_get hget, Held.keys] at hself
    rw [keys]
    nth_rewrite 1 [hsplit]
    rw [keysOfElements_append, keysOfElements, hself]
    simp only [List.append_assoc]
  · rw [keys, replaceAt, keysOfElements_append, List.modify_eq_take_cons_drop hi,
      keysOfElements_append, keysOfElements, hkeys, Held.keys]
    simp only [List.append_assoc]

/-- What every state keeps: no string has two owners, and all keys are live. -/
def Sound (icu : Icu) (state : KeyState) : Prop := CifApi.Sound icu state.strings [] state.keys

/-- The keys of a map, apart; with other entries in it, the state is sound where they are. -/
theorem openMap (h : state.Sound icu) (hmap : state.mapAt object path = some (kind, entries)) :
    ∃ others, CifApi.Sound icu state.strings [] (keysOfEntries kind entries ++ others)
      ∧ ∀ entries' given strings,
      CifApi.Sound icu strings []
      (keysOfElements given ++ (keysOfEntries kind entries' ++ others)) →
      (state.replaceAt object path kind entries' given strings).Sound icu := by
  obtain ⟨before, after, hkeys, hreplaced⟩ := keys_replaceAt hmap
  refine ⟨before ++ after, ?_, fun entries' given strings hsound => ?_⟩
  · refine Sound.perm h (List.Perm.refl _) ?_
    rw [hkeys]
    exact List.perm_append_comm_assoc _ _ _
  · rw [KeyState.Sound, hreplaced]
    exact hsound.perm (List.Perm.refl _) ((List.perm_append_comm_assoc _ _ _).append_left _)

theorem normal_of_mapM {names : List UStr} {pairs : List (UStr × UStr)}
    (h : (names.mapM fun name => (kind.normalKey icu name).map (name, ·)) = some pairs) :
    ∀ p ∈ pairs, kind.normalKey icu p.1 = some p.2 := by
  induction names generalizing pairs with
  | nil =>
    cases h
    simp
  | cons name names ih =>
    rw [List.mapM_cons] at h
    obtain ⟨pair, hpair, hrest⟩ := Option.bind_eq_some_iff.mp h
    obtain ⟨rest, hnames, hpairs⟩ := Option.bind_eq_some_iff.mp hrest
    obtain ⟨norm, hnorm, rfl⟩ := Option.map_eq_some_iff.mp hpair
    cases hpairs
    intro p hp
    rcases List.mem_cons.mp hp with rfl | hp
    · exact hnorm
    · exact ih hnames p hp

theorem keys_eraseIdx {objects : List Held} {value : Held} (h : objects[object]? = some value) :
    (keysOfElements objects).Perm (value.keys ++ keysOfElements (objects.eraseIdx object)) := by
  obtain ⟨hi, rfl⟩ := List.getElem?_eq_some_iff.mp h
  have hsplit : objects = objects.take object ++ objects[object] :: objects.drop (object + 1) := by
    simp
  rw [List.eraseIdx_eq_take_drop_succ, keysOfElements_append]
  nth_rewrite 1 [hsplit]
  rw [keysOfElements_append, keysOfElements]
  exact List.perm_append_comm_assoc _ _ _

/-- A call that spares what it finds leaves all keys live. -/
theorem step_spec (h : state.Sound icu) (hspares : state.Spares icu op) :
    ∃ state', state.step icu op = some state' ∧ state'.Sound icu := by
  cases op with
  | packetCreate names =>
    rw [step]
    cases hnames : names.mapM fun name => (MapKind.packet.normalKey icu name).map (name, ·) with
    | none => exact ⟨state, rfl, h⟩
    | some pairs => exact ⟨_, rfl, createKeyed_spec pairs (normal_of_mapM hnames) h⟩
  | makeValue value => exact ⟨_, rfl, sound_store value.property h⟩
  | setItem object path key value =>
    rw [step]
    cases hmap : state.mapAt object path with
    | none => exact ⟨state, rfl, h⟩
    | some found =>
      obtain ⟨kind, entries⟩ := found
      obtain ⟨others, hopened, hclose⟩ := openMap h hmap
      have hvalue : Value.WellKeyed icu ((value.map Subtype.val).getD Value.unk) := by
        cases value with
        | none => exact .unk
        | some value => exact value.property
      obtain ⟨code, entries', strings', hset, hsound⟩ :=
        setKeyed_spec hopened hvalue (hspares kind entries hmap)
      refine ⟨_, ?_, hclose entries' [] strings' hsound⟩
      simp only [hset, Option.bind_eq_bind, Option.bind_some]
  | removeItem object path key keep =>
    rw [step]
    cases hmap : state.mapAt object path with
    | none => exact ⟨state, rfl, h⟩
    | some found =>
      obtain ⟨kind, entries⟩ := found
      obtain ⟨others, hopened, hclose⟩ := openMap h hmap
      obtain ⟨code, entries', given, strings', hremove, hsound⟩ := removeKeyed_spec key keep hopened
      refine ⟨_, ?_, hclose entries' given strings' hsound⟩
      simp only [hremove, Option.bind_eq_bind, Option.bind_some]
  | nextPacket object items =>
    have hnormal : ∀ p ∈ items.map fun item => (item.1.val, item.2.val),
        MapKind.packet.normalKey icu p.1 = some p.1 := by
      intro p hp
      obtain ⟨item, -, rfl⟩ := List.mem_map.mp hp
      exact item.1.property
    have hkeyed : ∀ p ∈ items.map fun item => (item.1.val, item.2.val), p.2.WellKeyed icu := by
      intro p hp
      obtain ⟨item, -, rfl⟩ := List.mem_map.mp hp
      exact item.2.property
    cases object with
    | none => exact ⟨_, rfl, tempKeyed_spec _ hnormal hkeyed h⟩
    | some object =>
      rw [step]
      cases hmap : state.mapAt object [] with
      | none => exact ⟨state, rfl, h⟩
      | some found =>
        obtain ⟨kind, entries⟩ := found
        cases kind with
        | table => exact ⟨state, rfl, h⟩
        | packet =>
          obtain ⟨others, hopened, hclose⟩ := openMap h hmap
          obtain ⟨entries', strings', hfill, hsound⟩ := fillKeyed_spec _ hnormal hkeyed hopened
          refine ⟨_, ?_, hclose entries' [] strings' hsound⟩
          simp only [hfill, Option.bind_eq_bind, Option.bind_some]
  | freeObject object =>
    rw [step]
    cases hobject : state.objects[object]? with
    | none => exact ⟨state, rfl, h⟩
    | some value =>
      obtain ⟨strings', hrelease, hsound⟩ :=
        Sound.release (Sound.perm h (List.Perm.refl _) (keys_eraseIdx hobject))
      refine ⟨⟨state.objects.eraseIdx object, strings'⟩, ?_, hsound⟩
      simp only [Held.release, hrelease, Option.bind_eq_bind, Option.bind_some]

theorem step_freed (h : state.Sound icu) (hspares : ¬ state.Spares icu op)
    (hstep : state.step icu op = some state') :
    ∃ entry ∈ state'.keys, ¬ KeyIds.Live icu state'.strings entry := by
  cases op with
  | setItem object path key value =>
    simp only [Spares, not_forall] at hspares
    obtain ⟨kind, entries, hmap, hspares⟩ := hspares
    obtain ⟨others, hopened, -⟩ := openMap h hmap
    obtain ⟨before, after, -, hreplaced⟩ := keys_replaceAt hmap
    rw [step, hmap] at hstep
    obtain ⟨⟨code, entries', strings'⟩, hset, hstep⟩ := Option.bind_eq_some_iff.mp hstep
    cases hstep
    obtain ⟨entry, hentry, hfreed⟩ := setKeyed_freed hopened hspares hset
    refine ⟨(kind, entry.1), ?_, ?_⟩
    · rw [hreplaced, keysOfEntries_eq]
      refine List.mem_append_right _ (List.mem_append_right _ (List.mem_append_left _ ?_))
      exact List.mem_flatMap.mpr ⟨entry, hentry, List.mem_cons_self ..⟩
    · rintro ⟨orig, -, hkey, -⟩
      rw [replaceAt] at hkey
      rw [hfreed.read] at hkey
      cases hkey
  | packetCreate => exact absurd trivial hspares
  | makeValue => exact absurd trivial hspares
  | removeItem => exact absurd trivial hspares
  | nextPacket => exact absurd trivial hspares
  | freeObject => exact absurd trivial hspares

/-- From a sound state, every state on the way has live keys just where all steps spare what they
find. -/
theorem live_iff_sparesAll (h : state.Sound icu) :
    (∀ done, done <+: ops → ∃ state', state.run icu done = some state'
    ∧ ∀ entry ∈ state'.keys, KeyIds.Live icu state'.strings entry) ↔ state.SparesAll icu ops := by
  induction ops generalizing state with
  | nil =>
    refine iff_of_true ?_ trivial
    intro done hdone
    obtain rfl := List.prefix_nil.mp hdone
    exact ⟨state, rfl, Sound.live h⟩
  | cons op ops ih =>
    constructor
    · intro hlive
      have hspares : state.Spares icu op := by
        by_contra hspares
        obtain ⟨state', hrun, hkeys⟩ := hlive [op] (List.prefix_append [op] ops)
        obtain ⟨state'', hstep, hnil⟩ := Option.bind_eq_some_iff.mp hrun
        cases hnil
        obtain ⟨entry, hentry, hdead⟩ := step_freed h hspares hstep
        exact hdead (hkeys entry hentry)
      obtain ⟨state₁, hstep, hsound⟩ := step_spec h hspares
      refine ⟨hspares, fun state' hstep' => ?_⟩
      rw [hstep] at hstep'
      cases hstep'
      refine (ih hsound).mp fun done hdone => ?_
      obtain ⟨state', hrun, hkeys⟩ := hlive (op :: done) (List.cons_prefix_cons.mpr ⟨rfl, hdone⟩)
      rw [run, List.foldlM_cons, hstep] at hrun
      exact ⟨state', hrun, hkeys⟩
    · rintro ⟨hspares, hrest⟩ done hdone
      cases done with
      | nil => exact ⟨state, rfl, Sound.live h⟩
      | cons first done =>
        obtain ⟨rfl, hdone'⟩ := List.cons_prefix_cons.mp hdone
        obtain ⟨state₁, hstep, hsound⟩ := step_spec h hspares
        obtain ⟨state', hrun, hkeys⟩ := (ih hsound).mpr (hrest state₁ hstep) done hdone'
        refine ⟨state', ?_, hkeys⟩
        rw [run, List.foldlM_cons, hstep]
        exact hrun

end KeyState

/-- Entries own live keys in every run just where no item is set under another spelling of a name
whose entry has one string for its keys. -/
theorem ownsLiveKeys_iff (icu : Icu) (ops : List (KeyOp icu)) :
    OwnsLiveKeys icu ops ↔ KeyState.empty.SparesAll icu ops :=
  KeyState.live_iff_sparesAll Sound.empty

/-- A packet is made with the name `_a`, and `_A` is set in it. -/
def respelledOps : List (KeyOp .ascii) :=
  [.packetCreate [[0x5f, 0x61]], .setItem 0 [] [0x5f, 0x41] none]

theorem respelled_notLive : ¬ OwnsLiveKeys .ascii respelledOps := by
  intro h
  obtain ⟨state, hrun, hlive⟩ := h _ (List.prefix_refl _)
  have hfreed : KeyState.empty.run .ascii respelledOps
      = some ⟨[.map .packet [(⟨0, 2, [0x5f, 0x61]⟩, .single .unk)]],
      ⟨[none, none, some [0x5f, 0x41]]⟩⟩ := rfl
  rw [hfreed] at hrun
  cases hrun
  obtain ⟨orig, -, hkey, -⟩ := hlive (.packet, ⟨0, 2, [0x5f, 0x61]⟩) (List.mem_singleton_self _)
  cases hkey

-- the freed key is looked at when the item is removed, and then freed again
example : (KeyState.empty.run .ascii (respelledOps
    ++ [.removeItem 0 [] [0x5f, 0x61] false])).isNone := by decide +kernel

end Runs

end CifApi
