import CifApi.Value.KeyStrings

/-! Maps whose keys belong to others, and how they are made standalone. -/
namespace CifApi

open Held

/-- `cif_map_t`, with the strings that its keys are; `cif_map_entry_clean_metadata_internal` frees
those given only in a standalone map. -/
structure KeyedMap where
  kind : MapKind
  isStandalone : Bool
  entries : List (KeyIds × Held)

/-- A place in the array of copies: not written yet, a null pointer, or a string. -/
inductive Slot where
  | unset
  | null
  | copy (id : Nat)

/-- `key_copies` and `next`, with the number of allocations that have been asked for. -/
structure Copying where
  slots : List Slot
  next : Nat
  strings : Strings
  asked : Nat

section Calls

-- which of the allocations of a call succeed
variable (grants : Nat → Bool)

/-- `cif_u_strdup` into the next slot. -/
def Copying.strdup (c : Copying) (text : UStr) : Copying :=
  if grants c.asked then
    let (id, strings) := c.strings.alloc text
    { slots := c.slots.set c.next (.copy id), next := c.next, strings := strings,
      asked := c.asked + 1 }
  else { c with slots := c.slots.set c.next .null, asked := c.asked + 1 }

/-- The first loop of `convert_to_standalone`; `next` goes on past the slot that is tested, and once
more after a copy. -/
def copyKeys (itemCount : Nat) : List KeyIds → Copying → Option (Int × Copying)
  | [], c => some (Code.ok, c)
  | entry :: rest, c =>
    if itemCount ≤ c.next then some (Code.internalError, c)
    else do
      let keyOrig ← c.strings.read entry.keyOrig
      let copied := c.strdup grants keyOrig
      if grants c.asked then copyKeys itemCount rest { copied with next := c.next + 1 + 1 }
      else some (Code.memoryError, { copied with next := c.next + 1 })

/-- The second loop: the entries take the copies. -/
def assignKeys (itemCount : Nat) (slots : List Slot) :
    List (KeyIds × Held) → Nat → Option (Int × List (KeyIds × Held) × Nat)
  | [], next => some (Code.ok, [], next)
  | (entry, value) :: rest, next =>
    if itemCount ≤ next then some (Code.internalError, (entry, value) :: rest, next)
    else
      match slots[next]? with
      | some (.copy id) => do
        let (code, rest, next) ← assignKeys itemCount slots rest (next + 1)
        some (code, ({ entry with keyOrig := id }, value) :: rest, next)
      | _ => none

/-- The failure handler, which frees what is in the slots up to `next`; nothing comes of freeing
what has not been written, or is outside the array. -/
def freeCopies (slots : List Slot) : Nat → Strings → Option Strings
  | 0, strings => some strings
  | next + 1, strings =>
    match slots[next]? with
    | some (.copy id) => do freeCopies slots next (← strings.free id)
    | some .null => freeCopies slots next strings
    | _ => none

/-- `convert_to_standalone`, with the code it answers. -/
def KeyedMap.convertToStandalone (map : KeyedMap) (strings : Strings) :
    Option (Int × KeyedMap × Strings) :=
  if map.isStandalone then some (Code.ok, map, strings)
  else if !grants 0 then some (Code.memoryError, map, strings)
  else do
    let itemCount := map.entries.length
    let (code, c) ← copyKeys grants itemCount (map.entries.map (·.1))
        ⟨List.replicate itemCount .unset, 0, strings, 1⟩
    if code = Code.ok then
      let (code, entries, next) ← assignKeys itemCount c.slots map.entries 0
      if code = Code.ok then some (Code.ok, { map with isStandalone := true, entries := entries },
        c.strings)
      else
        let strings ← freeCopies c.slots next c.strings
        some (code, { map with entries := entries }, strings)
    else
      let strings ← freeCopies c.slots c.next c.strings
      some (code, map, strings)

/-- `cif_map_set_item` with the code it answers, where no allocation fails but those of the
conversion. -/
def KeyedMap.setItem (icu : Icu) (map : KeyedMap) (key : UStr) (value : Option Value)
    (strings : Strings) :
    Option (Int × KeyedMap × Strings) :=
  match map.kind.normalizer icu key map.kind.setInvalidity with
  | .error code => some (code, map, strings)
  | .ok keyNorm => do
    let (normId, strings) := strings.alloc keyNorm
    let item := findEntry map.entries keyNorm
    let sameKey ← match item with
      | none => some false
      | some i => do
        let (entry, _) ← map.entries[i]?
        let _ ← strings.read entry.key
        let keyOrig ← strings.read entry.keyOrig
        some (decide (key = keyOrig))
    let (code, map, strings) ← if sameKey then some (Code.ok, map, strings)
        else map.convertToStandalone grants strings
    if code ≠ Code.ok then
      let strings ← strings.free normId
      some (Code.error, map, strings)
    else
      match item with
      | some i =>
        let (entry, old) ← map.entries[i]?
        let (entry, strings) ← respell entry key strings
        let strings ← old.release strings
        let (new, strings) := store (value.getD .unk) strings
        let strings ← strings.free normId
        some (Code.ok, { map with entries := map.entries.set i (entry, new) }, strings)
      | none =>
        let (copy, strings) := strings.alloc key
        let (new, strings) := store (value.getD .unk) strings
        some (Code.ok, { map with entries := map.entries ++ [(⟨normId, copy, keyNorm⟩, new)] },
          strings)

end Calls

/-- `cif_packet_create_norm` without avoiding aliases: the keys are the strings that the caller
has. -/
def KeyedMap.createAliasing (names : List (Nat × UStr)) : KeyedMap where
  kind := .packet
  isStandalone := false
  entries := names.map fun name => (⟨name.1, name.1, name.2⟩, single .unk)

/-- The entries as they were, but for the keys as given, which are new strings of the same text. -/
structure Copied (strings strings' : Strings) (entries entries' : List (KeyIds × Held)) : Prop where
  rest : entries'.map (fun entry => (entry.1.key, entry.1.hashed, entry.2))
    = entries.map fun entry => (entry.1.key, entry.1.hashed, entry.2)
  texts : entries'.map (fun entry => strings'.read entry.1.keyOrig)
    = entries.map fun entry => strings.read entry.1.keyOrig
  distinct : (entries'.map (·.1.keyOrig)).Nodup
  fresh : ∀ entry ∈ entries', strings.read entry.1.keyOrig = none
  kept : strings.Grows strings'

/-- What is to come of a conversion, whichever allocations fail. -/
def Converts (map : KeyedMap) (strings : Strings) : Prop :=
  ∀ grants : Nat → Bool, ∃ code map' strings',
    map.convertToStandalone grants strings = some (code, map', strings')
    ∧ ((∀ n, grants n = true) → code = Code.ok)
    ∧ (code = Code.ok → map'.kind = map.kind ∧ map'.isStandalone = true
      ∧ Copied strings strings' map.entries map'.entries)
    ∧ (code ≠ Code.ok → map' = map ∧ ∀ id, strings'.read id = strings.read id)

/-- What is to come of setting an item that is new. -/
def SetsNew (icu : Icu) (map : KeyedMap) (strings : Strings) : Prop :=
  ∀ key keyNorm value, map.kind.normalKey icu key = some keyNorm →
    findEntry map.entries keyNorm = none →
    ∃ map' entries entry held strings',
      map.setItem (fun _ => true) icu key value strings = some (Code.ok, map', strings')
      ∧ map'.isStandalone = true ∧ map'.entries = entries ++ [(entry, held)]
      ∧ Copied strings strings' map.entries entries
      ∧ entry.hashed = keyNorm ∧ strings'.read entry.key = some keyNorm
        ∧ strings'.read entry.keyOrig = some key
      ∧ ∃ before, store (value.getD .unk) before = (held, strings')

section Stuck

variable {grants : Nat → Bool} {itemCount : Nat} {entries : List KeyIds} {c : Copying}
  {slots : List Slot} {next : Nat} {strings strings' : Strings}

/-- No slot from the one before `next` on has been written. -/
def Unset (slots : List Slot) (next : Nat) : Prop :=
  ∀ i, next ≤ i + 1 → ∀ slot, slots[i]? = some slot → slot = .unset

theorem unset_replicate (n : Nat) : Unset (List.replicate n .unset) 0 := by
  intro i _ slot hslot
  exact List.eq_of_mem_replicate (List.mem_of_getElem? hslot)

theorem Unset.set (h : Unset slots next) (slot : Slot) :
    Unset (slots.set next slot) (next + 1 + 1) := by
  intro i hi other hother
  rw [List.getElem?_set_ne (by omega)] at hother
  exact h i (by omega) other hother

theorem live_grows {entry : KeyIds} (hgrows : strings.Grows strings')
    (h : (strings.read entry.keyOrig).isSome) :
    (strings'.read entry.keyOrig).isSome := by
  rw [hgrows.read (Heap.lt_of_live h)]
  exact h

/-- Each copy takes up two slots: before half of the entries have been copied there are too few. -/
theorem copyKeys_stuck (hgrants : ∀ n, grants n = true) (hne : entries ≠ [])
    (hroom : itemCount + 2 ≤ c.next + 2 * entries.length)
    (hlive : ∀ entry ∈ entries, (c.strings.read entry.keyOrig).isSome)
    (hunset : Unset c.slots c.next) : ∃ c',
      copyKeys grants itemCount entries c = some (Code.internalError, c')
      ∧ itemCount ≤ c'.next ∧ Unset c'.slots c'.next := by
  induction entries generalizing c with
  | nil => exact absurd rfl hne
  | cons entry rest ih =>
    rw [copyKeys]
    by_cases hfull : itemCount ≤ c.next
    · rw [if_pos hfull]
      exact ⟨c, rfl, hfull, hunset⟩
    · rw [if_neg hfull]
      obtain ⟨keyOrig, hkey⟩ := Option.isSome_iff_exists.mp (hlive entry (List.mem_cons_self ..))
      have hcopied : c.strdup grants keyOrig
          = ⟨c.slots.set c.next (.copy (c.strings.alloc keyOrig).1), c.next,
          (c.strings.alloc keyOrig).2, c.asked + 1⟩ := by
        rw [Copying.strdup, if_pos (hgrants _)]
      simp only [hkey, Option.bind_eq_bind, Option.bind_some, hgrants, if_true, hcopied]
      rw [List.length_cons] at hroom
      refine ih ?_ (by simp only; omega) (fun e he => ?_) (hunset.set _)
      · rintro rfl
        simp only [List.length_nil] at hroom
        omega
      · exact live_grows (Heap.grows_alloc _ _) (hlive e (List.mem_cons_of_mem _ he))

theorem freeCopies_stuck (h : Unset slots next) (hpos : 0 < next) :
    freeCopies slots next strings = none := by
  obtain ⟨n, rfl⟩ := Nat.exists_eq_succ_of_ne_zero (Nat.ne_of_gt hpos)
  rw [freeCopies]
  cases hslot : slots[n]? with
  | none => rfl
  | some slot =>
    obtain rfl := h n (Nat.le_refl _) slot hslot
    rfl

end Stuck

section Conversion

variable {icu : Icu} {grants : Nat → Bool} {map : KeyedMap} {strings : Strings}

/-- With more than one entry, the handler comes upon a slot that has not been written, or is outside
the array. -/
theorem convertToStandalone_stuck (hgrants : ∀ n, grants n = true)
    (hdependent : map.isStandalone = false)
    (hlive : ∀ entry ∈ map.entries, (strings.read entry.1.keyOrig).isSome)
    (hlong : 2 ≤ map.entries.length) :
    map.convertToStandalone grants strings = none := by
  have hkeys : map.entries.map (·.1) ≠ [] := by
    intro hnil
    rw [List.map_eq_nil_iff] at hnil
    simp [hnil] at hlong
  obtain ⟨c, hcopy, hfull, hunset⟩ := @copyKeys_stuck grants map.entries.length _
    ⟨List.replicate map.entries.length .unset, 0, strings, 1⟩ hgrants hkeys
    (by simp only [List.length_map]; omega) (by
      intro key hkey
      obtain ⟨entry, hentry, rfl⟩ := List.mem_map.mp hkey
      exact hlive entry hentry) (unset_replicate _)
  rw [KeyedMap.convertToStandalone, hdependent, hgrants]
  simp only [Bool.false_eq_true, if_false, Bool.not_true, hcopy, Option.bind_eq_bind,
    Option.bind_some]
  rw [if_neg (by decide), freeCopies_stuck hunset (by omega)]
  rfl

theorem copied_nil : Copied strings strings [] [] :=
  ⟨rfl, rfl, List.nodup_nil, by simp, Heap.grows_refl _⟩

theorem copied_single (strings : Strings) {entry : KeyIds} {keyOrig : UStr} (value : Held)
    (hkey : strings.read entry.keyOrig = some keyOrig) :
    Copied strings (strings.alloc keyOrig).2 [(entry, value)]
      [({ entry with keyOrig := (strings.alloc keyOrig).1 }, value)] where
  rest := rfl
  texts := by simp [hkey, Heap.read_alloc]
  distinct := List.nodup_singleton _
  fresh := by
    intro e he
    obtain rfl := List.mem_singleton.mp he
    exact Heap.read_alloc_self strings keyOrig
  kept := Heap.grows_alloc _ _

/-- Whether the only key can be copied, or there is none, the conversion has the outcome that it is
to have. -/
theorem converts_of_length_le (hdependent : map.isStandalone = false)
    (hlive : ∀ entry ∈ map.entries, (strings.read entry.1.keyOrig).isSome)
    (hshort : map.entries.length ≤ 1) :
    Converts map strings := by
  intro grants
  obtain ⟨kind, standalone, entries⟩ := map
  obtain rfl : standalone = false := hdependent
  by_cases harray : grants 0 = true
  · cases entries with
    | nil =>
      refine ⟨Code.ok, ⟨kind, true, []⟩, strings, ?_, fun _ => rfl, fun _ => ⟨rfl, rfl, copied_nil⟩,
        fun h => absurd rfl h⟩
      simp [KeyedMap.convertToStandalone, harray, copyKeys, assignKeys]
    | cons first rest =>
      obtain rfl : rest = [] := List.eq_nil_of_length_eq_zero (by simpa using hshort)
      obtain ⟨entry, value⟩ := first
      obtain ⟨keyOrig, hkey⟩ := Option.isSome_iff_exists.mp (hlive _ (List.mem_singleton_self _))
      by_cases hcopy : grants 1 = true
      · refine ⟨Code.ok,
          ⟨kind, true, [({ entry with keyOrig := (strings.alloc keyOrig).1 }, value)]⟩,
          (strings.alloc keyOrig).2, ?_, fun _ => rfl,
          fun _ => ⟨rfl, rfl, copied_single strings value hkey⟩, fun h => absurd rfl h⟩
        simp [KeyedMap.convertToStandalone, harray, copyKeys, hkey, hcopy, Copying.strdup,
          assignKeys]
      · refine ⟨Code.memoryError, ⟨kind, false, [(entry, value)]⟩, strings, ?_,
          fun h => absurd (h 1) hcopy, fun h => absurd h (by decide), fun _ => ⟨rfl, fun _ => rfl⟩⟩
        simp [KeyedMap.convertToStandalone, harray, copyKeys, hkey, hcopy, Copying.strdup,
          freeCopies, Code.memoryError, Code.ok]
  · refine ⟨Code.memoryError, ⟨kind, false, entries⟩, strings, ?_, fun h => absurd (h 0) harray,
      fun h => absurd h (by decide), fun _ => ⟨rfl, fun _ => rfl⟩⟩
    simp [KeyedMap.convertToStandalone, harray]

theorem Copied.live {strings' : Strings} {entries entries' : List (KeyIds × Held)}
    (h : Copied strings strings' entries entries')
    (hlive : ∀ entry ∈ entries, (strings.read entry.1.keyOrig).isSome) :
    ∀ entry ∈ entries', (strings'.read entry.1.keyOrig).isSome := by
  intro entry hentry
  have hmem := List.mem_map_of_mem (f := fun e : KeyIds × Held => strings'.read e.1.keyOrig) hentry
  rw [h.texts] at hmem
  obtain ⟨old, hold, heq⟩ := List.mem_map.mp hmem
  rw [← heq]
  exact hlive old hold

/-- What is allocated before and after does not matter to the copies. -/
theorem Copied.grows {before strings' after : Strings} {entries entries' : List (KeyIds × Held)}
    (h : Copied strings strings' entries entries') (hbefore : before.Grows strings)
    (hafter : strings'.Grows after)
    (hlive : ∀ entry ∈ entries, (before.read entry.1.keyOrig).isSome) :
    Copied before after entries entries' where
  rest := h.rest
  texts := by
    have hcopies := h.live fun entry hentry => live_grows hbefore (hlive entry hentry)
    have hnew : entries'.map (fun entry => after.read entry.1.keyOrig)
        = entries'.map fun entry => strings'.read entry.1.keyOrig :=
      List.map_congr_left fun entry hentry => hafter.read (Heap.lt_of_live (hcopies entry hentry))
    have hold : entries.map (fun entry => strings.read entry.1.keyOrig)
        = entries.map fun entry => before.read entry.1.keyOrig :=
      List.map_congr_left fun entry hentry => hbefore.read (Heap.lt_of_live (hlive entry hentry))
    exact hnew.trans (h.texts.trans hold)
  distinct := h.distinct
  fresh := by
    intro entry hentry
    by_contra hne
    have hlt := Heap.lt_of_live (Option.isSome_iff_ne_none.mpr hne)
    exact hne ((hbefore.read hlt).symm.trans (h.fresh entry hentry))
  kept := (hbefore.trans h.kept).trans hafter

/-- After the conversion, an item that is new can be set. -/
theorem setsNew_of_length_le (hdependent : map.isStandalone = false)
    (hlive : ∀ entry ∈ map.entries, (strings.read entry.1.keyOrig).isSome)
    (hshort : map.entries.length ≤ 1) :
    SetsNew icu map strings := by
  intro key keyNorm value hnorm hnew
  have hgrown := strings.grows_alloc keyNorm
  have hlive' : ∀ entry ∈ map.entries, ((strings.alloc keyNorm).2.read entry.1.keyOrig).isSome :=
    fun entry hentry => live_grows hgrown (hlive entry hentry)
  obtain ⟨code, map', strings', hconvert, hok, hcopied, -⟩ :=
    converts_of_length_le hdependent hlive' hshort fun _ => true
  obtain rfl := hok fun _ => rfl
  obtain ⟨hkind, hstandalone, hcopied⟩ := hcopied rfl
  have hstored := grows_store (value.getD .unk) (strings'.alloc key).2
  have hafter := (strings'.grows_alloc key).trans hstored
  refine ⟨{ map' with entries := map'.entries
    ++ [(⟨(strings.alloc keyNorm).1, (strings'.alloc key).1, keyNorm⟩,
      (store (value.getD .unk) (strings'.alloc key).2).1)] },
    map'.entries, ⟨(strings.alloc keyNorm).1, (strings'.alloc key).1, keyNorm⟩,
    (store (value.getD .unk) (strings'.alloc key).2).1,
    (store (value.getD .unk) (strings'.alloc key).2).2, ?_, ?_, rfl,
    hcopied.grows hgrown hafter hlive, rfl, ?_, ?_, (strings'.alloc key).2, rfl⟩
  · rw [KeyedMap.setItem, map.kind.normalizer_eq, hnorm]
    simp only [Option.elim_some, hnew, Option.bind_eq_bind, Option.bind_some, Bool.false_eq_true,
      if_false, hconvert, ne_eq, not_true_eq_false]
  · exact hstandalone
  · have hread := Heap.read_alloc strings keyNorm
    have hlt := Heap.lt_of_live (Option.isSome_iff_exists.mpr ⟨_, hread⟩)
    rw [(hcopied.kept.trans hafter).read hlt]
    exact hread
  · have hread := Heap.read_alloc strings' key
    have hlt := Heap.lt_of_live (Option.isSome_iff_exists.mpr ⟨_, hread⟩)
    rw [hstored.read hlt]
    exact hread

/-- The model of maps without strings has no result for the same maps. -/
theorem isNone_convertToStandalone_eq {plain : CifMap} (hplain : plain.isStandalone = false)
    (hlength : plain.entries.length = map.entries.length) (hdependent : map.isStandalone = false)
    (hlive : ∀ entry ∈ map.entries, (strings.read entry.1.keyOrig).isSome) :
    (map.convertToStandalone (fun _ => true) strings).isNone
      = plain.convertToStandalone.isNone := by
  rw [CifMap.convertToStandalone, hplain, hlength, if_neg Bool.false_ne_true]
  by_cases hshort : map.entries.length ≤ 1
  · obtain ⟨code, map', strings', hconvert, _⟩ :=
      converts_of_length_le hdependent hlive hshort fun _ => true
    rw [hconvert, if_pos hshort]
    rfl
  · rw [convertToStandalone_stuck (fun _ => rfl) hdependent hlive (Nat.not_le.mp hshort),
      if_neg hshort]
    rfl

/-- Dependent maps are converted as they should be, and take new items, where they have no more than
one entry. -/
theorem converts_and_setsNew_iff (icu : Icu) (hdependent : map.isStandalone = false)
    (hlive : ∀ entry ∈ map.entries, (strings.read entry.1.keyOrig).isSome) :
    Converts map strings ∧ SetsNew icu map strings ↔ map.entries.length ≤ 1 := by
  constructor
  · rintro ⟨hconverts, _⟩
    by_contra hlong
    obtain ⟨code, map', strings', hconvert, _⟩ := hconverts fun _ => true
    rw [convertToStandalone_stuck (fun _ => rfl) hdependent hlive (Nat.not_le.mp hlong)] at hconvert
    cases hconvert
  · intro hshort
    exact ⟨converts_of_length_le hdependent hlive hshort,
      setsNew_of_length_le hdependent hlive hshort⟩

end Conversion

section Examples

/-- The names `_a` and `_b`, which the caller of `cif_packet_create_norm` has. -/
def callerNames : Strings := ⟨[some [0x5f, 0x61], some [0x5f, 0x62]]⟩

theorem converts_and_setsNew_iff_single :
    Converts (.createAliasing [(0, [0x5f, 0x61])]) callerNames
        ∧ SetsNew .ascii (.createAliasing [(0, [0x5f, 0x61])]) callerNames
      ↔ (KeyedMap.createAliasing [(0, [0x5f, 0x61])]).entries.length ≤ 1 :=
  converts_and_setsNew_iff .ascii rfl fun entry hentry => by
    obtain rfl := List.mem_singleton.mp hentry
    rfl

/-- With no allocation failing, nothing comes of the conversion of a packet of two items. -/
theorem not_converts_pair :
    ¬ Converts (.createAliasing [(0, [0x5f, 0x61]), (1, [0x5f, 0x62])]) callerNames := by
  intro h
  obtain ⟨code, map', strings', hconvert, _⟩ := h fun _ => true
  have hstuck : (KeyedMap.createAliasing [(0, [0x5f, 0x61]), (1, [0x5f, 0x62])]).convertToStandalone
      (fun _ => true) callerNames = none := rfl
  rw [hstuck] at hconvert
  cases hconvert

end Examples

end CifApi
