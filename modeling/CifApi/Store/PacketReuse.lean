import CifApi.Store.PacketIterator
import CifApi.Value.Map
import Mathlib.Data.List.Perm.Basic

/-! The next packet of an iterator, read into a packet that the caller has. -/
namespace CifApi

namespace PacketIterator

-- whether what is left in the memory of a freed key still reads as the key
variable (stray : UStr → Bool)

/-- The packet read, as a map whose entries have their keys to themselves. -/
def tempMap (packet : Packet) : CifMap where
  kind := .packet
  isStandalone := true
  entries := packet.map fun e => { key := e.1, keyOrig := e.2.1, value := e.2.2, shared := true }

/-- The entry of the temporary packet for a key as it is read from an entry of the other packet. -/
def findTemp (target : Entry) (temp : CifMap) : Option (Nat × Entry) :=
  if target.freed && !stray target.key then none
  else (temp.hashFind stray target.key).bind fun i => (temp.entries[i]?).map (i, ·)

/-- The first loop: entries take over their values from the temporary packet, those without one
there are removed. -/
def overwrite : List Entry → CifMap → List Entry × CifMap
  | [], temp => ([], temp)
  | target :: targets, temp =>
    match findTemp stray target temp with
    | none => overwrite targets temp
    | some (i, entry) =>
      let (kept, temp) := overwrite targets { temp with entries := temp.entries.eraseIdx i }
      ({ target with value := entry.value } :: kept, temp)

/-- `cif_pktitr_next_packet` into a packet. -/
def nextPacketInto (it : PacketIterator) (cif : Cif) (packet : CifMap) :
    Except Int Unit × CifMap × PacketIterator :=
  match it.nextPacket cif with
  | (.error code, it) => (.error code, packet, it)
  | (.ok new, it) =>
    let (kept, temp) := overwrite stray packet.entries (tempMap new)
    if temp.entries.isEmpty then (.ok (), { packet with entries := kept }, it)
    else if !packet.isStandalone then (.error Code.argumentError, { packet with entries := kept },
      it)
    else
      -- the keys of the entries moved are copied
      let moved := temp.entries.map fun entry => { entry with shared := false }
      (.ok (), { packet with entries := kept ++ moved }, it)

/-- The same names with the same values, in whatever order. -/
def SameItems (packet packet' : Packet) : Prop :=
  (packet.map fun e => (e.1, e.2.2)).Perm (packet'.map fun e => (e.1, e.2.2))

variable {stray} {target : Entry} {entry : Entry} {temp : CifMap} {i : Nat}

theorem findTemp_some (h : findTemp stray target temp = some (i, entry)) :
    temp.entries[i]? = some entry ∧ entry.key = target.key := by
  rw [findTemp] at h
  split at h
  · cases h
  · obtain ⟨j, hfind, hentry⟩ := Option.bind_eq_some_iff.mp h
    obtain ⟨e, he, heq⟩ := Option.map_eq_some_iff.mp hentry
    cases heq
    obtain ⟨e', he', hkey⟩ := CifMap.hashFind_some hfind
    cases he.symm.trans he'
    exact ⟨he, hkey⟩

/-- Each entry of the temporary packet is taken over or left. -/
theorem overwrite_perm (stray : UStr → Bool) (targets : List Entry) (temp : CifMap) :
    ((overwrite stray targets temp).1.map (fun e => (e.key, e.value))
      ++ (overwrite stray targets temp).2.entries.map (fun e => (e.key, e.value))).Perm
      (temp.entries.map fun e => (e.key, e.value)) := by
  induction targets generalizing temp with
  | nil => exact List.Perm.refl _
  | cons target targets ih =>
    rw [overwrite]
    cases hfind : findTemp stray target temp with
    | none => exact ih temp
    | some found =>
      obtain ⟨i, entry⟩ := found
      obtain ⟨hentry, hkey⟩ := findTemp_some hfind
      obtain ⟨hi, rfl⟩ := List.getElem?_eq_some_iff.mp hentry
      have hrest := ih { temp with entries := temp.entries.eraseIdx i }
      have hperm := (List.getElem_cons_eraseIdx_perm hi).map fun e => (e.key, e.value)
      dsimp only at hrest ⊢
      rw [List.map_cons, List.cons_append, ← hkey]
      exact (hrest.cons _).trans hperm

/-- A packet that is filled has the items that a new packet would have, and if there is none it is
left as it was. -/
theorem nextPacketInto_sameItems (stray : UStr → Bool) (it : PacketIterator) (cif : Cif)
    {packet : CifMap} (hstandalone : packet.isStandalone = true) :
    (nextPacketInto stray it cif packet).2.2 = (it.nextPacket cif).2
      ∧ match (it.nextPacket cif).1 with
        | .error code => nextPacketInto stray it cif packet
          = (.error code, packet, (it.nextPacket cif).2)
        | .ok new => (nextPacketInto stray it cif packet).1 = .ok ()
          ∧ SameItems (nextPacketInto stray it cif packet).2.1.toPacket new := by
  rw [nextPacketInto]
  rcases it.nextPacket cif with ⟨result, it'⟩
  cases result with
  | error code => exact ⟨rfl, rfl⟩
  | ok new =>
    dsimp only
    have hperm := overwrite_perm stray packet.entries (tempMap new)
    have hnew : (tempMap new).entries.map (fun e => (e.key, e.value)) = new.map fun e =>
        (e.1, e.2.2) := by
      rw [tempMap, List.map_map]
      rfl
    rw [hnew] at hperm
    rcases hover : overwrite stray packet.entries (tempMap new) with ⟨kept, temp⟩
    rw [hover] at hperm
    dsimp only at hperm ⊢
    have hitems : ∀ map : CifMap, map.toPacket.map (fun e => (e.1, e.2.2)) = map.entries.map
        fun e => (e.key, e.value) := by
      intro map
      rw [CifMap.toPacket, List.map_map]
      rfl
    cases hempty : temp.entries.isEmpty with
    | true =>
      rw [if_pos rfl]
      refine ⟨rfl, rfl, ?_⟩
      rw [List.isEmpty_iff.mp hempty, List.map_nil, List.append_nil] at hperm
      rw [SameItems, hitems]
      exact hperm
    | false =>
      rw [if_neg Bool.false_ne_true, hstandalone, if_neg (by decide)]
      refine ⟨rfl, rfl, ?_⟩
      rw [SameItems, hitems, List.map_append, List.map_map]
      exact hperm

/-- The first packet of a loop, read into a packet with one of its items in another spelling and
with another item. -/
theorem nextPacketInto_sameItems_other :
    let it : PacketIterator := {
      loop := ⟨⟨1, units "a", units "a", none⟩, 1, none⟩
      itemNames := [units "_x", units "_y"]
      rows := [⟨1, units "_x", 1, .na⟩] }
    let packet : CifMap := ⟨.packet, true, [⟨units "_x", units "_X", .unk, false, false⟩,
      ⟨units "_z", units "_z", .na, true, false⟩]⟩
    SameItems (nextPacketInto (fun _ => true) it { saved := [{}] } packet).2.1.toPacket
      [(units "_x", units "_x", .na), (units "_y", units "_y", .unk)] := by
  intro it packet
  have hfilled :=
    (nextPacketInto_sameItems (fun _ =>
      true) it { saved := [{}] } (rfl : packet.isStandalone = true)).2
  exact hfilled.2

theorem hashFind_head (stray : UStr → Bool) (e : UStr × UStr × Value) (packet : Packet)
    (h : e.1 ∉ packet.map (·.1)) :
    (tempMap (e :: packet)).hashFind stray e.1 = some 0 := by
  cases hfind : (tempMap (e :: packet)).hashFind stray e.1 with
  | none =>
    have hnone := List.find?_eq_none.mp hfind 0 (by simp [tempMap])
    exact absurd (by simp [tempMap, CifMap.matchesKey]) hnone
  | some i =>
    obtain ⟨entry, hentry, hkey⟩ := CifMap.hashFind_some hfind
    cases i with
    | zero => rfl
    | succ i =>
      refine absurd ?_ h
      have hmem : entry ∈ (tempMap packet).entries := List.mem_of_getElem? hentry
      obtain ⟨e', he', rfl⟩ := List.mem_map.mp hmem
      rw [← hkey]
      exact List.mem_map_of_mem he'

/-- All entries stay where they are if the packets have the same names in the same order. -/
theorem overwrite_same (stray : UStr → Bool) {old new : Packet}
    (hsame : old.map (fun e => (e.1, e.2.1)) = new.map fun e => (e.1, e.2.1))
    (hnodup : (new.map (·.1)).Nodup) :
    overwrite stray (tempMap old).entries (tempMap new) = ((tempMap new).entries, tempMap []) := by
  induction old generalizing new with
  | nil =>
    obtain rfl : new = [] := by simpa using hsame.symm
    rfl
  | cons o old ih =>
    cases new with
    | nil => cases hsame
    | cons n new =>
      obtain ⟨⟨hkey, horig⟩, hrest⟩ := by simpa using hsame
      obtain ⟨hnot, hnodup⟩ := List.nodup_cons.mp hnodup
      have hfind : findTemp stray ⟨o.1, o.2.1, o.2.2, true, false⟩ (tempMap (n :: new))
          = some (0, ⟨n.1, n.2.1, n.2.2, true, false⟩) := by
        rw [findTemp, hkey, hashFind_head stray n new hnot]
        rfl
      show overwrite stray (⟨o.1, o.2.1, o.2.2, true, false⟩ :: (tempMap old).entries)
          (tempMap (n :: new)) = _
      rw [overwrite, hfind]
      have htail := ih (by simpa using hrest) hnodup
      have herase :
          ({ tempMap (n :: new) with entries := (tempMap (n :: new)).entries.eraseIdx 0 } : CifMap)
          = tempMap new := rfl
      dsimp only
      rw [herase, htail, hkey, horig]
      rfl

/-- A packet read into the one before is what it would be in a new one. -/
theorem nextPacketInto_tempMap (stray : UStr → Bool) {it it' : PacketIterator} {cif : Cif}
    {old new : Packet} (hnext : it.nextPacket cif = (.ok new, it'))
    (hsame : old.map (fun e => (e.1, e.2.1)) = new.map fun e => (e.1, e.2.1))
    (hnodup : (new.map (·.1)).Nodup) : nextPacketInto stray it cif (tempMap old)
      = (.ok (), tempMap new, it') := by
  rw [nextPacketInto, hnext]
  dsimp only
  rw [overwrite_same stray hsame hnodup]
  rfl

end PacketIterator

end CifApi
