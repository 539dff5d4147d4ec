import CifApi.Data.Keyed
import CifApi.Data.Rows
import CifApi.Exec.Rules
import CifApi.Parser.Items

/-! The body of a loop, token by token: which value goes to which column of the packet. -/
namespace CifApi

open Exec Scanner

variable {σ : Type}

/-- What a token is to the body of a loop. -/
inductive LoopToken where
  | value | dropped | finish

section Parts

variable (cfg : Config σ)

/-- The next token of a body, as far as the body itself looks at it. -/
def loopToken : Parse σ LoopToken := do
  nextToken cfg
  let s ← read
  match s.ttype with
  | .tkey | .key => do
    splitKey cfg
    pure .value
  | .olist | .otable | .tvalue | .qvalue | .value => pure .value
  | .clist | .ctable => do
    reportToken cfg Code.unexpectedDelim
    modify consumeToken
    pure .dropped
  | _ => pure .finish

/-- The value of the next column, as the item handler leaves it. -/
def packetItem (header : List (Option UStr)) (st : PacketState) : Parse σ Value := do
  when (st.columnIndex = 0) (startPacket cfg)
  let value ← parseValue cfg
  handlePacketItem cfg (header.getD st.columnIndex none) value

/-- A value is put into its column of the packet. -/
def PacketState.put (columns : List (Option Nat)) (st : PacketState) (value : Value) : Packet :=
  match columns.getD st.columnIndex none with
  | some i => st.packet.setValue i value
  | none => st.packet

def putValue (loop : Option Loop) (header : List (Option UStr)) (columns : List (Option Nat))
    (st : PacketState) (value : Value) : Parse σ PacketState := do
  if (st.columnIndex + 1) % header.length = 0 then
    return ⟨← endPacket cfg loop (st.put columns value), 0, true⟩
  else pure ⟨st.put columns value, (st.columnIndex + 1) % header.length, st.havePackets⟩

theorem parsePacketValue_eq (loop : Option Loop) (header : List (Option UStr))
    (columns : List (Option Nat)) (st : PacketState) :
    parsePacketValue cfg loop header columns st
      = packetItem cfg header st >>= putValue cfg loop header columns st := by
  simp only [parsePacketValue, packetItem, bind_assoc]
  rfl

theorem parseLoopToken_eq (loop : Option Loop) (header : List (Option UStr))
    (columns : List (Option Nat)) (st : PacketState) :
    parseLoopToken cfg loop header columns st = loopToken cfg >>= fun
      | .value => Sum.inl <$> parsePacketValue cfg loop header columns st
      | .dropped => pure (.inl st)
      | .finish => Sum.inr <$> endLoopBody cfg loop (header.filterMap id) columns st := by
  simp only [parseLoopToken, loopToken, bind_assoc]
  refine bind_congr fun _ => bind_congr fun s => ?_
  cases s.ttype <;> simp only [bind_assoc, pure_bind, map_eq_pure_bind]

end Parts

section Columns

variable {icu : Icu} {header : List (Option UStr)}

/-- Names that a loop can be created with. -/
structure Icu.Distinct (icu : Icu) (names : List UStr) : Prop where
  valid : ∀ name ∈ names, isValidName name true = true
  nodup : (names.map icu.normalize).Nodup

/-- The packet entries of the columns, from the `k`th entry on. -/
def columnsFrom : Nat → List (Option UStr) → List (Option Nat)
  | _, [] => []
  | k, none :: header => none :: columnsFrom k header
  | k, some _ :: header => some k :: columnsFrom (k + 1) header

theorem length_columnsFrom (k : Nat) (header : List (Option UStr)) :
    (columnsFrom k header).length = header.length := by
  induction header generalizing k with
  | nil => rfl
  | cons name header ih => cases name <;> simp [columnsFrom, ih]

theorem columnsFrom_getElem? {k i j : Nat} : (columnsFrom k header)[i]? = some (some j) ↔
    ∃ name, header[i]? = some (some name) ∧ j = k + ((header.take i).filterMap id).length := by
  induction header generalizing k i with
  | nil => simp [columnsFrom]
  | cons name header ih =>
    cases i with
    | zero => cases name <;> simp [columnsFrom, eq_comm]
    | succ i =>
      cases name with
      | none => simp [columnsFrom, ih]
      | some name =>
        simp only [columnsFrom, List.getElem?_cons_succ, ih, List.take_succ_cons,
          List.filterMap_cons, id_eq, List.length_cons]
        refine exists_congr fun _ => and_congr_right fun _ => ?_
        omega

theorem getElem?_of_getD {columns : List (Option Nat)} {i j : Nat}
    (h : columns.getD i none = some j) :
    columns[i]? = some (some j) := by
  rw [List.getD_eq_getElem?_getD] at h
  cases hcol : columns[i]? with
  | none =>
    rw [hcol] at h
    cases h
  | some column =>
    rw [hcol, Option.getD_some] at h
    rw [h]

/-- The entry of a column is that of its name among those kept. -/
theorem kept_getElem? {i : Nat} {name : UStr} (h : header[i]? = some (some name)) :
    (header.filterMap id)[((header.take i).filterMap id).length]? = some name := by
  obtain ⟨hi, heq⟩ := List.getElem?_eq_some_iff.mp h
  have hsplit : header = header.take i ++ some name :: header.drop (i + 1) := by
    rw [← heq, List.getElem_cons_drop, List.take_append_drop]
  conv_lhs => rw [hsplit]
  rw [List.filterMap_append, List.getElem?_append_right (Nat.le_of_eq (by rw [← hsplit])), ← hsplit,
    Nat.sub_self]
  rfl

/-- No two columns share an entry. -/
theorem columnsFrom_injective {k i i' j : Nat} (h : (columnsFrom k header)[i]? = some (some j))
    (h' : (columnsFrom k header)[i']? = some (some j)) : i = i' := by
  have hlt : ∀ {i i' j j' : Nat}, (columnsFrom k header)[i]? = some (some j) →
      (columnsFrom k header)[i']? = some (some j') → i < i' → j < j' := by
    intro i i' j j' h h' hii
    obtain ⟨name, hname, rfl⟩ := columnsFrom_getElem?.mp h
    obtain ⟨_, _, rfl⟩ := columnsFrom_getElem?.mp h'
    have hle : ((header.take (i + 1)).filterMap id).length
        ≤ ((header.take i').filterMap id).length :=
      ((List.take_prefix_take_left hii).filterMap id).length_le
    have hone : ([some name].filterMap id).length = 1 := rfl
    rw [List.take_add_one, hname, Option.toList_some, List.filterMap_append, List.length_append,
      hone] at hle
    omega
  rcases Nat.lt_trichotomy i i' with hii | hii | hii
  · have := hlt h h' hii
    omega
  · exact hii
  · have := hlt h' h hii
    omega

theorem Packet.create_eq {names : List UStr} (h : icu.Distinct names) :
    Packet.create icu names = .ok (names.map fun name =>
      (icu.normalize name, name, Value.unk)) := by
  refine mapM_eq_ok_map fun name hname => ?_
  rw [Icu.normalizeItemName, if_pos (h.valid name hname)]
  rfl

/-- The entry of a name, where no other has its key. -/
theorem Packet.findIdx_eq {packet : Packet} {names : List UStr} (h : icu.Distinct names)
    (hkeys : packet.map (·.1) = names.map icu.normalize) {k : Nat} {name : UStr}
    (hname : names[k]? = some name) :
    packet.findIdx icu name = .ok k := by
  have hlen : packet.length = names.length := by
    have := congrArg List.length hkeys
    simpa using this
  have hk : k < names.length := (List.getElem?_eq_some_iff.mp hname).1
  have hkey : ∀ i : Nat, packet[i]?.map (·.1) = names[i]?.map icu.normalize := by
    intro i
    rw [← List.getElem?_map, hkeys, List.getElem?_map]
  have hfind : ((List.range packet.length).reverse.find? fun i =>
      packet[i]?.map (·.1) = some (icu.normalize name))
      = some k := by
    cases hf : (List.range packet.length).reverse.find? fun i =>
      packet[i]?.map (·.1) = some (icu.normalize name) with
    | none =>
      have hnone := List.find?_eq_none.mp hf k (by simp [hlen, hk])
      rw [hkey, hname] at hnone
      simp at hnone
    | some i =>
      have hi := List.find?_some hf
      have hmem := List.mem_of_find?_eq_some hf
      rw [List.mem_reverse, List.mem_range, hlen] at hmem
      rw [decide_eq_true_eq, hkey, ← List.getElem?_map] at hi
      have hk' : (names.map icu.normalize)[k]? = some (icu.normalize name) := by
        rw [List.getElem?_map, hname, Option.map_some]
      rw [(List.getElem?_inj (by simpa using hmem) h.nodup).mp (hi.trans hk'.symm)]
  rw [Packet.findIdx, Icu.normalizeItemName, if_pos (h.valid name (List.mem_of_getElem? hname))]
  change (match (List.range packet.length).reverse.find? fun i =>
    packet[i]?.map (·.1) = some (icu.normalize name) with
    | some i => Except.ok i
    | none => Except.error Code.nosuchItem) = _
  rw [hfind]

theorem packetColumns_eq {cfg : Config σ} {packet : Packet}
    (h : cfg.icu.Distinct (header.filterMap id))
    (hkeys : packet.map (·.1) = (header.filterMap id).map cfg.icu.normalize) :
    packetColumns cfg packet header = .ok (columnsFrom 0 header) := by
  have hsuffix : ∀ before rest : List (Option UStr), header = before ++ rest →
      packetColumns cfg packet rest = .ok (columnsFrom (before.filterMap id).length rest) := by
    intro before rest
    induction rest generalizing before with
    | nil => exact fun _ => rfl
    | cons name rest ih =>
      intro heq
      have hrest := ih (before ++ [name]) (by rw [heq, List.append_assoc, List.singleton_append])
      cases name with
      | none =>
        have hnone : ([none] : List (Option UStr)).filterMap id = [] := rfl
        rw [packetColumns, hrest, List.filterMap_append, hnone, List.append_nil]
        rfl
      | some name =>
        have hname : header[before.length]? = some (some name) := by
          rw [heq, List.getElem?_append_right (Nat.le_refl _), Nat.sub_self]
          rfl
        have htake : header.take before.length = before := by
          rw [heq, List.take_left]
        have hname := kept_getElem? hname
        rw [htake] at hname
        rw [packetColumns, Packet.findIdx_eq h hkeys hname, hrest, List.filterMap_append,
          List.length_append]
        rfl
  exact hsuffix [] header rfl

end Columns

section Body

variable {cfg : Config σ} {loop : Option Loop} {header : List (Option UStr)}
  {columns : List (Option Nat)}
  {given : List Value} {st st' : PacketState} {s s₁ s₂ t : Scanner σ} {value : Value}

/-- The packet end handler leaves the packets it is given as they are. -/
def LeavesPackets (cfg : Config σ) : Prop :=
  ∀ packet w, (cfg.handler (.packetEnd packet) w).packet packet = packet

/-- The values that the body has given, in order, when its run from `s₀` has come to a state. -/
inductive InBody (cfg : Config σ) (loop : Option Loop) (header : List (Option UStr))
    (columns : List (Option Nat)) (packet : Packet) (s₀ : Scanner σ) :
    List Value → PacketState → Scanner σ → Prop
  | start : InBody cfg loop header columns packet s₀ [] { packet := packet } s₀
  | dropped {given : List Value} {st : PacketState} {s t : Scanner σ} :
    InBody cfg loop header columns packet s₀ given st s →
      loopToken cfg s = some (.ok .dropped, t) → InBody cfg loop header columns packet s₀ given st t
  | value {given : List Value} {st st' : PacketState} {s s₁ s₂ t : Scanner σ} {value : Value} :
    InBody cfg loop header columns packet s₀ given st s →
      loopToken cfg s = some (.ok .value, s₁) → packetItem cfg header st s₁ = some (.ok value, s₂) →
      putValue cfg loop header columns st value s₂ = some (.ok st', t) →
      InBody cfg loop header columns packet s₀ (given ++ [value]) st' t

theorem ensures_returned {α : Type} (m : Parse σ Unit) (a : α) (s : Scanner σ) :
    Ensures (m >>= fun _ => pure a) s (fun b _ => b = a) fun _ _ => True := by
  rw [Ensures, post_bind, Post]
  rcases m s with _ | ⟨_ | _, _⟩ <;> trivial

theorem endPacket_packet (h : LeavesPackets cfg) {packet packet' : Packet}
    (hrun : endPacket cfg loop packet s = some (.ok packet', t)) : packet' = packet := by
  have hclose : Ensures (closePacket cfg loop packet) s (fun p _ => p = packet) fun _ _ =>
      True := by
    rw [Ensures, closePacket, post_bind, post_read, post_ite]
    refine ⟨fun _ => ensures_returned _ _ _, fun _ => ?_⟩
    rw [recordPacket, post_bind, handlerCallback, post_update]
    dsimp only
    rw [h, post_ite]
    refine ⟨fun _ => ensures_returned _ _ _, fun _ => post_ite.mpr ⟨fun _ => rfl, fun _ => ?_⟩⟩
    exact post_ite.mpr ⟨fun _ => ensures_returned _ _ _, fun _ => ensures_returned _ _ _⟩
  have hend : Ensures (endPacket cfg loop packet) s (fun p _ => p = packet) fun _ _ => True := by
    rw [Ensures, endPacket, post_bind]
    refine hclose.imp ?_ fun _ _ _ => trivial
    rintro p t rfl
    exact ensures_returned _ _ _
  exact hend.of_ok hrun

/-- What the packet holds once `given` has been given to the columns of the header. -/
structure Filled (icu : Icu) (header : List (Option UStr)) (given : List Value) (st : PacketState) :
    Prop where
  columnIndex_eq : st.columnIndex = given.length % header.length
  havePackets_eq : st.havePackets = decide (header.length ≤ given.length)
  keys : st.packet.map (·.1) = (header.filterMap id).map icu.normalize
  cells : ∀ {i j : Nat}, (columnsFrom 0 header)[i]? = some (some j) →
    st.packet[j]?.map (·.2.2) = some ((Rows.cell header.length given i).getD .unk)

theorem Packet.setValue_keys (packet : Packet) (j : Nat) (value : Value) :
    (packet.setValue j value).map (·.1) = packet.map (·.1) := by
  apply List.ext_getElem?
  intro k
  rw [List.getElem?_map, List.getElem?_map, setValue, List.getElem?_modify]
  rw [Option.map_eq_map, Option.map_map]
  congr 1
  funext e
  rw [Function.comp_apply]
  split <;> rfl

theorem Packet.setValue_getElem? (packet : Packet) (j k : Nat) (value : Value) :
    (packet.setValue j value)[k]?.map (·.2.2) = if k = j then packet[k]?.map fun _ => value
      else packet[k]?.map (·.2.2) := by
  rw [setValue, List.getElem?_modify]
  by_cases h : k = j
  · subst h
    simp only [if_true, Option.map_eq_map, Option.map_map]
    rfl
  · simp only [if_neg h, if_neg (Ne.symm h), Option.map_eq_map, Option.map_map]
    rfl

theorem filled_start (h : cfg.icu.Distinct (header.filterMap id)) {packet : Packet}
    (hcreate : Packet.create cfg.icu (header.filterMap id) = .ok packet) (hne : header ≠ []) :
    Filled cfg.icu header [] { packet := packet } := by
  cases (Packet.create_eq h).symm.trans hcreate
  have hpos : 0 < header.length := List.length_pos_iff.mpr hne
  constructor
  · exact (Nat.zero_mod _).symm
  · exact (decide_eq_false (Nat.not_le_of_lt hpos)).symm
  · rw [List.map_map]
    rfl
  · intro i j hij
    obtain ⟨name, hname, rfl⟩ := columnsFrom_getElem?.mp hij
    rw [Nat.zero_add, List.getElem?_map, kept_getElem? hname, Rows.cell_nil]
    rfl

/-- A value put into its column leaves the names of the packet, and the values of its other
columns. -/
theorem Filled.put_packet (h : Filled cfg.icu header given st) (value : Value) :
    (st.put (columnsFrom 0 header) value).map (·.1) = (header.filterMap id).map cfg.icu.normalize
      ∧ ∀ {i j : Nat}, (columnsFrom 0 header)[i]? = some (some j) →
        (st.put (columnsFrom 0 header) value)[j]?.map (·.2.2)
          = some ((Rows.cell header.length (given ++ [value]) i).getD .unk) := by
  constructor
  · rw [PacketState.put]
    split
    · rw [Packet.setValue_keys, h.keys]
    · exact h.keys
  · intro i j hij
    have hi : i < header.length := by
      have hi := (List.getElem?_eq_some_iff.mp hij).1
      rwa [length_columnsFrom] at hi
    rw [Rows.cell_concat hi, ← h.columnIndex_eq, PacketState.put]
    split
    · rename_i j' hj'
      have hput := getElem?_of_getD hj'
      rw [Packet.setValue_getElem?]
      by_cases hcol : i = st.columnIndex
      · subst hcol
        cases hij.symm.trans hput
        have hold := h.cells hij
        obtain ⟨e, he, _⟩ := Option.map_eq_some_iff.mp hold
        rw [if_pos rfl, if_pos rfl, he]
        rfl
      · have hne : j ≠ j' := by
          rintro rfl
          exact hcol (columnsFrom_injective hij hput)
        rw [if_neg hne, if_neg hcol]
        exact h.cells hij
    · rename_i hnone
      have hcol : i ≠ st.columnIndex := by
        rintro rfl
        rw [List.getD_eq_getElem?_getD, hij] at hnone
        cases hnone
      rw [if_neg hcol]
      exact h.cells hij

/-- The value of the last column completes a packet. -/
theorem Filled.complete (h : Filled cfg.icu header given st) (hne : header ≠ [])
    (hlast : (st.columnIndex + 1) % header.length = 0) (value : Value) :
    Filled cfg.icu header (given ++ [value]) ⟨st.put (columnsFrom 0 header) value, 0, true⟩ := by
  obtain ⟨hkeys, hcells⟩ := h.put_packet value
  have hlength : (given ++ [value]).length = given.length + 1 := List.length_append
  rw [h.columnIndex_eq] at hlast
  rcases Rows.length_concat_mod (List.length_pos_iff.mpr hne) given value with ⟨hfull, hzero⟩
    | ⟨hpart, _⟩
  · refine ⟨hzero.symm, ?_, hkeys, hcells⟩
    have hmod := Nat.mod_le given.length header.length
    rw [hlength]
    exact (decide_eq_true (by omega)).symm
  · rw [Nat.mod_eq_of_lt hpart] at hlast
    omega

/-- One more value. -/
theorem Filled.put (h : Filled cfg.icu header given st) (hhandler : LeavesPackets cfg)
    (hne : header ≠ [])
    (hrun : putValue cfg loop header (columnsFrom 0 header) st value s = some (.ok st', t)) :
    Filled cfg.icu header (given ++ [value]) st' := by
  have hnext := Rows.length_concat_mod (List.length_pos_iff.mpr hne) given value
  have hlength : (given ++ [value]).length = given.length + 1 := List.length_append
  rw [putValue] at hrun
  split at hrun
  · rename_i hlast
    rw [bind_apply] at hrun
    split at hrun
    · cases hrun
    · cases hrun
    · rename_i packet t' hend
      cases hrun
      cases endPacket_packet hhandler hend
      exact h.complete hne hlast value
  · rename_i hmore
    cases hrun
    obtain ⟨hkeys, hcells⟩ := h.put_packet value
    rw [h.columnIndex_eq] at hmore
    rcases hnext with ⟨hfull, _⟩ | ⟨hpart, hnext⟩
    · rw [hfull, Nat.mod_self] at hmore
      exact absurd rfl hmore
    · refine ⟨?_, ?_, hkeys, hcells⟩
      · dsimp only
        rw [hnext, h.columnIndex_eq, Nat.mod_eq_of_lt hpart]
      · have hiff : header.length ≤ given.length ↔ header.length ≤ given.length + 1 := by
          constructor
          · exact Nat.le_succ_of_le
          · intro hle
            by_contra hlt
            have hsmall : given.length % header.length = given.length := Nat.mod_eq_of_lt (by omega)
            omega
        dsimp only
        rw [h.havePackets_eq, hlength]
        exact decide_eq_decide.mpr hiff

theorem filled_inBody (h : cfg.icu.Distinct (header.filterMap id)) (hhandler : LeavesPackets cfg)
    (hne : header ≠ []) {packet : Packet}
    (hcreate : Packet.create cfg.icu (header.filterMap id) = .ok packet)
    (hbody : InBody cfg loop header (columnsFrom 0 header) packet s₁ given st s) :
    Filled cfg.icu header given st := by
  induction hbody with
  | start => exact filled_start h hcreate hne
  | dropped _ _ ih => exact ih
  | value _ _ _ hput ih => exact ih.put hhandler hne hput

/-- The value of an item of a packet. -/
def Packet.value? (icu : Icu) (packet : Packet) (name : UStr) : Option Value :=
  match packet.findIdx icu name with
  | .ok j => packet[j]?.map (·.2.2)
  | .error _ => none

theorem Packet.value?_eq {packet : Packet} (h : cfg.icu.Distinct (header.filterMap id))
    (hkeys : packet.map (·.1) = (header.filterMap id).map cfg.icu.normalize) {i : Nat} {name : UStr}
    (hname : header[i]? = some (some name)) :
    ∃ j, (columnsFrom 0 header)[i]? = some (some j)
      ∧ packet.value? cfg.icu name = packet[j]?.map (·.2.2) := by
  refine ⟨((header.take i).filterMap id).length,
    columnsFrom_getElem?.mpr ⟨name, hname, (Nat.zero_add _).symm⟩, ?_⟩
  rw [Packet.value?, Packet.findIdx_eq h hkeys (kept_getElem? hname)]

/-- The entries of `names` that a partial packet's completion takes for names. -/
def Resets (cfg : Config σ) (names : List UStr) (i : Nat) : Prop :=
  i < names.length ∨ names.length < i ∧ cfg.strayName i = true

instance (cfg : Config σ) (names : List UStr) (i : Nat) : Decidable (Resets cfg names i) :=
  inferInstanceAs (Decidable (_ ∨ _))

/-- One column of the completion. -/
def fillColumn (cfg : Config σ) (names : List UStr) (columns : List (Option Nat)) (packet : Packet)
    (i : Nat) : Packet :=
  match columns.getD i none with
  | some j => if Resets cfg names i then packet.setValue j .unk else packet
  | none => packet

theorem fillPacket_eq (names : List UStr) (columns : List (Option Nat)) (columnIndex : Nat)
    (packet : Packet) :
    fillPacket cfg names columns columnIndex packet
      = (List.range (columns.length - columnIndex)).foldl
          (fun packet k => fillColumn cfg names columns packet (columnIndex + k)) packet := by
  rw [fillPacket]
  congr 1
  funext packet k
  have hiff : (decide (columnIndex + k < names.length)
      || (decide (names.length < columnIndex + k) && cfg.strayName (columnIndex + k))) = true
      ↔ Resets cfg names (columnIndex + k) := by
    simp [Resets]
  rw [fillColumn]
  dsimp only
  cases columns.getD (columnIndex + k) none with
  | none => rfl
  | some j => exact if_congr hiff rfl rfl

theorem fillColumn_spec (cfg : Config σ) (header : List (Option UStr)) (names : List UStr)
    (packet : Packet) (i₀ : Nat) :
    (fillColumn cfg names (columnsFrom 0 header) packet i₀).map (·.1) = packet.map (·.1)
      ∧ ∀ {i j : Nat} {v : Value}, (columnsFrom 0 header)[i]? = some (some j) →
        packet[j]?.map (·.2.2) = some v →
        (fillColumn cfg names (columnsFrom 0 header) packet i₀)[j]?.map (·.2.2)
          = some (if i = i₀ ∧ Resets cfg names i then .unk else v) := by
  rw [fillColumn]
  split
  · rename_i j₀ hj₀
    have hcol := getElem?_of_getD hj₀
    split
    · rename_i hreset
      refine ⟨Packet.setValue_keys _ _ _, fun {i j v} hij hv => ?_⟩
      rw [Packet.setValue_getElem?]
      by_cases hi : i = i₀
      · subst hi
        cases hij.symm.trans hcol
        obtain ⟨e, he, _⟩ := Option.map_eq_some_iff.mp hv
        rw [if_pos rfl, if_pos ⟨rfl, hreset⟩, he]
        rfl
      · have hne : j ≠ j₀ := by
          rintro rfl
          exact hi (columnsFrom_injective hij hcol)
        rw [if_neg hne, if_neg fun h => hi h.1, hv]
    · rename_i hkeep
      refine ⟨rfl, fun {i j v} hij hv => ?_⟩
      rw [if_neg, hv]
      rintro ⟨rfl, hreset⟩
      exact hkeep hreset
  · rename_i hnone
    refine ⟨rfl, fun {i j v} hij hv => ?_⟩
    rw [if_neg, hv]
    rintro ⟨rfl, _⟩
    rw [List.getD_eq_getElem?_getD, hij] at hnone
    cases hnone

/-- The completion gives an unknown value to the columns it resets, from the first missing one
on. -/
theorem fillPacket_spec (cfg : Config σ) (header : List (Option UStr)) (names : List UStr)
    (packet : Packet) (columnIndex : Nat) :
    (fillPacket cfg names (columnsFrom 0 header) columnIndex packet).map (·.1) = packet.map (·.1)
      ∧ ∀ {i j : Nat} {v : Value}, (columnsFrom 0 header)[i]? = some (some j) →
        packet[j]?.map (·.2.2) = some v →
        (fillPacket cfg names (columnsFrom 0 header) columnIndex packet)[j]?.map (·.2.2)
          = some (if columnIndex ≤ i ∧ Resets cfg names i then .unk else v) := by
  have hrange : ∀ m : Nat, ∃ filled, (List.range m).foldl
      (fun packet k => fillColumn cfg names (columnsFrom 0 header) packet (columnIndex + k)) packet
        = filled
      ∧ filled.map (·.1) = packet.map (·.1)
      ∧ ∀ {i j : Nat} {v : Value}, (columnsFrom 0 header)[i]? = some (some j) →
        packet[j]?.map (·.2.2) = some v → filled[j]?.map (·.2.2)
          = some (if columnIndex ≤ i ∧ i < columnIndex + m ∧ Resets cfg names i then .unk else
            v) := by
    intro m
    induction m with
    | zero =>
      refine ⟨packet, rfl, rfl, fun {i j v} _ hv => ?_⟩
      rw [if_neg (by omega), hv]
    | succ m ih =>
      obtain ⟨filled, heq, hkeys, hcells⟩ := ih
      rw [List.range_succ, List.foldl_append, heq]
      obtain ⟨hkeys', hcells'⟩ := fillColumn_spec cfg header names filled (columnIndex + m)
      refine ⟨_, rfl, hkeys'.trans hkeys, fun {i j v} hij hv => ?_⟩
      rw [List.foldl_cons, List.foldl_nil, hcells' hij (hcells hij hv)]
      by_cases hi : i = columnIndex + m
      · have hnot : ¬ (columnIndex ≤ i ∧ i < columnIndex + m ∧ Resets cfg names i) := by omega
        have hiff : columnIndex ≤ i ∧ i < columnIndex + (m + 1) ∧ Resets cfg names i ↔
            i = columnIndex + m ∧ Resets cfg names i := by
          constructor
          · exact fun h => ⟨hi, h.2.2⟩
          · exact fun h => ⟨by omega, by omega, h.2⟩
        rw [if_neg hnot, if_congr hiff rfl rfl]
      · have hiff : columnIndex ≤ i ∧ i < columnIndex + (m + 1) ∧ Resets cfg names i ↔
            columnIndex ≤ i ∧ i < columnIndex + m ∧ Resets cfg names i := by
          constructor
          · exact fun h => ⟨h.1, by omega, h.2.2⟩
          · exact fun h => ⟨h.1, by omega, h.2.2⟩
        rw [if_neg fun h => hi h.1, if_congr hiff rfl rfl]
  obtain ⟨filled, heq, hkeys, hcells⟩ := hrange ((columnsFrom 0 header).length - columnIndex)
  rw [fillPacket_eq, heq]
  refine ⟨hkeys, fun {i j v} hij hv => ?_⟩
  have hi := (List.getElem?_eq_some_iff.mp hij).1
  rw [hcells hij hv]
  congr 1
  refine if_congr ?_ rfl rfl
  constructor
  · exact fun h => ⟨h.1, h.2.2⟩
  · exact fun h => ⟨h.1, by omega, h.2⟩

/-- The given values of the packet begun, and the unknown value in its other columns. -/
def Completed (icu : Icu) (header : List (Option UStr)) (given : List Value) (packet : Packet) :
    Prop :=
  ∀ (i : Nat) (name : UStr), header[i]? = some (some name) → packet.value? icu name
    = if i < given.length % header.length then
      given[given.length - given.length % header.length + i]?
      else some .unk

/-- The completion misses a column that is not reset and holds a value of the packet before. -/
theorem completed_fillPacket_iff (hdistinct : cfg.icu.Distinct (header.filterMap id))
    (h : Filled cfg.icu header given st) : Completed cfg.icu header given
        (fillPacket cfg (header.filterMap id) (columnsFrom 0 header) st.columnIndex st.packet)
      ↔ ∀ i name, given.length % header.length ≤ i → header[i]? = some (some name) →
        Resets cfg (header.filterMap id) i ∨ (Rows.cell header.length given i).getD .unk
          = .unk := by
  obtain ⟨hkeys, hcells⟩ :=
    fillPacket_spec cfg header (header.filterMap id) st.packet st.columnIndex
  have hvalue : ∀ {i : Nat} {name : UStr}, header[i]? = some (some name) →
      (fillPacket cfg (header.filterMap id) (columnsFrom 0 header) st.columnIndex st.packet).value?
        cfg.icu name
        = some (if given.length % header.length ≤ i ∧ Resets cfg (header.filterMap id) i then .unk
          else (Rows.cell header.length given i).getD .unk) := by
    intro i name hname
    obtain ⟨j, hij, hj⟩ := Packet.value?_eq hdistinct (hkeys.trans h.keys) hname
    rw [hj, hcells hij (h.cells hij), h.columnIndex_eq]
  unfold Completed
  refine forall_congr' fun i => forall_congr' fun name => ?_
  constructor
  · intro hcompleted hle hname
    have heq := (hvalue hname).symm.trans (hcompleted hname)
    rw [if_neg (Nat.not_lt.mpr hle), Option.some.injEq] at heq
    by_cases hreset : Resets cfg (header.filterMap id) i
    · exact .inl hreset
    · rw [if_neg fun h => hreset h.2] at heq
      exact .inr heq
  · intro hcond hname
    rw [hvalue hname]
    by_cases hlt : i < given.length % header.length
    · have hmod := Nat.mod_le given.length header.length
      have hidx : given.length - given.length % header.length + i < given.length := by omega
      rw [if_neg fun h => Nat.not_lt.mpr h.1 hlt, if_pos hlt, Rows.cell, if_pos hlt,
        List.getElem?_eq_getElem hidx]
      rfl
    · rw [if_neg hlt]
      congr 1
      rcases hcond (Nat.not_lt.mp hlt) hname with hreset | hunk
      · rw [if_pos ⟨Nat.not_lt.mp hlt, hreset⟩]
      · rw [hunk, ite_self]

/-- The values that the body gives up to its end, if `fuel` tokens get there. -/
def bodyValues (cfg : Config σ) (loop : Option Loop) (header : List (Option UStr))
    (columns : List (Option Nat)) :
    Nat → List Value → PacketState → Scanner σ → Option (List Value × PacketState × Scanner σ)
  | 0, _, _, _ => none
  | fuel + 1, given, st, s =>
    match loopToken cfg s with
    | some (.ok .finish, s₂) => some (given, st, s₂)
    | some (.ok .dropped, s₁) => bodyValues cfg loop header columns fuel given st s₁
    | some (.ok .value, s₁) =>
      match packetItem cfg header st s₁ with
      | some (.ok value, s₂) =>
        match putValue cfg loop header columns st value s₂ with
        | some (.ok st', t) => bodyValues cfg loop header columns fuel (given ++ [value]) st' t
        | _ => none
      | _ => none
    | _ => none

theorem inBody_bodyValues {fuel : Nat} {packet : Packet} {s₀ : Scanner σ} {given' : List Value}
    (h : InBody cfg loop header columns packet s₀ given st s)
    (hrun : bodyValues cfg loop header columns fuel given st s = some (given', st', s₂)) :
    ∃ s₁, InBody cfg loop header columns packet s₀ given' st' s₁
      ∧ loopToken cfg s₁ = some (.ok .finish, s₂) := by
  induction fuel generalizing given st s with
  | zero => cases hrun
  | succ fuel ih =>
    rw [bodyValues] at hrun
    split at hrun
    · rename_i hfinish
      cases hrun
      exact ⟨s, h, hfinish⟩
    · rename_i hdropped
      exact ih (h.dropped hdropped) hrun
    · rename_i hvalue
      split at hrun
      · rename_i hitem
        split at hrun
        · rename_i hput
          exact ih (h.value hvalue hitem hput) hrun
        · cases hrun
      · cases hrun
    · cases hrun

end Body

end CifApi
