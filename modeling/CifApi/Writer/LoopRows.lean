import CifApi.Store.ItemRemoval
import CifApi.Store.PacketReuse
import CifApi.Store.Walk

/-! Loops as `cif_write` walks them: the header, and the values of the packets. -/
namespace CifApi

open Exec

/-- What the handlers of `cif_write` print for a loop. -/
inductive Piece where
  | newline
  | loopKeyword
  | name (name : UStr)
  | value (value : Value)

/-- What printing answers: `CIF_OK` or the code of an error, of which none is `CIF_FINISHED`. -/
abbrev PrintCode := {code : Int // code = Code.ok ∨ Code.finished < code}

/-- The context of `cif_write`: what printing works on, whether items are named, and what has been
printed. -/
structure WriteContext (σ : Type) where
  output : σ
  writeItemNames : Bool
  pieces : List Piece

namespace WriteContext

variable {σ : Type} (put : Piece → σ → PrintCode × σ)

def print (piece : Piece) (context : WriteContext σ) : Int × WriteContext σ :=
  let (code, output) := put piece context.output
  (code, { context with
    output
    pieces := context.pieces ++ if code.val = Code.ok then [piece] else [] })

/-- `write_item`. -/
def writeItem (name : UStr) (value : Value) (context : WriteContext σ) : Int × WriteContext σ :=
  if context.writeItemNames then
    let (code, context) := context.print put (.name name)
    if code = Code.ok then context.print put (.value value) else (code, context)
  else context.print put (.value value)

/-- `write_packet_start`, `write_item`, `write_packet_end` and `write_loop_end`. -/
def handler : WalkCall → WriteContext σ → Int × WriteContext σ
  | .item name value, context => context.writeItem put name value
  | .packetEnd _, context => context.print put .newline
  | .loopEnd _, context => context.print put .newline
  | _, context => (Code.traverseContinue, context)

end WriteContext

section Loops

variable {σ : Type} (icu : Icu) (put : Piece → σ → PrintCode × σ)

-- whether what is left in the memory of a freed key still reads as the key
variable (stray : UStr → Bool)

def printPiece (piece : Piece) : Walker (WriteContext σ) Int :=
  update fun w => let (code, user) := w.user.print put piece; (code, { w with user })

def setWriteItemNames (writeItemNames : Bool) : Walker (WriteContext σ) PUnit :=
  modify fun w => { w with user := { w.user with writeItemNames } }

/-- The names of a loop header, up to an error. -/
def writeNames : List UStr → Walker (WriteContext σ) Int
  | [] => return Code.traverseContinue
  | name :: names => do
    let result ← printPiece put (.name name)
    if result = Code.traverseContinue then writeNames names else return result

/-- `write_loop_start`. -/
def writeLoopStart (loop : Loop) : Walker (WriteContext σ) Int := do
  if loop.category = some [] then
    let result ← printPiece put .newline
    if result = Code.ok then
      setWriteItemNames true
      return Code.traverseContinue
    else return result
  else
    setWriteItemNames false
    let result ← printPiece put .loopKeyword
    if result = Code.ok then
      match ← Walk.onCif (·.getNames icu loop) with
      | .error e => return e
      | .ok names => writeNames put names
    else return result

/-- `cif_pktitr_next_packet`, into the packet it was given before if there is one. -/
def fetchPacket (it : PacketIterator) (cif : Cif) :
    Option CifMap → Except Int Unit × Option CifMap × PacketIterator
  | none =>
    match it.nextPacket cif with
    | (.error e, it) => (.error e, none, it)
    | (.ok new, it) => (.ok (), some (PacketIterator.tempMap new), it)
  | some packet =>
    let (result, packet, it) := it.nextPacketInto stray cif packet
    (result, some packet, it)

/-- One round of the loop over the packets. -/
def writeNextPacket : PacketIterator × Option CifMap →
    Walker (WriteContext σ) ((PacketIterator × Option CifMap) ⊕ Int) := fun (it, packet) => do
  match ← Walk.onCif fun cif => (fetchPacket stray it cif packet, cif) with
  | (.error e, _, _) => return .inr e
  | (.ok (), packet, it) =>
    let result ← Walk.walkPacket (WriteContext.handler put) (packet.elim [] CifMap.toPacket)
    if result = Code.traverseContinue ∨ result = Code.traverseSkipCurrent then
      return .inl (it, packet)
    else if result = Code.traverseSkipSiblings then return .inr Code.traverseContinue
    else return .inr result

def writePackets (it : PacketIterator) : Walker (WriteContext σ) Int :=
  Exec.loop (fun w => w.cif.tables.itemValue.length + 1) (writeNextPacket put stray) (it, none)

/-- `walk_loop` with the handlers of `cif_write`. -/
def writeLoop (loop : Loop) : Walker (WriteContext σ) Int := do
  let result ← writeLoopStart icu put loop
  if result ≠ Code.traverseContinue then return result
  else
    match ← Walk.onCif (·.getPackets icu loop) with
    | .error e => return e
    | .ok it =>
      let result ← writePackets put stray it
      -- the error of closing stands back behind an earlier one
      let result : Int := match ← Walk.onCif PacketIterator.close with
        | .error e => if result = Code.finished then e else result
        | .ok () => result
      if result ≠ Code.finished then return result
      else Walk.handlerResult (WriteContext.handler put) (.loopEnd loop)

end Loops

/-- A loop as it is stored: its names, and row by row a value for each of them in their order. -/
def storedPieces (icu : Icu) (loop : Loop) (t : Tables) : List Piece :=
  let names := (Cif.loopItems loop t).map (·.nameOrig)
  .loopKeyword :: names.map .name ++ (rowNumbers (Cif.loopValues loop t)).flatMap (fun row =>
    names.map (fun name =>
      .value ((Tables.valueAt t loop.container.id (icu.normalize name) row).getD .unk))
      ++ [.newline]) ++ [.newline]

section Stored

variable {icu : Icu} {bounded : Prop} {t : Tables} {loop : Loop}

theorem find?_row (h : t.WellFormed icu bounded) {li : LoopItemRow}
    (hli : li ∈ Cif.loopItems loop t) (row : Nat) :
    (((Cif.loopValues loop t).filter (·.rowNum = row)).find? (·.name = li.name)).map (·.value)
      = t.valueAt loop.container.id li.name row := by
  obtain ⟨hitem, hof⟩ := List.mem_filter.mp hli
  obtain ⟨hid, hnum⟩ : li.containerId = loop.container.id ∧ li.loopNum = loop.loopNum := by
    simpa using hof
  rw [Tables.valueAt]
  cases hfind : t.itemValue.find? fun iv => iv.containerId = loop.container.id && iv.name = li.name
    && iv.rowNum = row with
  | none =>
    have hnone : ((Cif.loopValues loop t).filter (·.rowNum = row)).find? (·.name = li.name)
        = none := by
      rw [List.find?_eq_none]
      intro iv hiv hname
      obtain ⟨hvalue, hrow⟩ := List.mem_filter.mp hiv
      obtain ⟨hmem, hcontainer, -⟩ := Tables.mem_loopValues.mp hvalue
      have hno := List.find?_eq_none.mp hfind iv hmem
      simp_all
    rw [hnone]
  | some iv =>
    have hmem := List.mem_of_find?_eq_some hfind
    have hcell := List.find?_some hfind
    obtain ⟨⟨hcontainer, hname⟩, hrow⟩ : (iv.containerId = loop.container.id ∧ iv.name = li.name)
        ∧ iv.rowNum = row := by
      simpa using hcell
    have hvalue : iv ∈ (Cif.loopValues loop t).filter (·.rowNum = row) := by
      refine List.mem_filter.mpr ⟨Tables.mem_loopValues.mpr ⟨hmem, hcontainer, li, hitem, ?_, hnum⟩,
        by simpa using hrow⟩
      rw [Tables.itemKey, hid, hname]
    have hsame : ((Cif.loopValues loop t).filter (·.rowNum = row)).find? (·.name = li.name)
        = some iv := by
      refine ((h.ordered loop).distinct.filter _).find?_eq hvalue fun iv' hiv' => ?_
      have hrow' : iv'.rowNum = row := by simpa using (List.mem_filter.mp hiv').2
      simp [hname, hrow, hrow']
    rw [hsame]

/-- The packets of a loop in the order of their rows, with the values that are stored in these. -/
theorem packets_eq (h : t.WellFormed icu bounded) (loop : Loop) : (Cif.packets loop t).map (·.2)
    = (rowNumbers (Cif.loopValues loop t)).map fun row => (Cif.loopItems loop t).map fun li =>
      (li.name, li.name, (t.valueAt loop.container.id li.name row).getD .unk) := by
  rw [Cif.packets, packetsOf, List.map_map]
  refine List.map_congr_left fun row _ => ?_
  show packetOf _ _ = _
  rw [packetOf, Cif.itemNames, List.map_map]
  refine List.map_congr_left fun li hli => ?_
  show (li.name, li.name, _) = _
  rw [find?_row h hli]

end Stored

/-- Whether printing never fails. -/
def AlwaysPrints {σ : Type} (put : Piece → σ → PrintCode × σ) : Prop :=
  ∀ piece output, (put piece output).1.val = Code.ok

/-- From one context to another all of these pieces are printed, or, with the code of an error, the
first of them; where `clean` holds there is no error. -/
structure Prints {σ : Type} (clean : Prop) (pieces : List Piece) (code : Int)
    (u u' : WriteContext σ) : Prop where
  names : u'.writeItemNames = u.writeItemNames
  answer : code = Code.ok ∨ Code.finished < code
  succeeds : clean → code = Code.ok
  printed : ∃ newer, u'.pieces = u.pieces ++ newer ∧ newer <+: pieces
    ∧ (code = Code.ok → newer = pieces)

namespace Prints

variable {σ : Type} {clean clean' : Prop} {u u' u'' : WriteContext σ} {pieces more : List Piece}
  {code : Int}

theorem nil (clean : Prop) (u : WriteContext σ) : Prints clean [] Code.ok u u :=
  ⟨rfl, .inl rfl, fun _ => rfl, [], by simp, List.prefix_refl _, fun _ => rfl⟩

/-- After an error nothing more is printed. -/
theorem stop (h : Prints clean pieces code u u') (hcode : code ≠ Code.ok) (more : List Piece) :
    Prints clean (pieces ++ more) code u u' := by
  obtain ⟨newer, hpieces, hprefix, -⟩ := h.printed
  exact ⟨h.names, h.answer, h.succeeds, newer, hpieces, hprefix.trans (List.prefix_append _ _),
    fun hok => absurd hok hcode⟩

theorem append (h : Prints clean pieces Code.ok u u') (hmore : Prints clean more code u' u'') :
    Prints clean (pieces ++ more) code u u'' := by
  obtain ⟨newer, hpieces, -, hall⟩ := h.printed
  obtain ⟨newer', hpieces', hprefix', hall'⟩ := hmore.printed
  refine ⟨hmore.names.trans h.names, hmore.answer, hmore.succeeds, newer ++ newer', ?_, ?_, ?_⟩
  · rw [hpieces', hpieces, List.append_assoc]
  · rw [hall rfl]
    exact (List.prefix_append_right_inj _).mpr hprefix'
  · intro hok
    rw [hall rfl, hall' hok]

theorem of_imp (h : Prints clean pieces code u u') (hclean : clean' → clean) :
    Prints clean' pieces code u u' :=
  ⟨h.names, h.answer, fun hc => h.succeeds (hclean hc), h.printed⟩

theorem print (put : Piece → σ → PrintCode × σ) (piece : Piece) (u : WriteContext σ) :
    Prints (AlwaysPrints put) [piece] (u.print put piece).1 u (u.print put piece).2 := by
  refine ⟨rfl, (put piece u.output).1.2, fun h => h piece u.output, _, rfl, ?_, ?_⟩
  · split
    · exact List.prefix_refl _
    · exact List.nil_prefix
  · intro hok
    exact if_pos hok

end Prints

/-- The pieces are printed, or as many as an error allows, and the CIF stays as it is. -/
def Emits {σ : Type} (clean : Prop) (pieces : List Piece) (m : Walker (WriteContext σ) Int)
    (w : Walk (WriteContext σ)) : Prop :=
  ∃ code w', m w = some (.ok code, w') ∧ w'.cif = w.cif ∧ Prints clean pieces code w.user w'.user

section Packets

variable {σ : Type} {icu : Icu} {put : Piece → σ → PrintCode × σ} {stray : UStr → Bool}
  {w : Walk (WriteContext σ)}

/-- The code of an error directs no walk. -/
theorem error_ne {code : Int} (h : Code.finished < code) :
    code ≠ Code.ok ∧ ¬ (code = Code.traverseContinue
    ∨ code = Code.traverseSkipCurrent) ∧ code ≠ Code.traverseSkipSiblings := by
  have hlt : (1 : Int) < code := h
  have hok : Code.ok = 0 := rfl
  have hcontinue : Code.traverseContinue = 0 := rfl
  have hcurrent : Code.traverseSkipCurrent = -1 := rfl
  have hsiblings : Code.traverseSkipSiblings = -2 := rfl
  omega

theorem emits_handlerResult {call : WalkCall} {piece : Piece}
    (hcall : WriteContext.handler put call w.user = w.user.print put piece) :
    Emits (AlwaysPrints put) [piece] (Walk.handlerResult (WriteContext.handler put) call) w := by
  refine ⟨_, _, rfl, rfl, ?_⟩
  show Prints (AlwaysPrints put) [piece] (WriteContext.handler put call w.user).1 w.user
      (WriteContext.handler put call w.user).2
  rw [hcall]
  exact .print put piece w.user

/-- What comes next is written unless there is an error. -/
theorem Emits.bind {clean : Prop} {pieces more : List Piece} {m : Walker (WriteContext σ) Int}
    {k : Int → Walker (WriteContext σ) Int} (hm : Emits clean pieces m w)
    (hstop : ∀ code, Code.finished < code → k code = pure code)
    (hk : ∀ w', w'.cif = w.cif → w'.user.writeItemNames = w.user.writeItemNames →
      Emits clean more (k Code.ok) w') :
    Emits clean (pieces ++ more) (m >>= k) w := by
  obtain ⟨code, w', hrun, hcif, hprints⟩ := hm
  rcases hprints.answer with rfl | hcode
  · obtain ⟨code, w'', hrun', hcif', hprints'⟩ := hk w' hcif hprints.names
    refine ⟨code, w'', ?_, hcif'.trans hcif, hprints.append hprints'⟩
    rw [bind_apply, hrun]
    exact hrun'
  · refine ⟨code, w', ?_, hcif, hprints.stop (error_ne hcode).1 more⟩
    rw [bind_apply, hrun]
    show k code w' = _
    rw [hstop code hcode]
    rfl

theorem emits_walkItems (packet : Packet) (items : List (UStr × UStr × Value))
    (hnames : w.user.writeItemNames = false) :
    Emits (AlwaysPrints put) (items.map (fun e => .value e.2.2) ++ [.newline])
      (Walk.walkItems (WriteContext.handler put) packet items) w := by
  induction items generalizing w with
  | nil => exact emits_handlerResult rfl
  | cons e items ih =>
    obtain ⟨name, orig, value⟩ := e
    have hitem : WriteContext.handler put (.item name value) w.user
        = w.user.print put (.value value) := by
      rw [WriteContext.handler, WriteContext.writeItem, hnames]
      rfl
    refine (emits_handlerResult hitem).bind ?_ ?_
    · intro code hcode
      rw [if_neg (error_ne hcode).2.1, if_neg (error_ne hcode).2.2]
    · intro w' _ hnames'
      exact ih (hnames'.trans hnames)

/-- The values of a packet, and the end of its line. -/
theorem emits_walkPacket (put : Piece → σ → PrintCode × σ) (packet : Packet)
    (hnames : w.user.writeItemNames = false) :
    Emits (AlwaysPrints put) (packet.map (fun e => .value e.2.2) ++ [.newline])
      (Walk.walkPacket (WriteContext.handler put) packet) w :=
  emits_walkItems (w := { w with log := w.log ++ [(.packetStart packet, Code.traverseContinue)] })
    packet packet hnames

theorem toPacket_tempMap (packet : Packet) : (PacketIterator.tempMap packet).toPacket = packet := by
  rw [PacketIterator.tempMap, CifMap.toPacket, List.map_map]
  exact List.map_id' packet

/-- The packet before is one of the same names, if there is one. -/
def Reuses (names : List UStr) (packet : Option CifMap) : Prop :=
  ∀ map, packet = some map → ∃ old : Packet, map = PacketIterator.tempMap old
    ∧ old.map (fun e => (e.1, e.2.1)) = names.map fun name => (name, name)

/-- Whatever packet there was, the next one has its values in the order of the names. -/
theorem fetchPacket_eq (stray : UStr → Bool) {names : List UStr} (hnodup : names.Nodup)
    {it it' : PacketIterator} {cif : Cif} {new : Packet} {packet : Option CifMap}
    (hpacket : Reuses names packet) (hnext : it.nextPacket cif = (.ok new, it'))
    (hnew : new.map (fun e => (e.1, e.2.1)) = names.map fun name => (name, name)) :
    fetchPacket stray it cif packet = (.ok (), some (PacketIterator.tempMap new), it') := by
  cases packet with
  | none => rw [fetchPacket, hnext]
  | some map =>
    obtain ⟨old, rfl, hold⟩ := hpacket map rfl
    have hkeys : new.map (·.1) = names := by
      have hfirst := congrArg (List.map (·.1)) hnew
      rwa [List.map_map, List.map_map, show ((·.1) ∘ fun name : UStr => (name, name)) = id from rfl,
        List.map_id] at hfirst
    have hinto :=
      PacketIterator.nextPacketInto_tempMap stray hnext (hold.trans hnew.symm) (hkeys.symm ▸ hnodup)
    rw [fetchPacket, hinto]

/-- The pieces of packets. -/
def packetPieces (packets : List Packet) : List Piece :=
  packets.flatMap fun packet => packet.map (fun e => .value e.2.2) ++ [.newline]

/-- The packets that are left are printed in turn. -/
theorem emits_rounds {names : List UStr} {it : PacketIterator} {packet : Option CifMap}
    {stage : Iteration.Stage} {k : Nat} (h : Iteration.Matches names ⟨it, w.cif⟩ stage)
    (hk : stage.rest.length < k) (hpacket : Reuses names packet)
    (hrest : ∀ p ∈ stage.rest, p.2.map (fun e => (e.1, e.2.1)) = names.map fun name => (name, name))
    (hnames : w.user.writeItemNames = false) :
    ∃ code w', Exec.rounds (writeNextPacket put stray) k (it, packet) w = some (.ok code, w')
      ∧ w'.cif = w.cif
      ∧ ((code = Code.finished
        ∧ Prints (AlwaysPrints put) (packetPieces (stage.rest.map (·.2))) Code.ok w.user w'.user)
        ∨ (Code.finished < code
          ∧ Prints (AlwaysPrints put)
          (packetPieces (stage.rest.map (·.2))) code w.user w'.user)) := by
  induction k generalizing it packet stage w with
  | zero => omega
  | succ k ih =>
    cases hleft : stage.rest with
    | nil =>
      have hnext := (h.nextPacket_finished hleft).1
      have hfetch : ∃ left, fetchPacket stray it w.cif packet = (.error Code.finished, left) := by
        cases packet with
        | none => exact ⟨_, by rw [fetchPacket, hnext]⟩
        | some map => exact ⟨_, by rw [fetchPacket, PacketIterator.nextPacketInto, hnext]⟩
      obtain ⟨left, hfetch⟩ := hfetch
      refine ⟨Code.finished, w, ?_, rfl, .inl ⟨rfl, .nil _ w.user⟩⟩
      simp only [rounds_succ, writeNextPacket, Walk.onCif, bind_apply, update_apply, hfetch,
        pure_apply]
    | cons first rest =>
      obtain ⟨row, new⟩ := first
      obtain ⟨it', hnext, -, -, hmatches⟩ := h.nextPacket_ok hleft
      have hnew := hrest (row, new) (hleft ▸ List.mem_cons_self ..)
      have hfetch := fetchPacket_eq stray h.nodup hpacket hnext hnew
      obtain ⟨code, w', hrun, hcif, hprints⟩ := emits_walkPacket put new hnames
      have hround : writeNextPacket put stray (it, packet) w = some (.ok (
          if code = Code.traverseContinue ∨ code = Code.traverseSkipCurrent then
            .inl (it', some (PacketIterator.tempMap new))
          else if code = Code.traverseSkipSiblings then .inr Code.traverseContinue else .inr code),
            w') := by
        simp only [writeNextPacket, Walk.onCif, bind_apply, update_apply, hfetch, Option.elim_some,
          toPacket_tempMap]
        rw [hrun]
        dsimp only
        split
        · rfl
        · split
          · rfl
          · rfl
      rw [List.map_cons, packetPieces, List.flatMap_cons]
      rcases hprints.answer with rfl | hcode
      · have hreuses : Reuses names (some (PacketIterator.tempMap new)) := by
          rintro map ⟨⟩
          exact ⟨new, rfl, hnew⟩
        obtain ⟨code, w'', hlater, hcif', hend⟩ := ih (w := w') (by rw [hcif]; exact hmatches)
          (by rw [hleft] at hk; exact Nat.lt_of_succ_lt_succ hk) hreuses
          (fun p hp => hrest p (hleft ▸ List.mem_cons_of_mem _ hp)) (hprints.names.trans hnames)
        refine ⟨code, w'', ?_, hcif'.trans hcif, ?_⟩
        · rw [rounds_succ, bind_apply, hround, if_pos (.inl rfl)]
          exact hlater
        · rcases hend with ⟨hcode, hprints'⟩ | ⟨hcode, hprints'⟩
          · exact .inl ⟨hcode, hprints.append hprints'⟩
          · exact .inr ⟨hcode, hprints.append hprints'⟩
      · refine ⟨code, w', ?_, hcif, .inr ⟨hcode, hprints.stop (error_ne hcode).1 _⟩⟩
        rw [rounds_succ, bind_apply, hround, if_neg (error_ne hcode).2.1,
          if_neg (error_ne hcode).2.2]
        rfl

theorem emits_printPiece (put : Piece → σ → PrintCode × σ) (piece : Piece) :
    Emits (AlwaysPrints put) [piece] (printPiece put piece) w :=
  ⟨_, _, rfl, rfl, .print put piece w.user⟩

theorem emits_writeNames (put : Piece → σ → PrintCode × σ) (names : List UStr) :
    Emits (AlwaysPrints put) (names.map .name) (writeNames put names) w := by
  induction names generalizing w with
  | nil => exact ⟨Code.ok, w, rfl, rfl, .nil _ w.user⟩
  | cons name names ih =>
    refine (emits_printPiece put (.name name)).bind ?_ fun w' _ _ => ih
    intro code hcode
    exact if_neg (error_ne hcode).1

end Packets

section Loops

variable {σ : Type} {icu : Icu} {bounded : Prop} {put : Piece → σ → PrintCode × σ}
  {stray : UStr → Bool} {w : Walk (WriteContext σ)} {loop : Loop} {t : Tables}

/-- The header has the names in the order that they are stored in. -/
theorem writeLoopStart_spec (hordinary : loop.category ≠ some []) : ∃ code w',
    writeLoopStart icu put loop w = some (.ok code, w') ∧ w'.cif.tables = w.cif.tables
      ∧ (w.cif.autocommit = true → w'.cif = w.cif) ∧ w'.user.writeItemNames = false
      ∧ Prints (AlwaysPrints put ∧ Cif.loopItems loop w.cif.tables ≠ [])
      (.loopKeyword :: ((Cif.loopItems loop w.cif.tables).map (·.nameOrig)).map .name) code
        { w.user with writeItemNames := false } w'.user := by
  let w₀ : Walk (WriteContext σ) := { w with user := { w.user with writeItemNames := false } }
  obtain ⟨code, w₁, hrun, hcif, hprints⟩ := @emits_printPiece σ w₀ put .loopKeyword
  have hstart : writeLoopStart icu put loop w = (if code = Code.ok then (do
      match ← Walk.onCif (·.getNames icu loop) with
      | .error e => return e
      | .ok names => writeNames put names) else return code : Walker (WriteContext σ) Int) w₁ := by
    rw [writeLoopStart, if_neg hordinary]
    simp only [setWriteItemNames, bind_apply, modify_apply]
    rw [hrun]
  rw [hstart]
  rcases hprints.answer with rfl | hcode
  · rw [if_pos rfl]
    have htables : w₁.cif.beginNesttx.tables = w.cif.tables := by
      rw [hcif]
      rfl
    have hafter : (w₁.cif.getNames icu loop).2.tables = w.cif.tables := by
      rw [Cif.getNames, Cif.getNamesInternal_tables, hcif]
    have hsame : w.cif.autocommit = true → (w₁.cif.getNames icu loop).2 = w.cif := by
      intro hauto
      have hauto₁ : w₁.cif.autocommit = true := by rwa [hcif]
      rw [Cif.getNames, Cif.getNamesInternal_snd, if_pos hauto₁, hcif]
    by_cases hnone : (Cif.loopItems loop w.cif.tables).map (·.nameOrig) = []
    · have hget : (w₁.cif.getNames icu loop).1 = .error Code.invalidHandle := by
        simp only [Cif.getNames, Cif.getNamesInternal, htables, if_pos hnone]
      have hnoItems : Cif.loopItems loop w.cif.tables = [] := List.map_eq_nil_iff.mp hnone
      have hfails : Prints (AlwaysPrints put
          ∧ Cif.loopItems loop w.cif.tables ≠ []) [.loopKeyword] Code.invalidHandle
          { w.user with writeItemNames := false } w₁.user := by
        obtain ⟨newer, hpieces, hprefix, -⟩ := hprints.printed
        exact ⟨hprints.names, .inr (by decide), fun h => absurd hnoItems h.2, newer, hpieces,
          hprefix, fun h => absurd h (by decide)⟩
      refine ⟨Code.invalidHandle, { w₁ with cif := (w₁.cif.getNames icu loop).2 }, ?_, hafter,
        hsame, hprints.names, hfails.stop (by decide) _⟩
      simp only [Walk.onCif, bind_apply, update_apply, hget, pure_apply]
    · have hget : (w₁.cif.getNames icu loop).1
          = .ok ((Cif.loopItems loop w.cif.tables).map (·.nameOrig)) := by
        simp only [Cif.getNames, Cif.getNamesInternal, htables, if_neg hnone]
        rfl
      obtain ⟨code, w₂, hnames, hcif', hprints'⟩ := @emits_writeNames σ
        { w₁ with cif := (w₁.cif.getNames icu loop).2 } put
          ((Cif.loopItems loop w.cif.tables).map (·.nameOrig))
      refine ⟨code, w₂, ?_, by rw [hcif', hafter], fun hauto => hcif'.trans (hsame hauto),
        hprints'.names.trans hprints.names, (hprints.append hprints').of_imp And.left⟩
      simp only [Walk.onCif, bind_apply, update_apply, hget]
      exact hnames
  · refine ⟨code, w₁, ?_, by rw [hcif], fun _ => hcif, hprints.names,
      (hprints.stop (error_ne hcode).1 _).of_imp And.left⟩
    rw [if_neg (error_ne hcode).1]
    rfl

theorem getPackets_error_ne {cif cif' : Cif} {e : Int}
    (h : cif.getPackets icu loop = (.error e, cif')) : e ≠ Code.ok := by
  rw [Cif.getPackets] at h
  split at h
  · rename_i hget
    cases h
    rw [Cif.getNamesInternal] at hget
    split at hget
    · cases hget
      decide
    · rw [if_pos rfl] at hget
      obtain ⟨name, -, hname⟩ := exists_of_mapM_eq_error (Prod.mk.inj hget).1
      rw [Icu.normalizeItemName] at hname
      split at hname
      · cases hname
      · cases hname
        decide
  · split at h
    · cases h
      decide
    · split at h
      · cases h
        decide
      · cases h

/-- What is stored is what its packets are printed as. -/
theorem storedPieces_eq (h : t.WellFormed icu bounded) (loop : Loop) : storedPieces icu loop t
    = (.loopKeyword :: ((Cif.loopItems loop t).map (·.nameOrig)).map .name)
      ++ packetPieces ((Cif.packets loop t).map (·.2)) ++ [.newline] := by
  have hrow : ∀ row, ((Cif.loopItems loop t).map (·.nameOrig)).map (fun name =>
        Piece.value ((t.valueAt loop.container.id (icu.normalize name) row).getD .unk))
      = ((Cif.loopItems loop t).map fun li =>
        (li.name, li.name, (t.valueAt loop.container.id li.name row).getD .unk)).map fun e =>
          .value e.2.2 := by
    intro row
    rw [List.map_map, List.map_map]
    refine List.map_congr_left fun li hli => ?_
    show Piece.value _ = Piece.value _
    rw [(h.named li (List.mem_filter.mp hli).1).2]
  rw [packets_eq h, storedPieces, packetPieces, List.flatMap_map]
  simp only [hrow]

/-- A loop's header and its packets are printed as they are stored, row by row, up to an error;
there is none where printing never fails, the loop has a packet and no iterator is open. -/
theorem writeLoop_aligned {platform : Platform} {s : Session}
    (hreach : Session.Reachable icu platform s) (hordinary : loop.category ≠ some [])
    (put : Piece → σ → PrintCode × σ) (stray : UStr → Bool) (context : WriteContext σ) :
    ∃ code w newer, writeLoop icu put stray loop ⟨context, s.cif, []⟩ = some (.ok code, w)
      ∧ w.cif.tables = s.cif.tables ∧ w.user.pieces = context.pieces ++ newer
      ∧ newer <+: storedPieces icu loop s.cif.tables
      ∧ (code = Code.ok → newer = storedPieces icu loop s.cif.tables)
      ∧ (AlwaysPrints put → Cif.packets loop s.cif.tables ≠ [] → s.iterator = none → code = Code.ok)
      ∧ (rowNumbers (Cif.loopValues loop s.cif.tables)).Pairwise (· < ·) := by
  have hwell := hreach.wellFormed.tables
  obtain ⟨code, w₁, hstart, htables, hkept, hnames, hprints⟩ := @writeLoopStart_spec σ icu put
    ⟨context, s.cif, []⟩ loop hordinary
  dsimp only at htables hkept hprints
  have hitems : AlwaysPrints put ∧ Cif.packets loop s.cif.tables ≠ [] ∧ s.iterator = none →
      AlwaysPrints put ∧ Cif.loopItems loop s.cif.tables ≠ [] :=
    fun h => ⟨h.1, Walk.loopItems_ne_nil h.2.1⟩
  replace hprints := hprints.of_imp hitems
  suffices hloop : ∃ code w, writeLoop icu put stray loop ⟨context, s.cif, []⟩ = some (.ok code, w)
      ∧ w.cif.tables = s.cif.tables
      ∧ (AlwaysPrints put ∧ Cif.packets loop s.cif.tables ≠ [] ∧ s.iterator = none → code = Code.ok)
      ∧ ∃ newer, w.user.pieces = context.pieces ++ newer
        ∧ newer <+: storedPieces icu loop s.cif.tables
        ∧ (code = Code.ok → newer = storedPieces icu loop s.cif.tables) by
    obtain ⟨code, w, hrun, hcif, hok, newer, hpieces, hprefix, hall⟩ := hloop
    exact ⟨code, w, newer, hrun, hcif, hpieces, hprefix, hall, fun hput hpackets hiter =>
      hok ⟨hput, hpackets, hiter⟩, rowNumbers_strictMono (hwell.ordered loop).sorted⟩
  rw [storedPieces_eq hwell]
  have hbegun : writeLoop icu put stray loop ⟨context, s.cif, []⟩
      = (if code ≠ Code.traverseContinue then return code
      else do
        match ← Walk.onCif (·.getPackets icu loop) with
        | .error e => return e
        | .ok it =>
          let result ← writePackets put stray it
          let result : Int := match ← Walk.onCif PacketIterator.close with
            | .error e => if result = Code.finished then e else result
            | .ok () => result
          if result ≠ Code.finished then return result
          else Walk.handlerResult (WriteContext.handler put) (.loopEnd loop) :
            Walker (WriteContext σ) Int) w₁ := by
    rw [writeLoop, bind_apply, hstart]
  rw [hbegun]
  rcases hprints.answer with rfl | hcode
  swap
  · refine ⟨code, w₁, ?_, htables, hprints.succeeds,
      ((hprints.stop (error_ne hcode).1 _).stop (error_ne hcode).1 _).printed⟩
    rw [if_pos (error_ne hcode).1]
    rfl
  rw [if_neg (not_not.mpr rfl)]
  rcases hget : w₁.cif.getPackets icu loop with ⟨result, cif'⟩
  cases result with
  | error e =>
    obtain ⟨newer, hpieces, -, hall⟩ := hprints.printed
    have hbegins : ¬ (AlwaysPrints put ∧ Cif.packets loop s.cif.tables ≠ []
        ∧ s.iterator = none) := by
      rintro ⟨_, hpackets, hiter⟩
      have hauto : s.cif.autocommit = true := by
        rw [Cif.autocommit, hreach.no_transaction hiter]; rfl
      obtain ⟨it, hbegun⟩ := (Walk.getPackets_eq hwell hpackets).1 hauto
      rw [hkept hauto, hbegun] at hget
      cases hget
    refine ⟨e, { w₁ with cif := cif' }, ?_, (PacketIterator.getPackets_error hget).2.trans htables,
      fun h => absurd h hbegins, newer, hpieces, ?_,
      fun hok => absurd hok (getPackets_error_ne hget)⟩
    · simp only [Walk.onCif, bind_apply, update_apply, hget, pure_apply]
    · rw [hall rfl, List.append_assoc]
      exact List.prefix_append _ _
  | ok it =>
    obtain ⟨-, hmatches, -⟩ := (htables ▸ hwell : w₁.cif.tables.WellFormed icu _).matches hget
    have hcif' : cif'.tables = s.cif.tables := hmatches.tables.symm.trans htables
    have hlength : (Cif.packets loop w₁.cif.tables).length < cif'.tables.itemValue.length + 1 := by
      rw [hcif', htables]
      exact Nat.lt_succ_of_le (Walk.length_packets_le loop)
    have hrows : ∀ p ∈ Cif.packets loop w₁.cif.tables, p.2.map (fun e => (e.1, e.2.1))
        = (Cif.itemNames loop w₁.cif.tables).map fun name => (name, name) := by
      intro p hp
      obtain ⟨row, -, rfl⟩ := List.mem_map.mp hp
      exact List.map_map
    obtain ⟨code, w₂, hrounds, hcif, hend⟩ :=
      @emits_rounds σ put stray { w₁ with cif := cif' } _ it none _ _
      hmatches hlength (fun map hmap => by cases hmap) hrows hnames
    have hclose : PacketIterator.close w₂.cif = (.ok (), w₂.cif.commit) := by
      rw [hcif, PacketIterator.close, if_neg (by rw [hmatches.isOpen]; exact Bool.false_ne_true)]
    have hthen : (do
        match ← Walk.onCif (·.getPackets icu loop) with
        | .error e => return e
        | .ok it =>
          let result ← writePackets put stray it
          let result : Int := match ← Walk.onCif PacketIterator.close with
            | .error e => if result = Code.finished then e else result
            | .ok () => result
          if result ≠ Code.finished then return result
          else Walk.handlerResult (WriteContext.handler put) (.loopEnd loop) :
            Walker (WriteContext σ) Int) w₁
        = (if code ≠ Code.finished then return code
          else Walk.handlerResult (WriteContext.handler put) (.loopEnd loop) :
            Walker (WriteContext σ) Int)
          { w₂ with cif := w₂.cif.commit } := by
      simp only [Walk.onCif, bind_apply, update_apply, hget]
      rw [show writePackets put stray it { w₁ with cif := cif' } = some (.ok code, w₂) from hrounds]
      simp only [hclose]
    rw [hthen]
    rw [htables] at hend
    have hcommit : w₂.cif.commit.tables = s.cif.tables := (congrArg Cif.tables hcif).trans hcif'
    rcases hend with ⟨rfl, hprints'⟩ | ⟨hcode, hprints'⟩
    · obtain ⟨code, w₃, hlast, hcif₃, hprints₃⟩ :=
        @emits_handlerResult σ put { w₂ with cif := w₂.cif.commit } (.loopEnd loop) .newline rfl
      have hall := (hprints.append (hprints'.of_imp And.left)).append (hprints₃.of_imp And.left)
      refine ⟨code, w₃, ?_, by rw [hcif₃, hcommit], hall.succeeds, hall.printed⟩
      rw [if_neg (not_not.mpr rfl)]
      exact hlast
    · have hall := (hprints.append (hprints'.of_imp And.left)).stop (error_ne hcode).1 [.newline]
      refine ⟨code, { w₂ with cif := w₂.cif.commit }, ?_, hcommit, hall.succeeds, hall.printed⟩
      rw [if_pos (by omega)]
      rfl

/-- A loop of two packets, printed without an error. -/
theorem writeLoop_twoPackets :
    ∃ w, writeLoop Icu.ascii (fun _ u => (⟨Code.ok, .inl rfl⟩, u)) (fun _ => true)
      Iteration.twoPacketsLoop ⟨⟨(), true, []⟩, Iteration.twoPackets.cif, []⟩
        = some (.ok Code.ok, w)
    ∧ w.user.pieces
      = storedPieces Icu.ascii Iteration.twoPacketsLoop Iteration.twoPackets.cif.tables := by
  obtain ⟨code, w, newer, hrun, -, hpieces, -, hall, hok, -⟩ :=
    writeLoop_aligned Iteration.reachable_twoPackets
    (by decide : Iteration.twoPacketsLoop.category ≠ some []) (fun _ u =>
      (⟨Code.ok, .inl rfl⟩, u)) (fun _ => true)
    ⟨(), true, []⟩
  obtain rfl : code = Code.ok := hok (fun _ _ => rfl) (by decide +kernel) (by decide +kernel)
  exact ⟨w, hrun, by rw [hpieces, hall rfl]; rfl⟩

end Loops

end CifApi
