import CifApi.Data.Keyed
import CifApi.Exec.Discipline
import CifApi.Parser.LoopBody
import CifApi.Parser.Parse

/-! The last packet of a loop that has fewer values than the loop has columns. -/
namespace CifApi

open Exec Scanner

variable {σ : Type} {cfg : Config σ} {loop : Option Loop} {header : List (Option UStr)}
  {columns : List (Option Nat)}
  {names : List UStr} {given : List Value} {st : PacketState} {s s₁ s₂ t : Scanner σ}
    {packet : Packet}

section Events

/-- Every event that a run adds to the log has a property. -/
def adding (P : Event σ → Prop) : Discipline Int (Scanner σ) where
  step s t := ∃ newer, t.log = newer ++ s.log ∧ ∀ e ∈ newer, P e
  halt _ s t := ∃ newer, t.log = newer ++ s.log ∧ ∀ e ∈ newer, P e
  refl s := ⟨[], rfl, by simp⟩
  trans := by
    rintro s t r ⟨newer, ht, hnewer⟩ ⟨newest, hr, hnewest⟩
    refine ⟨newest ++ newer, by rw [hr, ht, List.append_assoc], fun e he => ?_⟩
    exact (List.mem_append.mp he).elim (hnewest e) (hnewer e)
  step_halt := by
    rintro _ s t r ⟨newer, ht, hnewer⟩ ⟨newest, hr, hnewest⟩
    refine ⟨newest ++ newer, by rw [hr, ht, List.append_assoc], fun e he => ?_⟩
    exact (List.mem_append.mp he).elim (hnewest e) (hnewer e)

variable {P : Event σ → Prop}

theorem adding_push {s t : Scanner σ} {e : Event σ} (ht : t.log = e :: s.log) (he : P e) :
    (adding P).step s t :=
  ⟨[e], ht, by simpa using he⟩

theorem adds_stop {α : Type} (e : Int) : Keeps True (adding P) (stop e : Parse σ α) :=
  .stop fun s => ⟨[], rfl, by simp⟩

theorem adds_report (herror : ∀ r c w, P (.error r c w)) (code : Int) (line column : Nat)
    (text : List UChar) :
    Keeps True (adding P) (report cfg code line column text) :=
  .bind (.update fun _ => adding_push rfl (herror _ _ _)) fun _ => .when fun _ => adds_stop _

/-- The end of a packet adds calls of the handler and of the store with that packet only. -/
theorem adds_endPacket (hhandler : LeavesPackets cfg)
    (hcall : ∀ c w, P (.handler (.packetEnd packet) c w))
    (hstore : ∀ l cif c w, P (.store (.addPacket l packet) cif c w)) (hleave : P (.leave .packet)) :
    Keeps True (adding P) (endPacket cfg loop packet) := by
  have hskip : ∀ g : Scanner σ → Scanner σ, (∀ s, (g s).log = s.log) →
      Keeps True (adding P) (modify g : Parse σ Unit) :=
    fun g hg => .modify fun s => ⟨[], hg s, by simp⟩
  have hadd : Keeps True (adding P) (addPacket cfg packet loop) := by
    cases loop with
    | none => exact .pure _
    | some loop =>
      refine .bind (.operate (.inl trivial) fun s r t hrun => ?_) fun r => ?_
      · obtain ⟨⟨r', cif⟩, -, heq⟩ := Option.map_eq_some_iff.mp hrun
        cases heq
        exact adding_push rfl (hstore _ _ _ _)
      cases r with
      | ok a => exact .pure _
      | error e => exact adds_stop e
  have hrecord : Keeps True (adding P) (recordPacket cfg loop packet) := by
    intro s
    rw [recordPacket, post_bind, handlerCallback, post_update]
    dsimp only
    rw [hhandler]
    have hrest : Keeps True (adding P) (do
        if (cfg.handler (.packetEnd packet) s.world).code = Code.traverseContinue then
          addPacket cfg packet loop
        else if (cfg.handler (.packetEnd packet) s.world).code = Code.traverseSkipCurrent then
          pure ()
        else if (cfg.handler (.packetEnd packet) s.world).code = Code.traverseSkipSiblings then
          modify (·.setSkipDepth 1)
        else stop (cfg.handler (.packetEnd packet) s.world).code
        pure packet) :=
      .ite (fun _ => .bind hadd fun _ => .pure _) fun _ => .ite (fun _ => .pure _) fun _ =>
        .ite (fun _ => .bind (hskip _ fun _ => rfl) fun _ => .pure _) fun _ => .bind (adds_stop _)
          fun _ => .pure _
    refine (hrest _).imp (fun _ t h => ?_) fun _ t h => ?_
    · exact (adding P).trans (adding_push rfl (hcall _ _)) h
    · exact (adding P).trans (adding_push rfl (hcall _ _)) h
  have hclose : Keeps True (adding P) (closePacket cfg loop packet) :=
    .bind .read fun s => .ite (fun _ => .bind (hskip _ fun _ => rfl) fun _ => .pure _) fun _ =>
      hrecord
  exact .bind hclose fun _ => .bind (.modify fun _ => adding_push rfl hleave) fun _ => .pure _

end Events

/-- The packet that an event hands to `cif_loop_add_packet`. -/
def Event.recorded : Event σ → Option Packet
  | .store (.addPacket _ packet) .. => some packet
  | _ => none

/-- The packets handed to `cif_loop_add_packet` on the way from `s` to `t`. -/
def recordedSince (s t : Scanner σ) : List Packet :=
  (t.log.take (t.log.length - s.log.length)).filterMap Event.recorded

theorem mem_recordedSince {P : Event σ → Prop} (h : (adding P).step s t)
    (hmem : packet ∈ recordedSince s t) :
    ∃ e, P e ∧ e.recorded = some packet := by
  obtain ⟨newer, ht, hnewer⟩ := h
  have hlength : t.log.length - s.log.length = newer.length := by
    rw [ht, List.length_append, Nat.add_sub_cancel]
  rw [recordedSince, hlength, ht, List.take_left] at hmem
  obtain ⟨e, he, hrecorded⟩ := List.mem_filterMap.mp hmem
  exact ⟨e, hnewer e he, hrecorded⟩

/-- The end of the body records the packet as it is completed. -/
theorem recorded_endLoopBody (hhandler : LeavesPackets cfg) (hbegun : st.columnIndex ≠ 0)
    {r : Except Int Unit} (hrun : endLoopBody cfg loop names columns st s = some (r, t))
    (hmem : packet ∈ recordedSince s t) :
    packet = fillPacket cfg names columns st.columnIndex st.packet := by
  have hadds : Keeps True (adding fun e : Event σ => ∀ p, e.recorded = some p →
      p = fillPacket cfg names columns st.columnIndex st.packet)
        (endLoopBody cfg loop names columns st) := by
    refine .ite (fun _ => .bind (.bind .read fun _ => adds_report ?_ _ _ _ _) fun _ => .bind
      (adds_endPacket hhandler ?_ ?_ ?_) fun _ => .pure _) fun h => absurd hbegun h
    · rintro r c w p ⟨⟩
    · rintro c w p ⟨⟩
    · rintro l cif c w p ⟨⟩
      rfl
    · rintro p ⟨⟩
  have hstep : (adding fun e : Event σ => ∀ p, e.recorded = some p →
      p = fillPacket cfg names columns st.columnIndex st.packet).step s t := by
    have h := hadds s
    rw [Post, hrun] at h
    cases r with
    | ok a => exact h
    | error e => exact h
  obtain ⟨e, he, hrecorded⟩ := mem_recordedSince hstep hmem
  exact he packet hrecorded

/-- The start of a body: the packet that is filled, and its entry for each column. -/
def openPackets (cfg : Config σ) (header : List (Option UStr)) :
    Parse σ (Packet × List (Option Nat)) := do
  let packet ← ofResult (← storeCall (.createPacket (header.filterMap id))
    fun cif => (Packet.create cfg.icu (header.filterMap id), cif))
  return (packet, ← ofResult (packetColumns cfg packet header))

theorem parseLoopPackets_eq (cfg : Config σ) (loop : Option Loop) (header : List (Option UStr)) :
    parseLoopPackets cfg loop header = openPackets cfg header >>= fun p =>
      Exec.loop tokenBound (parseLoopToken cfg loop header p.2) { packet := p.1 } := by
  simp only [parseLoopPackets, openPackets, bind_assoc, pure_bind]

theorem openPackets_eq {columns : List (Option Nat)}
    (h : openPackets cfg header s = some (.ok (packet, columns), t)) :
    Packet.create cfg.icu (header.filterMap id) = .ok packet
      ∧ (cfg.icu.Distinct (header.filterMap id) → columns = columnsFrom 0 header) := by
  obtain ⟨r, s₁, hstore, hrest⟩ := Exec.bind_eq_ok.mp h
  cases hstore
  obtain ⟨fresh, s₂, hcreate, hrest⟩ := Exec.bind_eq_ok.mp hrest
  cases hfresh : Packet.create cfg.icu (header.filterMap id) with
  | error e =>
    rw [hfresh] at hcreate
    cases hcreate
  | ok created =>
    rw [hfresh] at hcreate
    cases hcreate
    obtain ⟨found, s₃, hfound, hpair⟩ := Exec.bind_eq_ok.mp hrest
    cases hpair
    refine ⟨rfl, fun hdistinct => ?_⟩
    cases (Packet.create_eq hdistinct).symm.trans hfresh
    rw [packetColumns_eq hdistinct (by rw [List.map_map]; rfl)] at hfound
    cases hfound
    rfl

/-- A run of `parse_loop_packets` from `s` whose body has given `given` ends it with a token at
`s₂`, and is in `t` after what it does then. -/
inductive EndsBody (cfg : Config σ) (loop : Option Loop) (header : List (Option UStr))
    (s : Scanner σ) (given : List Value) (s₂ t : Scanner σ) (r : Except Int Unit) : Prop
  | intro {packet : Packet} {columns : List (Option Nat)} {s₀ s₁ : Scanner σ} {st : PacketState}
      (hopen : openPackets cfg header s = some (.ok (packet, columns), s₀))
      (hbody : InBody cfg loop header columns packet s₀ given st s₁)
      (hfinish : loopToken cfg s₁ = some (.ok .finish, s₂))
      (hend : endLoopBody cfg loop (header.filterMap id) columns st s₂ = some (r, t))

/-- What a round that goes on has done. -/
theorem InBody.round {given : List Value} {st' : PacketState} {s₀ : Scanner σ}
    (h : InBody cfg loop header columns packet s₀ given st s)
    (hrun : parseLoopToken cfg loop header columns st s = some (.ok (.inl st'), t)) :
    ∃ given', InBody cfg loop header columns packet s₀ given' st' t := by
  rw [parseLoopToken_eq] at hrun
  obtain ⟨token, s₁, htoken, hrest⟩ := Exec.bind_eq_ok.mp hrun
  cases token with
  | value =>
    obtain ⟨st₁, hvalue, hst⟩ := map_eq_ok.mp hrest
    cases hst
    rw [parsePacketValue_eq] at hvalue
    obtain ⟨value, s₂, hitem, hput⟩ := Exec.bind_eq_ok.mp hvalue
    exact ⟨given ++ [value], h.value htoken hitem hput⟩
  | dropped =>
    cases hrest
    exact ⟨given, h.dropped htoken⟩
  | finish =>
    obtain ⟨_, _, hne⟩ := map_eq_ok.mp hrest
    cases hne

/-- A round that ends the body. -/
theorem finish_of_round (hrun : parseLoopToken cfg loop header columns st s
    = some (.ok (.inr ()), t)) :
    ∃ s₂, loopToken cfg s = some (.ok .finish, s₂)
      ∧ endLoopBody cfg loop (header.filterMap id) columns st s₂ = some (.ok (), t) := by
  rw [parseLoopToken_eq] at hrun
  obtain ⟨token, s₂, htoken, hrest⟩ := Exec.bind_eq_ok.mp hrun
  cases token with
  | value =>
    obtain ⟨_, _, hne⟩ := map_eq_ok.mp hrest
    cases hne
  | dropped => cases hrest
  | finish =>
    obtain ⟨_, hend, _⟩ := map_eq_ok.mp hrest
    exact ⟨s₂, htoken, hend⟩

/-- Every run of `parse_loop_packets` that succeeds comes to the end of the body. -/
theorem endsBody_of_run (hrun : parseLoopPackets cfg loop header s = some (.ok (), t)) :
    ∃ given s₂, EndsBody cfg loop header s given s₂ t (.ok ()) := by
  rw [parseLoopPackets_eq, bind_apply] at hrun
  split at hrun
  · cases hrun
  · cases hrun
  · rename_i p s₀ hopen
    obtain ⟨st, s₁, ⟨given, hbody⟩, hlast⟩ := exists_lastRound
      (I := fun st s => ∃ given, InBody cfg loop header p.2 p.1 s₀ given st s)
      (fun _ _ _ _ h hround => h.choose_spec.round hround) ⟨[], .start⟩ hrun
    obtain ⟨s₂, hfinish, hend⟩ := finish_of_round hlast
    exact ⟨given, s₂, .intro hopen hbody hfinish hend⟩

theorem nodup_of_addLoopItems {container : Container} {loopNum : Nat} {names : List (UStr × UStr)}
    {tables tables' : Tables} (h : Cif.addLoopItems container loopNum names tables = some tables') :
    (names.map (·.1)).Nodup ∧
      ∀ key ∈ names.map (·.1), ∀ li ∈ tables.loopItem, li.containerId = container.id →
        li.name ≠ key := by
  induction names generalizing tables with
  | nil => exact ⟨List.nodup_nil, by simp⟩
  | cons name names ih =>
    obtain ⟨key, orig⟩ := name
    obtain ⟨tables₁, hadd, hrest⟩ := Option.bind_eq_some_iff.mp h
    obtain ⟨hnodup, hfresh⟩ := ih hrest
    rw [Cif.addLoopItem] at hadd
    split at hadd
    · cases hadd
    · rename_i hnone
      cases hadd
      rw [Bool.or_eq_true, not_or, List.any_eq_true] at hnone
      refine ⟨List.nodup_cons.mpr ⟨?_, hnodup⟩, ?_⟩
      · intro hmem
        exact hfresh key hmem ⟨container.id, key, orig, loopNum⟩
          (List.mem_append_right _ (List.mem_singleton_self _)) rfl rfl
      · intro k hk li hli hid
        rcases List.mem_cons.mp hk with rfl | hk
        · rintro rfl
          exact hnone.1 ⟨li, hli, by simp [hid]⟩
        · exact hfresh k hk li (List.mem_append_left _ hli) hid

theorem keys_of_mapM {icu : Icu} {names : List UStr} {pairs : List (UStr × UStr)}
    (h : List.Forall₂ (fun name pair =>
      (do return (← icu.normalizeItemName name Code.invalidItemname, name)) = .ok pair)
      names pairs) :
    pairs.map (·.1) = names.map icu.normalize ∧ ∀ name ∈ names, isValidName name true = true := by
  induction h with
  | nil => exact ⟨rfl, by simp⟩
  | @cons name pair names pairs hname _ ih =>
    rw [Icu.normalizeItemName] at hname
    split at hname
    · rename_i hvalid
      cases hname
      exact ⟨congrArg _ ih.1, List.forall_mem_cons.mpr ⟨hvalid, ih.2⟩⟩
    · cases hname

/-- A loop that has been created has names it can be created with. -/
theorem distinct_of_createLoop {icu : Icu} {cif : Cif} {container : Container}
    {category : Option UStr} {names : List UStr} {loop : Loop}
    (h : (cif.createLoop icu container category names).1 = .ok loop) :
    icu.Distinct names ∧ names ≠ [] := by
  rw [Cif.createLoop] at h
  split at h
  · cases h
  · rename_i hne
    refine ⟨?_, hne⟩
    split at h
    · cases h
    · rename_i pairs hpairs
      have hkeys : pairs.map (·.1) = names.map icu.normalize
          ∧ ∀ name ∈ names, isValidName name true = true :=
        keys_of_mapM (forall₂_of_mapM_eq_ok hpairs)
      rw [Cif.createLoopInternal] at h
      split at h
      · cases h
      · split at h
        · cases h
        · rename_i hitems
          refine ⟨hkeys.2, ?_⟩
          rw [← hkeys.1]
          exact (nodup_of_addLoopItems hitems).1

/-- The packet recorded at the end of a body that stops within a packet is completed if and only if
the columns without a value are among those reset, or hold the unknown value already. -/
theorem partialPacket_iff {cif : Cif} {container : Container} {category : Option UStr} {loop : Loop}
    (hloop : (cif.createLoop cfg.icu container category (header.filterMap id)).1 = .ok loop)
    (hhandler : LeavesPackets cfg) {r : Except Int Unit}
    (hend : EndsBody cfg (some loop) header s given s₂ t r)
    (hbegun : given.length % header.length ≠ 0) (hrecorded : packet ∈ recordedSince s₂ t) :
    Completed cfg.icu header given packet
      ↔ ∀ i name, given.length % header.length ≤ i → header[i]? = some (some name) →
        Resets cfg (header.filterMap id) i ∨ (Rows.cell header.length given i).getD .unk
          = .unk := by
  obtain ⟨hopen, hbody, _, hrun⟩ := hend
  obtain ⟨hdistinct, hnames⟩ := distinct_of_createLoop hloop
  have hne : header ≠ [] := by
    rintro rfl
    exact hnames rfl
  obtain ⟨hcreate, hcolumns⟩ := openPackets_eq hopen
  have hfilled := filled_inBody hdistinct hhandler hne hcreate (hcolumns hdistinct ▸ hbody)
  rw [recorded_endLoopBody hhandler ?_ hrun hrecorded, hcolumns hdistinct]
  · exact completed_fillPacket_iff hdistinct hfilled
  · rw [hfilled.columnIndex_eq]
    exact hbegun

/-- The values that a body gives, and the scanner at its end and after it, if `fuel` tokens get
there. -/
def bodyRun (cfg : Config σ) (loop : Option Loop) (header : List (Option UStr)) (fuel : Nat)
    (s : Scanner σ) :
    Option (List Value × Scanner σ × Scanner σ) :=
  match openPackets cfg header s with
  | some (.ok (packet, columns), s₀) =>
    match bodyValues cfg loop header columns fuel [] { packet := packet } s₀ with
    | some (given, st, s₂) =>
      match endLoopBody cfg loop (header.filterMap id) columns st s₂ with
      | some (.ok (), t) => some (given, s₂, t)
      | _ => none
    | none => none
  | _ => none

theorem endsBody_bodyRun {fuel : Nat} (h : bodyRun cfg loop header fuel s = some (given, s₂, t)) :
    EndsBody cfg loop header s given s₂ t (.ok ()) := by
  rw [bodyRun] at h
  split at h
  · rename_i hopen
    split at h
    · rename_i hvalues
      split at h
      · rename_i hend
        cases h
        obtain ⟨s₁, hbody, hfinish⟩ := inBody_bodyValues .start hvalues
        exact .intro hopen hbody hfinish hend
      · cases h
    · cases h
  · cases h

/-- A packet recorded at the end of a body, found by running it. -/
theorem exists_recorded (cfg : Config σ) (loop : Loop) (header : List (Option UStr)) (s : Scanner σ)
    (fuel k : Nat) (p : Packet → Bool) (h : (bodyRun cfg (some loop) header fuel s).any (fun run =>
      run.1.length = k && (recordedSince run.2.1 run.2.2).any p) = true) :
    ∃ given s₂ t packet, EndsBody cfg (some loop) header s given s₂ t (.ok ()) ∧ given.length = k
      ∧ packet ∈ recordedSince s₂ t ∧ p packet = true := by
  cases hrun : bodyRun cfg (some loop) header fuel s with
  | none =>
    rw [hrun] at h
    cases h
  | some run =>
    obtain ⟨given, s₂, t⟩ := run
    rw [hrun, Option.any_some, Bool.and_eq_true, decide_eq_true_eq, List.any_eq_true] at h
    obtain ⟨hlength, packet, hmem, hp⟩ := h
    exact ⟨given, s₂, t, packet, endsBody_bodyRun hrun, hlength, hmem, hp⟩

section Sample

/-- Three columns, of which the first is a duplicate of an item there is. -/
def sampleHeader : List (Option UStr) := [none, some (units "_b"), some (units "_c")]

def sampleConfig : Config Unit := Config.initV2 (Options.create .ignoring .ascii .exact 2)

def sampleBlock : Container := ⟨1, units "x", units "x", none⟩

def sampleCif : Cif := (Cif.createBlock .ascii (units "x") {}).2

def sampleLoop : Loop := ⟨sampleBlock, 0, none⟩

def sampleScanner (text : String) : Scanner Unit :=
  Scanner.initial [units text] ⟨(),
    (sampleCif.createLoop .ascii sampleBlock none (sampleHeader.filterMap id)).2⟩

theorem sampleLoop_created :
    (sampleCif.createLoop sampleConfig.icu sampleBlock none (sampleHeader.filterMap id)).1
      = .ok sampleLoop := by
  decide +kernel

/-- With a single packet there is nothing to keep. -/
theorem partialPacket_iff_single : ∃ given s₂ t packet,
    EndsBody sampleConfig (some sampleLoop) sampleHeader (sampleScanner " 1") given s₂ t (.ok ())
      ∧ packet ∈ recordedSince s₂ t ∧ (Completed sampleConfig.icu sampleHeader given packet
        ↔ ∀ i name, given.length % sampleHeader.length ≤ i → sampleHeader[i]? = some (some name) →
          Resets sampleConfig (sampleHeader.filterMap id) i
            ∨ (Rows.cell sampleHeader.length given i).getD .unk = .unk) := by
  obtain ⟨given, s₂, t, packet, hend, hlength, hmem, _⟩ :=
    exists_recorded sampleConfig sampleLoop sampleHeader (sampleScanner " 1") 9 1
    (fun _ => true) (by decide +kernel)
  refine ⟨given, s₂, t, packet, hend, hmem,
    partialPacket_iff sampleLoop_created (fun _ _ => rfl) hend ?_ hmem⟩
  rw [hlength]
  decide

def Value.isUnk : Value → Bool
  | .unk => true
  | _ => false

/-- The last column of the second packet keeps the value of the first. -/
theorem partialPacket_keeps : ∃ given s₂ t packet,
    EndsBody sampleConfig (some sampleLoop) sampleHeader (sampleScanner " 1 2 3 4") given s₂ t
      (.ok ())
      ∧ given.length % sampleHeader.length ≠ 0 ∧ packet ∈ recordedSince s₂ t
      ∧ ¬ Completed sampleConfig.icu sampleHeader given packet := by
  obtain ⟨given, s₂, t, packet, hend, hlength, hmem, hvalue⟩ :=
    exists_recorded sampleConfig sampleLoop sampleHeader
    (sampleScanner " 1 2 3 4") 9 4 (fun packet => (packet.value? .ascii (units "_c")).any
      fun value => !value.isUnk)
    (by decide +kernel)
  refine ⟨given, s₂, t, packet, hend, by rw [hlength]; decide, hmem, fun h => ?_⟩
  have hc := h 2 (units "_c") rfl
  rw [hlength, if_neg (by decide)] at hc
  have hicu : sampleConfig.icu = .ascii := rfl
  rw [← hicu, hc] at hvalue
  cases hvalue

end Sample

end CifApi
