import CifApi.Data.Traversal
import CifApi.Exec.Rules
import CifApi.Store.Iteration

/-! The walk through a stored CIF, and the traversal that its documentation describes. -/
namespace CifApi

open Exec

/-- A call of one of the callbacks of a handler, with its arguments. -/
inductive WalkCall where
  | cifStart
  | cifEnd
  | blockStart (block : Container)
  | blockEnd (block : Container)
  | frameStart (frame : Container)
  | frameEnd (frame : Container)
  | loopStart (loop : Loop)
  | loopEnd (loop : Loop)
  | packetStart (packet : Packet)
  | packetEnd (packet : Packet)
  | item (name : UStr) (value : Value)

/-- The handler's own data, the CIF, and the calls made so far with their answers. -/
structure Walk (σ : Type) where
  user : σ
  cif : Cif
  log : List (WalkCall × Int) := []

abbrev Walker (σ : Type) := Exec Empty (Walk σ)

namespace Walk

variable {σ : Type} (icu : Icu) (handler : WalkCall → σ → Int × σ)

/-- `HANDLER_RESULT`; an absent callback is one that answers `CIF_TRAVERSE_CONTINUE` and does
nothing. -/
def handlerResult (call : WalkCall) : Walker σ Int :=
  update fun w =>
    let (code, user) := handler call w.user
    (code, { w with user, log := w.log ++ [(call, code)] })

def onCif {α : Type} (f : Cif → α × Cif) : Walker σ α :=
  update fun w => ((f w.cif).1, { w with cif := (f w.cif).2 })

def walkItem (name : UStr) (value : Value) : Walker σ Int :=
  handlerResult handler (.item name value)

/-- The items of a packet, and its end. -/
def walkItems (packet : Packet) : List (UStr × UStr × Value) → Walker σ Int
  | [] => handlerResult handler (.packetEnd packet)
  | (name, _, value) :: items => do
    let result ← walkItem handler name value
    if result = Code.traverseContinue ∨ result = Code.traverseSkipCurrent then
      walkItems packet items
    else if result = Code.traverseSkipSiblings then return Code.traverseContinue
    else return result

def walkPacket (packet : Packet) : Walker σ Int := do
  let result ← handlerResult handler (.packetStart packet)
  if result ≠ Code.traverseContinue then return result
  else walkItems handler packet packet

/-- One round of the loop over the packets of a loop. -/
def walkNextPacket (it : PacketIterator) : Walker σ (PacketIterator ⊕ Int) := do
  match ← onCif fun cif => (it.nextPacket cif, cif) with
  | (.error e, _) => return .inr e
  | (.ok packet, it) =>
    let result ← walkPacket handler packet
    if result = Code.traverseContinue ∨ result = Code.traverseSkipCurrent then return .inl it
    else if result = Code.traverseSkipSiblings then return .inr Code.traverseContinue
    else return .inr result

def walkPackets (it : PacketIterator) : Walker σ Int :=
  Exec.loop (fun w => w.cif.tables.itemValue.length + 1) (walkNextPacket handler) it

/-- What `walk_loop` does with the iterator. -/
def walkIterated (loop : Loop) (it : PacketIterator) : Walker σ Int := do
  let result ← walkPackets handler it
  -- the error of closing stands back behind an earlier one
  let result : Int := match ← onCif PacketIterator.close with
    | .error e => if result = Code.finished then e else result
    | .ok () => result
  if result ≠ Code.finished then return result
  else handlerResult handler (.loopEnd loop)

def walkLoop (loop : Loop) : Walker σ Int := do
  let result ← handlerResult handler (.loopStart loop)
  if result ≠ Code.traverseContinue then return result
  else
    match ← onCif (·.getPackets icu loop) with
    | .error e => return e
    | .ok it => walkIterated handler loop it

def walkLoopList : Int → List Loop → Walker σ Int
  | result, [] => return result
  | _, loop :: loops => do
    let result ← walkLoop icu handler loop
    if result = Code.traverseContinue ∨ result = Code.traverseSkipCurrent then
      walkLoopList result loops
    else return result

def walkLoops (container : Container) : Walker σ Int := do
  match ← onCif (·.getAllLoops container) with
  | .error e => return e
  | .ok loops => walkLoopList icu handler Code.ok loops

/-- The frames of a container: a result to return at once, or none where its loops come next. -/
def walkFrames (walkFrame : Container → Walker σ Int) : List Container → Walker σ (Option Int)
  | [] => return none
  | frame :: frames => do
    let result ← walkFrame frame
    if result = Code.traverseContinue ∨ result = Code.traverseSkipCurrent then
      walkFrames walkFrame frames
    else if result = Code.traverseSkipSiblings then return none
    else return some result

/-- `walk_container`, for its recursive calls given as a parameter. -/
def walkContainerWith (self : Container × Nat → Walker σ Int) (container : Container)
    (depth : Nat) :
    Walker σ Int := do
  let result ← handlerResult handler (if depth ≠ 0 then .frameStart container else
      .blockStart container)
  if result ≠ Code.traverseContinue then return result
  else
    let frames ← onCif fun cif => (cif.getAllFrames container, cif)
    match ← walkFrames (fun frame => self (frame, depth + 1)) frames with
    | some result => return result
    | none =>
      let result ← walkLoops icu handler container
      if result = Code.traverseContinue ∨ result = Code.traverseSkipCurrent then
        handlerResult handler (if depth ≠ 0 then .frameEnd container else .blockEnd container)
      else if result = Code.traverseSkipSiblings then return Code.traverseContinue
      else return result

/-- Frames have later containers than their parents, which bounds the depth. -/
def walkContainer : Container × Nat → Walker σ Int :=
  Exec.fix (fun w => w.cif.tables.lastId + 1) fun self i =>
    walkContainerWith icu handler self i.1 i.2

/-- Whether a code directs a walk, so that the whole walk returns `CIF_OK` for it. -/
def isDirection (result : Int) : Bool :=
  result = Code.traverseContinue || result = Code.traverseSkipCurrent
    || result = Code.traverseSkipSiblings || result = Code.traverseEnd

/-- The data blocks and the end of the CIF. -/
def walkBlocks : List Container → Walker σ Int
  | [] => do
    let result ← handlerResult handler .cifEnd
    return if isDirection result then Code.ok else result
  | block :: blocks => do
    let result ← walkContainer icu handler (block, 0)
    if result = Code.traverseContinue ∨ result = Code.traverseSkipCurrent then walkBlocks blocks
    else if result = Code.traverseSkipSiblings ∨ result = Code.traverseEnd then return Code.ok
    else return result

/-- `cif_walk`. -/
def cifWalk : Walker σ Int := do
  let result ← handlerResult handler .cifStart
  if result = Code.traverseContinue then
    let blocks ← onCif fun cif => (cif.getAllBlocks, cif)
    walkBlocks icu handler blocks
  else return if isDirection result then Code.ok else result

end Walk

namespace Tables

variable (t : Tables)

def itemElement (item : UStr × UStr × Value) : Element WalkCall := .leaf (.item item.1 item.2.2)

def packetElement (packet : Packet) : Element WalkCall :=
  .node (.packetStart packet) [] (packet.map itemElement) (.packetEnd packet)

def loopElement (loop : Loop) : Element WalkCall :=
  .node (.loopStart loop) [] ((Cif.packets loop t).map fun p => packetElement p.2) (.loopEnd loop)

/-- Handles on the loops of a container. -/
def loopsOf (container : Container) : List Loop :=
  (t.loop.filter (·.containerId = container.id)).map fun l => ⟨container, l.loopNum, l.category⟩

/-- A container with its frames, down to a depth, and its loops. -/
def containerElement : (fuel depth : Nat) → Container → Element WalkCall
  | 0, depth, container =>
    .node (if depth ≠ 0 then .frameStart container else .blockStart container) []
    ((t.loopsOf container).map t.loopElement)
    (if depth ≠ 0 then .frameEnd container else .blockEnd container)
  | fuel + 1, depth, container =>
    .node (if depth ≠ 0 then .frameStart container else .blockStart container)
      ((Cif.getAllFrames container { tables := t }).map (containerElement fuel (depth + 1)))
      ((t.loopsOf container).map t.loopElement)
      (if depth ≠ 0 then .frameEnd container else .blockEnd container)

/-- What a CIF is to a traversal. -/
def element : Element WalkCall :=
  .node .cifStart [] ((Cif.getAllBlocks { tables := t }).map (t.containerElement (t.lastId + 1) 0))
    .cifEnd

end Tables

section Nesting

variable {icu : Icu} {bounded : Prop} {t : Tables}

theorem Tables.WellFormed.lt_of_mem_getAllFrames (h : t.WellFormed icu bounded)
    {container frame : Container} (hframe : frame ∈ Cif.getAllFrames container { tables := t }) :
    container.id < frame.id ∧ ∃ c ∈ t.container, c.id = frame.id := by
  obtain ⟨f, hf, rfl⟩ := List.mem_map.mp hframe
  obtain ⟨hf, hparent⟩ := List.mem_filter.mp hf
  have hparent : f.parentId = container.id := of_decide_eq_true hparent
  exact ⟨hparent ▸ h.nested f hf, h.frames f hf⟩

theorem Tables.WellFormed.getAllFrames_eq_nil (h : t.WellFormed icu bounded) {container : Container}
    (hlast : t.lastId < container.id) : Cif.getAllFrames container { tables := t } = [] := by
  refine List.eq_nil_iff_forall_not_mem.mpr fun frame hframe => ?_
  obtain ⟨hlt, c, hc, hid⟩ := h.lt_of_mem_getAllFrames hframe
  have := h.ids_le c hc
  omega

end Nesting

namespace Walk

variable {σ : Type} {icu : Icu} {handler : WalkCall → σ → Int × σ} {t : Tables} {isOpen : Bool}

/-- What a code asks a walk for. -/
def direction (code : Int) : Direction Int :=
  if code = Code.traverseContinue then .goOn
  else if code = Code.traverseSkipCurrent then .skipCurrent
  else if code = Code.traverseSkipSiblings then .skipSiblings
  else .stop code

/-- What `cif_walk` is to return at the end of a traversal. -/
def resultOf : Direction Int → Int
  | .stop code => if code = Code.traverseEnd then Code.ok else code
  | _ => Code.ok

/-- The answers that lead a walk astray: `CIF_FINISHED` from inside a packet, and, while some other
iteration is open, to begin a loop at all. -/
def Slips (isOpen : Bool) (e : WalkCall × Int) : Prop :=
  match e.1 with
  | .packetStart _ | .packetEnd _ | .item _ _ => e.2 = Code.finished
  | .loopStart _ => isOpen = true ∧ e.2 = Code.traverseContinue
  | _ => False

/-- The CIF has the tables, and whether a transaction is open on it. -/
structure Stands (t : Tables) (isOpen : Bool) (w : Walk σ) : Prop where
  tables : w.cif.tables = t
  isOpen : w.cif.autocommit = !isOpen

/-- A walk next to the traversal it is to be: the same, or, after a slip, one that goes on where the
traversal has stopped, or stops where the traversal goes on. -/
inductive Compares (isOpen : Bool) :
    Direction Int × σ × List (WalkCall × Int) → Direction Int × σ × List (WalkCall × Int) →
      Prop where
  | same {d u newer} (hheeded : ∀ e ∈ newer, ¬ Slips isOpen e) :
    Compares isOpen (d, u, newer) (d, u, newer)
  | beyond {code d u u' newer extra} (hslip : ∃ e ∈ newer, Slips isOpen e) (hextra : extra ≠ []) :
    Compares isOpen (.stop code, u, newer) (d, u', newer ++ extra)
  | short {code d u u' newer extra} (hslip : ∃ e ∈ newer, Slips isOpen e) (hextra : extra ≠ []) :
    Compares isOpen (d, u, newer ++ extra) (.stop code, u', newer)

/-- From any state of the CIF the walk compares with the traversal. -/
def Tracks {ρ : Type} (t : Tables) (isOpen : Bool) (of : ρ → Direction Int)
    (f : Visit WalkCall Int σ) (m : Walker σ ρ) : Prop :=
  ∀ w, Stands t isOpen w → ∃ r w' newer, m w = some (.ok r, w') ∧ Stands t isOpen w' ∧
    w'.log = w.log ++ newer ∧ Compares isOpen (f w.user) (of r, w'.user, newer)

section Tracking

variable {ρ ρ' : Type} {of : ρ → Direction Int} {of' : ρ' → Direction Int}

theorem Compares.prepend {d d' : Direction Int} {u u' : σ}
    {older newer newer' : List (WalkCall × Int)} (hheeded : ∀ e ∈ older, ¬ Slips isOpen e)
    (h : Compares isOpen (d, u, newer) (d', u', newer')) :
    Compares isOpen (d, u, older ++ newer) (d', u', older ++ newer') := by
  cases h with
  | same hnewer =>
    refine .same fun e he => ?_
    rcases List.mem_append.mp he with hold | hnew
    · exact hheeded e hold
    · exact hnewer e hnew
  | beyond hslip hextra =>
    obtain ⟨e, he, hs⟩ := hslip
    rw [← List.append_assoc]
    exact .beyond ⟨e, List.mem_append_right _ he, hs⟩ hextra
  | short hslip hextra =>
    obtain ⟨e, he, hs⟩ := hslip
    rw [← List.append_assoc]
    exact .short ⟨e, List.mem_append_right _ he, hs⟩ hextra

theorem Tracks.pure {r : ρ} {d : Direction Int} (h : of r = d) :
    Tracks (σ := σ) t isOpen of (Visit.ret d) (Pure.pure r) := by
  intro w hw
  exact ⟨r, w, [], rfl, hw, by simp, h ▸ .same (by simp)⟩

/-- A walk and a traversal that both go on after comparable parts. -/
theorem Tracks.bind {f : Visit WalkCall Int σ} {m : Walker σ ρ}
    {k : Direction Int → Visit WalkCall Int σ} {g : ρ → Walker σ ρ'} (hm : Tracks t isOpen of f m)
    (hstop : ∀ c, k (.stop c) = Visit.ret (.stop c))
    (hk : ∀ r, (of r).stops = false → Tracks t isOpen of' (k (of r)) (g r))
    (hg : ∀ r c, of r = .stop c → ∃ r', g r = Pure.pure r' ∧ of' r' = .stop c) :
    Tracks t isOpen of' (f.bind k) (m >>= g) := by
  intro w hw
  obtain ⟨r, w', newer, hrun, hw', hlog, hcompares⟩ := hm w hw
  have hthen : ∃ r' w'' newer', g r w' = some (.ok r', w'') ∧ Stands t isOpen w'' ∧
      w''.log = w'.log ++ newer'
        ∧ Compares isOpen (k (of r) w'.user) (of' r', w''.user, newer') := by
    cases hd : of r with
    | stop c =>
      obtain ⟨r', hgr, hr'⟩ := hg r c hd
      rw [hgr, hstop, ← hr']
      exact Tracks.pure rfl w' hw'
    | goOn | skipCurrent | skipSiblings =>
      rw [← hd]
      exact hk r (by simp [hd, Direction.stops]) w' hw'
  obtain ⟨r', w'', newer', hrun', hw'', hlog', hcompares'⟩ := hthen
  refine ⟨r', w'', newer ++ newer', ?_, hw'', by rw [hlog', hlog, List.append_assoc], ?_⟩
  · rw [bind_apply, hrun]
    exact hrun'
  · rcases hf : f w.user with ⟨d, u, older⟩
    simp only [Visit.bind, hf] at hcompares ⊢
    generalize hdr : of r = dr at hcompares hcompares'
    cases hcompares with
    | same hheeded => exact hcompares'.prepend hheeded
    | beyond hslip hextra =>
      simp only [hstop, Visit.ret, List.append_nil, List.append_assoc]
      exact .beyond hslip (by simp [hextra])
    | short hslip hextra =>
      obtain ⟨r'', hgr, hr''⟩ := hg r _ hdr
      rw [hgr] at hrun'
      obtain ⟨hr, rfl⟩ := Prod.mk.inj (Option.some.inj hrun')
      obtain rfl := Except.ok.inj hr
      obtain rfl : newer' = [] := by simpa using hlog'
      rw [hr'', List.append_nil, List.append_assoc]
      exact .short hslip (by simp [hextra])

end Tracking

theorem direction_cases (code : Int) :
    code = Code.traverseContinue ∧ direction code = .goOn
      ∨ code = Code.traverseSkipCurrent ∧ direction code = .skipCurrent
      ∨ code = Code.traverseSkipSiblings ∧ direction code = .skipSiblings
      ∨ code ≠ Code.traverseContinue ∧ code ≠ Code.traverseSkipCurrent
        ∧ code ≠ Code.traverseSkipSiblings ∧ direction code = .stop code := by
  unfold direction
  by_cases h0 : code = Code.traverseContinue
  · exact .inl ⟨h0, if_pos h0⟩
  · by_cases h1 : code = Code.traverseSkipCurrent
    · exact .inr (.inl ⟨h1, by rw [if_neg h0, if_pos h1]⟩)
    · by_cases h2 : code = Code.traverseSkipSiblings
      · exact .inr (.inr (.inl ⟨h2, by rw [if_neg h0, if_neg h1, if_pos h2]⟩))
      · exact .inr (.inr (.inr ⟨h0, h1, h2, by rw [if_neg h0, if_neg h1, if_neg h2]⟩))

theorem direction_eq_stop {code c : Int} (h : direction code = .stop c) : code = c := by
  rcases direction_cases code with ⟨_, hd⟩ | ⟨_, hd⟩ | ⟨_, hd⟩ | ⟨_, _, _, hd⟩ <;> simp_all

section Packets

variable {ρ ρ' : Type} {of : ρ → Direction Int} {of' : ρ' → Direction Int}

/-- The walk is the traversal, whatever is answered. -/
def Mirrors (of : ρ → Direction Int) (f : Visit WalkCall Int σ) (m : Walker σ ρ) : Prop :=
  ∀ w, ∃ r, m w = some (.ok r, { w with user := (f w.user).2.1, log := w.log ++ (f w.user).2.2 })
    ∧ of r = (f w.user).1

theorem Mirrors.pure {r : ρ} {d : Direction Int} (h : of r = d) :
    Mirrors (σ := σ) of (Visit.ret d) (Pure.pure r) :=
  fun w => ⟨r, by simp [Visit.ret], h⟩

theorem Mirrors.bind {f : Visit WalkCall Int σ} {m : Walker σ ρ}
    {k : Direction Int → Visit WalkCall Int σ} {g : ρ → Walker σ ρ'} (hm : Mirrors of f m)
    (hk : ∀ r, Mirrors of' (k (of r)) (g r)) :
    Mirrors of' (f.bind k) (m >>= g) := by
  intro w
  obtain ⟨r, hrun, hr⟩ := hm w
  obtain ⟨r', hrun', hr'⟩ := hk r { w with user := (f w.user).2.1, log := w.log ++ (f w.user).2.2 }
  rw [hr] at hrun' hr'
  refine ⟨r', ?_, hr'⟩
  rw [bind_apply, hrun]
  simp only [hrun', Visit.bind, List.append_assoc]

theorem mirrors_handlerResult (call : WalkCall) :
    Mirrors direction (Visit.ask handler direction call) (handlerResult handler call) :=
  fun _ => ⟨_, rfl, rfl⟩

theorem mirrors_walkItems (packet : Packet) (items : List (UStr × UStr × Value)) :
    Mirrors direction ((Element.visitAll handler direction (items.map Tables.itemElement)).bind
      (Visit.afterChildren (Visit.ask handler direction (.packetEnd packet))))
      (walkItems handler packet items) := by
  induction items with
  | nil =>
    rw [List.map_nil, Element.visitAll, Visit.ret_bind]
    exact mirrors_handlerResult _
  | cons item items ih =>
    obtain ⟨name, orig, value⟩ := item
    rw [List.map_cons, Element.visitAll, Visit.bind_assoc]
    refine Mirrors.bind (mirrors_handlerResult (.item name value)) fun r => ?_
    rcases direction_cases r with ⟨hr, hd⟩ | ⟨hr, hd⟩ | ⟨hr, hd⟩ | ⟨h0, h1, h2, hd⟩
    · rw [hd, if_pos (.inl hr)]
      exact ih
    · rw [hd, if_pos (.inr hr)]
      exact ih
    · rw [hd, if_neg (by simp [hr]), if_pos hr, Visit.afterSibling, Visit.ret_bind]
      · exact .pure rfl
      all_goals simp
    · rw [hd, if_neg (by simp [h0, h1]), if_neg h2, Visit.afterSibling, Visit.ret_bind]
      · exact .pure hd
      all_goals simp

theorem mirrors_walkPacket (handler : WalkCall → σ → Int × σ) (packet : Packet) :
    Mirrors direction (Element.visit handler direction (Tables.packetElement packet))
      (walkPacket handler packet) := by
  rw [Tables.packetElement, Element.visit]
  refine Mirrors.bind (mirrors_handlerResult _) fun r => ?_
  rcases direction_cases r with ⟨hr, hd⟩ | ⟨hr, hd⟩ | ⟨hr, hd⟩ | ⟨h0, h1, h2, hd⟩
  · rw [hd, if_neg (by simp [hr]), Visit.inside, Element.visitAll, Visit.ret_bind]
    exact mirrors_walkItems packet packet
  · rw [hd, if_pos (by simp [hr])]
    exact .pure (hr ▸ hd)
  · rw [hd, if_pos (by simp [hr])]
    exact .pure (hr ▸ hd)
  · rw [hd, if_pos h0]
    exact .pure hd

/-- The code that the loop over packets leaves for the way a traversal of them ends. -/
def packetsResult : Direction Int → Int
  | .stop code => code
  | .skipSiblings => Code.traverseContinue
  | _ => Code.finished

/-- The packets that are left are visited in turn. -/
theorem rounds_walkNextPacket {names : List UStr} {it : PacketIterator} {stage : Iteration.Stage}
    {k : Nat} {w : Walk σ} (h : Iteration.Matches names ⟨it, w.cif⟩ stage)
    (hk : stage.rest.length < k) :
    ∃ r, Exec.rounds (walkNextPacket handler) k it w = some (.ok r, { w with
        user := (Element.visitAll handler direction
          (stage.rest.map fun p => Tables.packetElement p.2) w.user).2.1
        log := w.log ++ (Element.visitAll handler direction
          (stage.rest.map fun p => Tables.packetElement p.2) w.user).2.2 })
      ∧ r = packetsResult (Element.visitAll handler direction
          (stage.rest.map fun p => Tables.packetElement p.2) w.user).1 := by
  induction k generalizing it stage w with
  | zero => omega
  | succ k ih =>
    cases hrest : stage.rest with
    | nil =>
      have hnext := (h.nextPacket_finished hrest).1
      simp only at hnext
      refine ⟨Code.finished, ?_, rfl⟩
      simp only [rounds_succ, walkNextPacket, onCif, bind_apply, update_apply, hnext, pure_apply,
        List.map_nil, Element.visitAll, Visit.ret, List.append_nil]
    | cons first rest =>
      obtain ⟨row, packet⟩ := first
      obtain ⟨it', hnext, -, -, hmatches⟩ := h.nextPacket_ok hrest
      simp only at hnext
      obtain ⟨r, hrun, hr⟩ := mirrors_walkPacket handler packet w
      simp only [List.map_cons, Element.visitAll, Visit.bind]
      generalize hvisit : Element.visit handler direction (Tables.packetElement packet) w.user
        = visited at hrun hr ⊢
      obtain ⟨d, u, newer⟩ := visited
      obtain rfl : direction r = d := hr
      have hround : walkNextPacket handler it w = some (.ok (
          if r = Code.traverseContinue ∨ r = Code.traverseSkipCurrent then .inl it'
          else if r = Code.traverseSkipSiblings then .inr Code.traverseContinue else .inr r),
          { w with user := u, log := w.log ++ newer }) := by
        simp only [walkNextPacket, onCif, bind_apply, update_apply, hnext]
        rw [hrun]
        simp only
        split
        · rfl
        · split <;> rfl
      have hlater := ih (w := { w with user := u, log := w.log ++ newer }) hmatches (by
        simp only [hrest, List.length_cons] at hk
        exact Nat.lt_of_succ_lt_succ hk)
      rcases direction_cases r with ⟨hr, hd⟩ | ⟨hr, hd⟩ | ⟨hr, hd⟩ | ⟨h0, h1, h2, hd⟩
      · obtain ⟨r', hrun', hr'⟩ := hlater
        refine ⟨r', ?_, by rw [hd]; exact hr'⟩
        rw [rounds_succ, bind_apply, hround, if_pos (.inl hr), hd]
        simpa [Visit.afterSibling] using hrun'
      · obtain ⟨r', hrun', hr'⟩ := hlater
        refine ⟨r', ?_, by rw [hd]; exact hr'⟩
        rw [rounds_succ, bind_apply, hround, if_pos (.inr hr), hd]
        simpa [Visit.afterSibling] using hrun'
      · refine ⟨Code.traverseContinue, ?_, by rw [hd]; rfl⟩
        rw [rounds_succ, bind_apply, hround, if_neg (by simp [hr]), if_pos hr, hd]
        simp [Visit.afterSibling, Visit.ret]
      · refine ⟨r, ?_, by rw [hd]; rfl⟩
        rw [rounds_succ, bind_apply, hround, if_neg (by simp [h0, h1]), if_neg h2, hd]
        simp [Visit.afterSibling, Visit.ret]

end Packets

section Loops

variable {bounded : Prop}

theorem loopItems_ne_nil {loop : Loop} (h : Cif.packets loop t ≠ []) :
    Cif.loopItems loop t ≠ [] := by
  intro hnil
  refine h ?_
  have hvalues : Cif.loopValues loop t = [] := by
    refine List.eq_nil_iff_forall_not_mem.mpr fun iv hiv => ?_
    obtain ⟨_, _, li, hli, hkey, hnum⟩ := Tables.mem_loopValues.mp hiv
    have hmem : li ∈ Cif.loopItems loop t :=
      List.mem_filter.mpr ⟨hli, by simp [(Prod.mk.inj hkey).1, hnum]⟩
    simp [hnil] at hmem
  rw [Cif.packets, hvalues]
  rfl

/-- What comes of beginning to iterate over a loop that has a packet. -/
theorem getPackets_eq {cif : Cif} (h : cif.tables.WellFormed icu bounded) {loop : Loop}
    (hpackets : Cif.packets loop cif.tables ≠ []) :
    (cif.autocommit = true →
        ∃ it, cif.getPackets icu loop = (.ok it, { cif with saved := [cif.tables] }))
      ∧ (cif.autocommit = false → cif.getPackets icu loop
        = (.error Code.error, cif.beginNesttx)) := by
  have hsnd : (cif.getNamesInternal icu loop true).2 = if cif.autocommit then cif
      else cif.beginNesttx :=
    Cif.getNamesInternal_snd loop true
  have hfst : ∃ names, (cif.getNamesInternal icu loop true).1 = .ok names := by
    have hne : (Cif.loopItems loop cif.tables).map (·.nameOrig) ≠ [] := by
      simpa using loopItems_ne_nil hpackets
    have hnames : ((Cif.loopItems loop cif.tables).map (·.nameOrig)).mapM
          (fun name => icu.normalizeItemName name Code.internalError)
        = .ok (((Cif.loopItems loop cif.tables).map (·.nameOrig)).map icu.normalize) := by
      refine mapM_eq_ok_map fun name hname => ?_
      obtain ⟨li, hli, rfl⟩ := List.mem_map.mp hname
      rw [Icu.normalizeItemName, if_pos (h.named li (List.mem_filter.mp hli).1).1]
    have htables : cif.beginNesttx.tables = cif.tables := rfl
    refine ⟨((Cif.loopItems loop cif.tables).map (·.nameOrig)).map icu.normalize, ?_⟩
    simp only [Cif.getNamesInternal, htables, if_neg hne, if_true, hnames]
  obtain ⟨names, hnames⟩ := hfst
  have hget : cif.getNamesInternal icu loop true
      = (.ok names, if cif.autocommit then cif else cif.beginNesttx) :=
    Prod.ext hnames hsnd
  have hvalues : Cif.loopValues loop cif.tables ≠ [] := by
    intro hnil
    exact hpackets (by rw [Cif.packets, hnil]; rfl)
  refine ⟨?_, ?_⟩
  · intro hauto
    have hsaved : cif.saved = [] := by simpa [Cif.autocommit] using hauto
    have hbegin : cif.beginTx = some { cif with saved := [cif.tables] } :=
      Cif.beginTx_eq_some.mpr ⟨hsaved, rfl⟩
    refine ⟨{ loop, itemNames := names, rows := Cif.loopValues loop cif.tables }, ?_⟩
    simp only [Cif.getPackets, hget, hauto, if_true, hbegin, if_neg hvalues]
  · intro hauto
    have hbegin : cif.beginNesttx.beginTx = none := rfl
    simp only [Cif.getPackets, hget, hauto, Bool.false_eq_true, if_false, hbegin]

theorem length_packets_le (loop : Loop) : (Cif.packets loop t).length ≤ t.itemValue.length := by
  have hvalues : (Cif.loopValues loop t).length ≤ t.itemValue.length := by
    rw [Cif.loopValues, (List.perm_insertionSort _ _).length_eq]
    exact List.length_filter_le ..
  rw [Cif.packets, packetsOf, List.length_map]
  exact ((eraseDups_sublist _).length_le.trans (List.length_map ..).le).trans hvalues

/-- Calls for a packet and its parts. -/
def IsPacketCall : WalkCall → Prop
  | .packetStart _ | .packetEnd _ | .item _ _ => True
  | _ => False

theorem Slips.finished {e : WalkCall × Int} (h : Slips false e) : e.2 = Code.finished := by
  obtain ⟨call, code⟩ := e
  cases call <;> simp_all [Slips]

theorem IsPacketCall.slips {e : WalkCall × Int} (hcall : IsPacketCall e.1)
    (h : e.2 = Code.finished) :
    Slips isOpen e := by
  obtain ⟨call, code⟩ := e
  cases call <;> simp_all [Slips, IsPacketCall]

theorem isPacketCall_packetElement (packet : Packet) :
    (Tables.packetElement packet).All IsPacketCall :=
  ⟨trivial, trivial, Element.allOf_map fun _ => trivial, trivial⟩

/-- The packets of a loop walked, from getting the iterator to closing it. -/
theorem walkPackets_eq (handler : WalkCall → σ → Int × σ) {w : Walk σ}
    (h : w.cif.tables.WellFormed icu bounded) {loop : Loop} {it : PacketIterator} {cif' : Cif}
    (hget : w.cif.getPackets icu loop = (.ok it, cif')) :
    ∃ r, walkPackets handler it { w with cif := cif' } = some (.ok r, { w with
        cif := cif'
        user := (Element.visitAll handler direction
          ((Cif.packets loop w.cif.tables).map fun p => Tables.packetElement p.2) w.user).2.1
        log := w.log ++ (Element.visitAll handler direction
          ((Cif.packets loop w.cif.tables).map fun p => Tables.packetElement p.2) w.user).2.2 })
      ∧ r = packetsResult (Element.visitAll handler direction
          ((Cif.packets loop w.cif.tables).map fun p => Tables.packetElement p.2) w.user).1 := by
  obtain ⟨_, hmatches, _⟩ := h.matches hget
  have htables : cif'.tables = w.cif.tables := hmatches.tables.symm
  have hlength : (Cif.packets loop w.cif.tables).length < cif'.tables.itemValue.length + 1 := by
    rw [htables]
    exact Nat.lt_succ_of_le (length_packets_le loop)
  exact rounds_walkNextPacket (w := { w with cif := cif' }) hmatches hlength

/-- A traversal stops with a code that asks for it. -/
theorem direction_of_stop (handler : WalkCall → σ → Int × σ) (es : List (Element WalkCall)) (u : σ)
    (c : Int) (h : (Element.visitAll handler direction es u).1 = .stop c) :
    direction c = .stop c := by
  obtain ⟨e, _, hdirect⟩ := (Element.stopsAtAnswer_visitAll handler direction es u).2 c h
  rwa [direction_eq_stop hdirect] at hdirect

/-- Among packets, a slip is what stops at `CIF_FINISHED`. -/
theorem slips_packets_iff (handler : WalkCall → σ → Int × σ) (packets : List (Nat × Packet))
    (u : σ) :
    (∃ e ∈ (Element.visitAll handler direction (packets.map fun p =>
      Tables.packetElement p.2) u).2.2, Slips false e)
      ↔ (Element.visitAll handler direction (packets.map fun p => Tables.packetElement p.2) u).1
        = .stop Code.finished := by
  obtain ⟨hentry, hcause⟩ := Element.stopsAtAnswer_visitAll handler direction
    (packets.map fun p => Tables.packetElement p.2) u
  have hcalls : Visit.Calls IsPacketCall (Element.visitAll handler direction
      (packets.map fun p => Tables.packetElement p.2)) :=
    Element.calls_visitAll (Element.allOf_map fun p => isPacketCall_packetElement p.2)
  constructor
  · rintro ⟨e, he, hslip⟩
    exact hentry e he _ (by rw [hslip.finished]; rfl)
  · intro hstop
    obtain ⟨e, he, hdirect⟩ := hcause _ hstop
    exact ⟨e, he, (hcalls u e he).slips (direction_eq_stop hdirect)⟩

/-- The inside of a loop, walked with an iterator that the walk has opened. -/
theorem compares_walkIterated (handler : WalkCall → σ → Int × σ) {w : Walk σ}
    (h : w.cif.tables.WellFormed icu bounded) {loop : Loop} {it : PacketIterator}
    (hopen : w.cif.autocommit = true)
    (hget : w.cif.getPackets icu loop = (.ok it, { w.cif with saved := [w.cif.tables] })) :
    ∃ r u newer,
      walkIterated handler loop it { w with cif := { w.cif with saved := [w.cif.tables] } }
        = some (.ok r, { w with user := u, log := w.log ++ newer })
      ∧ Compares false ((Element.visitAll handler direction
          ((Cif.packets loop w.cif.tables).map fun p => Tables.packetElement p.2)).bind
            (Visit.afterChildren (Visit.ask handler direction (.loopEnd loop))) w.user)
          (direction r, u, newer) := by
  obtain ⟨r, hpackets, hr⟩ := walkPackets_eq handler h hget
  have hslips := slips_packets_iff handler (Cif.packets loop w.cif.tables) w.user
  have hdirect := direction_of_stop handler
    ((Cif.packets loop w.cif.tables).map fun p => Tables.packetElement p.2) w.user
  simp only [Visit.bind]
  generalize Element.visitAll handler direction
    ((Cif.packets loop w.cif.tables).map fun p => Tables.packetElement p.2) w.user = visited
    at hpackets hr hslips hdirect ⊢
  obtain ⟨d, u, newer⟩ := visited
  simp only at hpackets hr hslips hdirect
  have hsaved : w.cif.saved = [] := by simpa [Cif.autocommit] using hopen
  have hclose : PacketIterator.close { w.cif with saved := [w.cif.tables] } = (.ok (), w.cif) := by
    rw [PacketIterator.close, if_neg (by simp [Cif.autocommit])]
    simp [Cif.commit, ← hsaved]
  have hrun : walkIterated handler loop it { w with cif := { w.cif with saved := [w.cif.tables] } }
      = (if r ≠ Code.finished then pure r else handlerResult handler (.loopEnd loop))
        { w with user := u, log := w.log ++ newer } := by
    rw [walkIterated, bind_apply, hpackets]
    simp only [bind_apply, onCif, update_apply, hclose]
  rcases hend : handler (.loopEnd loop) u with ⟨code, u'⟩
  have hfinish : handlerResult handler (.loopEnd loop) { w with user := u, log := w.log ++ newer }
      = some (.ok code,
        { w with user := u', log := w.log ++ (newer ++ [(.loopEnd loop, code)]) }) := by
    simp only [handlerResult, update_apply, hend, List.append_assoc]
  have hheeded : d ≠ .stop Code.finished → ∀ e ∈ newer, ¬ Slips false e :=
    fun hne e he hslip => hne (hslips.mp ⟨e, he, hslip⟩)
  rw [hrun]
  cases d with
  | goOn | skipCurrent =>
    refine ⟨code, u', newer ++ [(.loopEnd loop, code)], ?_, ?_⟩
    · rw [if_neg (by simp [hr, packetsResult])]
      exact hfinish
    · simp only [Visit.afterChildren, Visit.ask, hend]
      refine Compares.prepend (hheeded (by simp)) (.same ?_)
      simp [Slips]
  | skipSiblings =>
    refine ⟨r, u, newer, ?_, ?_⟩
    · rw [if_pos (by rw [hr, packetsResult]; decide)]
      rfl
    · simp only [Visit.afterChildren, Visit.ret, List.append_nil, hr, packetsResult]
      exact .same (hheeded (by simp))
  | stop c =>
    obtain rfl : r = c := hr
    by_cases hc : r = Code.finished
    · refine ⟨code, u', newer ++ [(.loopEnd loop, code)], ?_, ?_⟩
      · rw [if_neg (not_not.mpr hc)]
        exact hfinish
      · simp only [Visit.afterChildren, Visit.ret, List.append_nil]
        exact .beyond (hslips.mpr (by rw [hc])) (by simp)
    · refine ⟨r, u, newer, ?_, ?_⟩
      · rw [if_pos hc]
        rfl
      · simp only [Visit.afterChildren, Visit.ret, List.append_nil]
        rw [hdirect r rfl]
        exact .same (hheeded (by simpa using hc))

/-- The loop walked next to the loop traversed. -/
theorem tracks_walkLoop (h : t.WellFormed icu bounded) {loop : Loop}
    (hpackets : Cif.packets loop t ≠ []) :
    Tracks t isOpen direction (Element.visit handler direction (t.loopElement loop))
      (walkLoop icu handler loop) := by
  rintro w ⟨rfl, hopen⟩
  rw [Tables.loopElement, Element.visit, Element.visitAll, Visit.ret_bind, Visit.afterSparing]
  swap
  · simp
  rcases hreply : handler (.loopStart loop) w.user with ⟨code, u⟩
  have hstart : handlerResult handler (.loopStart loop) w
      = some (.ok code, { w with user := u, log := w.log ++ [(.loopStart loop, code)] }) := by
    simp only [handlerResult, update_apply, hreply]
  by_cases hcode : code = Code.traverseContinue
  · subst hcode
    have hvisit : ∀ k : Direction Int → Visit WalkCall Int σ,
        (Visit.ask handler direction (.loopStart loop)).bind k w.user
          = ((k .goOn u).1, (k .goOn u).2.1,
            [(.loopStart loop, Code.traverseContinue)] ++ (k .goOn u).2.2) := by
      intro k
      simp only [Visit.bind, Visit.ask, hreply]
      rfl
    rw [hvisit, Visit.inside]
    obtain ⟨hclosed, hbusy⟩ := getPackets_eq h hpackets
    cases isOpen with
    | true =>
      have hget := hbusy hopen
      refine ⟨Code.error, { w with
        user := u, cif := w.cif.beginNesttx, log :=
          w.log ++ [(.loopStart loop, Code.traverseContinue)] },
        [(.loopStart loop, Code.traverseContinue)], ?_, ⟨rfl, rfl⟩, rfl, ?_⟩
      · rw [walkLoop, bind_apply, hstart]
        simp only [ne_eq, not_true_eq_false, if_false, bind_apply, onCif, update_apply, hget,
          pure_apply]
      · refine .short ⟨_, List.mem_singleton_self _, rfl, rfl⟩ ?_
        obtain ⟨packet, packets, hcons⟩ := List.exists_cons_of_ne_nil hpackets
        have hfirst : (Element.visit handler direction (Tables.packetElement packet.2) u).2.2
            ≠ [] :=
          Element.visit_log_ne_nil _ u
        simp only [hcons, List.map_cons, Element.visitAll, Visit.bind]
        simp [hfirst]
    | false =>
      obtain ⟨it, hget⟩ := hclosed hopen
      obtain ⟨r, u', newer, hrun, hcompares⟩ := compares_walkIterated handler
        (w := { w with user := u, log := w.log ++ [(.loopStart loop, Code.traverseContinue)] }) h
          hopen hget
      refine ⟨r, { w with
        user := u', log := w.log ++ ([(.loopStart loop, Code.traverseContinue)] ++ newer) },
        _, ?_, ⟨rfl, hopen⟩, rfl, ?_⟩
      · rw [walkLoop, bind_apply, hstart]
        simp only [ne_eq, not_true_eq_false, if_false, bind_apply, onCif, update_apply, hget]
        rw [hrun]
        simp only [List.append_assoc]
      · refine hcompares.prepend ?_
        simp [Slips]
  · refine ⟨code, { w with user := u, log := w.log ++ [(.loopStart loop, code)] },
      [(.loopStart loop, code)], ?_, ⟨rfl, hopen⟩, rfl, ?_⟩
    · rw [walkLoop, bind_apply, hstart]
      simp only [ne_eq, hcode, not_false_eq_true, if_true, pure_apply]
    · have hvisit : ∀ body : Visit WalkCall Int σ,
          (Visit.ask handler direction (.loopStart loop)).bind (Visit.inside body) w.user
            = (direction code, u, [(.loopStart loop, code)]) := by
        intro body
        simp only [Visit.bind, Visit.ask, hreply]
        rcases direction_cases code with ⟨h0, _⟩ | ⟨_, hd⟩ | ⟨_, hd⟩ | ⟨_, _, _, hd⟩
        · exact absurd h0 hcode
        all_goals rw [hd]; rfl
      rw [hvisit]
      refine .same ?_
      simp [Slips, hcode]

theorem tracks_walkLoopList (h : t.WellFormed icu bounded) {loops : List Loop}
    (hpackets : ∀ loop ∈ loops, Cif.packets loop t ≠ []) {result : Int}
    (hresult : (direction result).settle = .goOn) :
    Tracks t isOpen (fun r => (direction r).settle)
      (Element.visitAll handler direction (loops.map t.loopElement))
      (walkLoopList icu handler result loops) := by
  induction loops generalizing result with
  | nil => exact .pure hresult
  | cons loop loops ih =>
    rw [List.map_cons, Element.visitAll, walkLoopList]
    refine Tracks.bind (tracks_walkLoop h (hpackets loop (List.mem_cons_self ..))) (fun _ =>
      rfl) ?_ ?_
    · intro r hr
      have hlater : (direction r).settle = .goOn → Tracks t isOpen (fun r => (direction r).settle)
          (Element.visitAll handler direction (loops.map t.loopElement))
          (walkLoopList icu handler r loops) :=
        ih fun loop hloop => hpackets loop (List.mem_cons_of_mem _ hloop)
      rcases direction_cases r with ⟨h0, hd⟩ | ⟨h1, hd⟩ | ⟨h2, hd⟩ | ⟨_, _, _, hd⟩
      · rw [hd, if_pos (.inl h0)]
        exact hlater (by rw [hd]; rfl)
      · rw [hd, if_pos (.inr h1)]
        exact hlater (by rw [hd]; rfl)
      · rw [hd, if_neg (by simp [h2])]
        exact .pure (by rw [hd]; rfl)
      · simp [hd, Direction.stops] at hr
    · intro r c hc
      rcases direction_cases r with ⟨_, hd⟩ | ⟨_, hd⟩ | ⟨_, hd⟩ | ⟨h0, h1, _, hd⟩
      · simp [hd] at hc
      · simp [hd] at hc
      · simp [hd] at hc
      · exact ⟨r, if_neg (by simp [h0, h1]), by rw [hc]; rfl⟩

theorem tracks_walkLoops (h : t.WellFormed icu bounded) {container : Container}
    (hcontainer : Cif.Tables.hasContainer t container.id = true)
    (hpackets : ∀ loop ∈ t.loopsOf container, Cif.packets loop t ≠ []) :
    Tracks t isOpen (fun r => (direction r).settle)
      (Element.visitAll handler direction ((t.loopsOf container).map t.loopElement))
      (walkLoops icu handler container) := by
  rintro w ⟨rfl, hopen⟩
  have hget : w.cif.getAllLoops container
      = (.ok (w.cif.tables.loopsOf container), w.cif.beginNesttx.rollbackNesttx w.cif.autocommit) :=
    Prod.ext (if_pos hcontainer) rfl
  have hstands : Stands w.cif.tables isOpen
      { w with cif := w.cif.beginNesttx.rollbackNesttx w.cif.autocommit } := by
    cases hauto : w.cif.autocommit with
    | true =>
      have hsaved : w.cif.saved = [] := by simpa [Cif.autocommit] using hauto
      refine ⟨?_, ?_⟩
      · simp [Cif.beginNesttx, Cif.rollbackNesttx, Cif.rollback, hsaved]
      · rw [← hopen, hauto]
        rfl
    | false =>
      refine ⟨rfl, ?_⟩
      rw [← hopen, hauto]
      rfl
  have htracks : Tracks w.cif.tables isOpen (fun r => (direction r).settle)
      (Element.visitAll handler direction
        ((w.cif.tables.loopsOf container).map w.cif.tables.loopElement))
      (walkLoopList icu handler Code.ok (w.cif.tables.loopsOf container)) :=
    tracks_walkLoopList h hpackets rfl
  obtain ⟨r, w', newer, hrun, hrest⟩ := htracks _ hstands
  refine ⟨r, w', newer, ?_, hrest⟩
  rw [walkLoops, bind_apply]
  simp only [onCif, update_apply, hget]
  exact hrun

end Loops

section Containers

variable {bounded : Prop}

theorem tracks_handlerResult {call : WalkCall} (hcall : ∀ code, ¬ Slips isOpen (call, code)) :
    Tracks t isOpen direction (Visit.ask handler direction call) (handlerResult handler call) := by
  intro w hw
  refine ⟨_, _, _, rfl, ⟨hw.tables, hw.isOpen⟩, rfl, .same ?_⟩
  simp [hcall]

/-- A question that the tables answer. -/
theorem Tracks.onCif {α ρ : Type} {of : ρ → Direction Int} {f : Visit WalkCall Int σ} {q : Cif → α}
    {a : α} {g : α → Walker σ ρ} (hq : ∀ cif : Cif, cif.tables = t → q cif = a)
    (h : Tracks t isOpen of f (g a)) :
    Tracks t isOpen of f (Walk.onCif (fun cif => (q cif, cif)) >>= g) := by
  intro w hw
  obtain ⟨r, w', newer, hrun, hrest⟩ := h w hw
  refine ⟨r, w', newer, ?_, hrest⟩
  rw [bind_apply]
  simp only [Walk.onCif, update_apply, hq w.cif hw.tables]
  exact hrun

/-- The frames of a container, and what follows where they do not end the walk. -/
theorem tracks_walkFrames {walkFrame : Container → Walker σ Int}
    {element : Container → Element WalkCall} {frames : List Container} (hframe : ∀ frame ∈ frames,
      Tracks t isOpen direction (Element.visit handler direction (element frame)) (walkFrame frame))
    {rest : Visit WalkCall Int σ} {g : Option Int → Walker σ Int}
    (hnone : Tracks t isOpen direction rest (g none)) (hsome : ∀ r, g (some r) = Pure.pure r) :
    Tracks t isOpen direction ((Element.visitAll handler direction (frames.map element)).bind
      (Visit.afterSparing rest)) (walkFrames walkFrame frames >>= g) := by
  induction frames with
  | nil =>
    rw [List.map_nil, Element.visitAll, Visit.ret_bind, walkFrames, pure_bind]
    exact hnone
  | cons frame frames ih =>
    have hlater := ih fun frame hmem => hframe frame (List.mem_cons_of_mem _ hmem)
    rw [List.map_cons, Element.visitAll, walkFrames, Visit.bind_assoc, bind_assoc]
    refine Tracks.bind (hframe frame (List.mem_cons_self ..)) (fun c =>
      Visit.ret_bind (.stop c) _) ?_ ?_
    · intro r hr
      rcases direction_cases r with ⟨h0, hd⟩ | ⟨h1, hd⟩ | ⟨h2, hd⟩ | ⟨_, _, _, hd⟩
      · rw [hd, if_pos (.inl h0)]
        exact hlater
      · rw [hd, if_pos (.inr h1)]
        exact hlater
      · rw [hd, if_neg (by simp [h2]), if_pos h2, pure_bind, Visit.afterSibling, Visit.ret_bind]
        · exact hnone
        all_goals simp
      · simp [hd, Direction.stops] at hr
    · intro r c hc
      obtain rfl := direction_eq_stop hc
      rcases direction_cases r with ⟨_, hd⟩ | ⟨_, hd⟩ | ⟨_, hd⟩ | ⟨h0, h1, h2, _⟩
      · simp [hd] at hc
      · simp [hd] at hc
      · simp [hd] at hc
      · refine ⟨r, ?_, hc⟩
        rw [if_neg (by simp [h0, h1]), if_neg h2, pure_bind, hsome]

/-- Every container down to the last frame is in the tree, whatever the depth allowed for from there
on. -/
theorem containerElement_congr (h : t.WellFormed icu bounded) {k k' depth : Nat}
    {container : Container} (hk : t.lastId < container.id + k)
    (hk' : t.lastId < container.id + k') :
    t.containerElement k depth container = t.containerElement k' depth container := by
  induction k generalizing k' depth container with
  | zero =>
    cases k' with
    | zero => rfl
    | succ k' =>
      rw [Tables.containerElement, Tables.containerElement, h.getAllFrames_eq_nil hk, List.map_nil]
  | succ k ih =>
    cases k' with
    | zero =>
      rw [Tables.containerElement, Tables.containerElement, h.getAllFrames_eq_nil hk', List.map_nil]
    | succ k' =>
      have hframes : (Cif.getAllFrames container { tables := t }).map
          (t.containerElement k (depth + 1))
          = (Cif.getAllFrames container { tables := t }).map
            (t.containerElement k' (depth + 1)) := by
        refine List.map_congr_left fun frame hframe => ?_
        obtain ⟨hlt, _⟩ := h.lt_of_mem_getAllFrames hframe
        exact ih (by omega) (by omega)
      rw [Tables.containerElement, Tables.containerElement, hframes]

/-- The recursion of the tree, without its bound. -/
theorem containerElement_eq (h : t.WellFormed icu bounded) (depth : Nat) (container : Container) :
    t.containerElement (t.lastId + 1) depth container
      = .node (if depth ≠ 0 then .frameStart container else .blockStart container)
        ((Cif.getAllFrames container { tables := t }).map
          (t.containerElement (t.lastId + 1) (depth + 1)))
        ((t.loopsOf container).map t.loopElement)
        (if depth ≠ 0 then .frameEnd container else .blockEnd container) := by
  have hdeeper : t.containerElement (t.lastId + 1) depth container
      = t.containerElement (t.lastId + 1 + 1) depth container :=
    containerElement_congr h (by omega) (by omega)
  rw [hdeeper, Tables.containerElement]

/-- Loops with their packets. -/
def Filled (t : Tables) : Prop :=
  ∀ container, ∀ loop ∈ t.loopsOf container, Cif.packets loop t ≠ []

/-- A container walked, with enough rounds for frames that each have a later one inside. -/
theorem tracks_walkContainer (h : t.WellFormed icu bounded) (hfilled : Filled t) (k depth : Nat)
    {container : Container} (hcontainer : ∃ c ∈ t.container, c.id = container.id)
    (hk : t.lastId < container.id + k) :
    Tracks t isOpen direction
      (Element.visit handler direction (t.containerElement k depth container))
      (unroll (fun self i => walkContainerWith icu handler self i.1 i.2) k (container, depth)) := by
  induction k generalizing depth container with
  | zero =>
    obtain ⟨c, hc, hid⟩ := hcontainer
    have := h.ids_le c hc
    omega
  | succ k ih =>
    rw [Tables.containerElement, Element.visit, unroll_succ, walkContainerWith]
    have hstart : ∀ code, ¬ Slips isOpen
        (if depth ≠ 0 then .frameStart container else .blockStart container, code) := by
      intro code
      split <;> simp [Slips]
    have hend : ∀ code, ¬ Slips isOpen
        (if depth ≠ 0 then .frameEnd container else .blockEnd container, code) := by
      intro code
      split <;> simp [Slips]
    generalize (if depth ≠ 0 then WalkCall.frameStart container else .blockStart container) = start
      at hstart ⊢
    generalize (if depth ≠ 0 then WalkCall.frameEnd container else .blockEnd container) = finish
      at hend ⊢
    refine Tracks.bind (tracks_handlerResult hstart) (fun _ => rfl) ?_ ?_
    · intro r hr
      rcases direction_cases r with ⟨h0, hd⟩ | ⟨h1, hd⟩ | ⟨h2, hd⟩ | ⟨_, _, _, hd⟩
      · have hin : ¬ r ≠ Code.traverseContinue := not_not.mpr h0
        rw [hd, if_neg hin, Visit.inside]
        refine Tracks.onCif (a := Cif.getAllFrames container { tables := t })
          (fun cif hcif => by simp only [Cif.getAllFrames, hcif]) ?_
        refine tracks_walkFrames (fun frame hframe => ?_) ?_ fun _ => rfl
        · obtain ⟨hlt, hrow⟩ := h.lt_of_mem_getAllFrames hframe
          exact ih (depth + 1) hrow (by omega)
        · obtain ⟨c, hc, hid⟩ := hcontainer
          have hhas : Cif.Tables.hasContainer t container.id = true := by
            simpa [Cif.Tables.hasContainer] using ⟨c, hc, hid⟩
          refine Tracks.bind (tracks_walkLoops h hhas (hfilled container)) (fun _ => rfl) ?_ ?_
          · intro r hr
            rcases direction_cases r with ⟨h0, hd⟩ | ⟨h1, hd⟩ | ⟨h2, hd⟩ | ⟨_, _, _, hd⟩
            · rw [hd, if_pos (.inl h0)]
              exact tracks_handlerResult hend
            · rw [hd, if_pos (.inr h1)]
              exact tracks_handlerResult hend
            · have hnot : ¬ (r = Code.traverseContinue ∨ r = Code.traverseSkipCurrent) := by
                rw [h2]
                decide
              rw [hd, if_neg hnot, if_pos h2]
              exact .pure rfl
            · simp [hd, Direction.settle, Direction.stops] at hr
          · intro r c hr
            rcases direction_cases r with ⟨_, hd⟩ | ⟨_, hd⟩ | ⟨_, hd⟩ | ⟨h0, h1, h2, hd⟩
            · simp [hd, Direction.settle] at hr
            · simp [hd, Direction.settle] at hr
            · simp [hd, Direction.settle] at hr
            · refine ⟨r, ?_, ?_⟩
              · rw [if_neg (not_or.mpr ⟨h0, h1⟩), if_neg h2]
              · simpa [hd, Direction.settle] using hr
      · have hout : r ≠ Code.traverseContinue := by rw [h1]; decide
        rw [hd, if_pos hout]
        exact .pure hd
      · have hout : r ≠ Code.traverseContinue := by rw [h2]; decide
        rw [hd, if_pos hout]
        exact .pure hd
      · simp [hd, Direction.stops] at hr
    · intro r c hc
      refine ⟨r, if_pos ?_, hc⟩
      rintro rfl
      simp [direction] at hc

end Containers

section Conclusion

variable {bounded : Prop}

/-- The walk ends, and has been the traversal if and only if no answer in the traversal has led it
astray. -/
def Concludes (t : Tables) (isOpen : Bool) (f : Visit WalkCall Int σ) (m : Walker σ Int) : Prop :=
  ∀ w, Stands t isOpen w → ∃ r w' newer, m w = some (.ok r, w') ∧ w'.log = w.log ++ newer ∧
    (newer = (f w.user).2.2 ∧ r = resultOf (f w.user).1 ↔ ∀ e ∈ (f w.user).2.2, ¬ Slips isOpen e)

theorem Concludes.pure {r : Int} {d : Direction Int} (h : r = resultOf d) :
    Concludes (σ := σ) t isOpen (Visit.ret d) (Pure.pure r) := by
  intro w hw
  exact ⟨r, w, [], rfl, by simp, by simp [Visit.ret, h]⟩

theorem Concludes.bind {ρ : Type} {of : ρ → Direction Int} {f : Visit WalkCall Int σ}
    {m : Walker σ ρ} {k : Direction Int → Visit WalkCall Int σ} {g : ρ → Walker σ Int}
    (hm : Tracks t isOpen of f m) (hstop : ∀ c, k (.stop c) = Visit.ret (.stop c))
    (hk : ∀ r, (of r).stops = false → Concludes t isOpen (k (of r)) (g r))
    (hg : ∀ r c, of r = .stop c → g r = Pure.pure (resultOf (.stop c))) :
    Concludes t isOpen (f.bind k) (m >>= g) := by
  intro w hw
  obtain ⟨r, w', newer, hrun, hw', hlog, hcompares⟩ := hm w hw
  have hthen : Concludes t isOpen (k (of r)) (g r) := by
    cases hd : of r with
    | stop c =>
      rw [hstop, hg r c hd]
      exact .pure rfl
    | goOn | skipCurrent | skipSiblings =>
      rw [← hd]
      exact hk r (by simp [hd, Direction.stops])
  obtain ⟨r', w'', newer', hrun', hlog', hiff⟩ := hthen w' hw'
  refine ⟨r', w'', newer ++ newer', ?_, by rw [hlog', hlog, List.append_assoc], ?_⟩
  · rw [bind_apply, hrun]
    exact hrun'
  · rcases hf : f w.user with ⟨d, u, older⟩
    simp only [Visit.bind, hf] at hcompares ⊢
    generalize hdr : of r = dr at hcompares hiff
    cases hcompares with
    | same hheeded =>
      rw [List.append_right_inj, hiff]
      constructor
      · intro hlater e he
        rcases List.mem_append.mp he with hold | hnew
        · exact hheeded e hold
        · exact hlater e hnew
      · exact fun hall e he => hall e (List.mem_append_right _ he)
    | beyond hslip hextra =>
      obtain ⟨e, he, hs⟩ := hslip
      simp only [hstop, Visit.ret, List.append_nil, List.append_assoc]
      constructor
      · rintro ⟨heq, _⟩
        simp [hextra] at heq
      · exact fun hall => absurd hs (hall e he)
    | short hslip hextra =>
      obtain ⟨e, he, hs⟩ := hslip
      rw [hg r _ hdr] at hrun'
      obtain ⟨hr, rfl⟩ := Prod.mk.inj (Option.some.inj hrun')
      obtain rfl : newer' = [] := by simpa using hlog'
      rw [List.append_nil, List.append_assoc]
      constructor
      · rintro ⟨heq, _⟩
        simp [hextra] at heq
      · exact fun hall => absurd hs (hall e (List.mem_append_left _ he))

/-- What the walk returns for the last code it gets. -/
theorem resultOf_direction (r : Int) :
    resultOf (direction r) = if isDirection r then Code.ok else r := by
  rcases direction_cases r with ⟨h0, hd⟩ | ⟨h1, hd⟩ | ⟨h2, hd⟩ | ⟨h0, h1, h2, hd⟩
  · rw [hd, h0]
    rfl
  · rw [hd, h1]
    rfl
  · rw [hd, h2]
    rfl
  · rw [hd]
    simp [resultOf, isDirection, h0, h1, h2]

theorem concludes_walkBlocks (h : t.WellFormed icu bounded) (hfilled : Filled t)
    {blocks : List Container} (hblocks : ∀ block ∈ blocks, ∃ c ∈ t.container, c.id = block.id) :
    Concludes t isOpen ((Element.visitAll handler direction
        (blocks.map (t.containerElement (t.lastId + 1) 0))).bind
          (Visit.afterChildren (Visit.ask handler direction .cifEnd)))
      (walkBlocks icu handler blocks) := by
  induction blocks with
  | nil =>
    rw [List.map_nil, Element.visitAll, Visit.ret_bind, Visit.afterChildren, walkBlocks]
    · intro w hw
      refine ⟨_, _, [(.cifEnd, (handler .cifEnd w.user).1)], rfl, rfl, ?_⟩
      simp only [Visit.ask, resultOf_direction, true_and, true_iff]
      simp [Slips]
  | cons block blocks ih =>
    have hlater := ih fun block hmem => hblocks block (List.mem_cons_of_mem _ hmem)
    have hblock : Tracks t isOpen direction
        (Element.visit handler direction (t.containerElement (t.lastId + 1) 0 block))
        (walkContainer icu handler (block, 0)) := by
      intro w hw
      rw [walkContainer, Exec.fix, hw.tables]
      exact tracks_walkContainer h hfilled _ 0 (hblocks block (List.mem_cons_self ..)) (by omega) w
        hw
    rw [List.map_cons, Element.visitAll, walkBlocks, Visit.bind_assoc]
    refine Concludes.bind hblock (fun c => Visit.ret_bind (.stop c) _) ?_ ?_
    · intro r hr
      rcases direction_cases r with ⟨h0, hd⟩ | ⟨h1, hd⟩ | ⟨h2, hd⟩ | ⟨_, _, _, hd⟩
      · rw [hd, if_pos (.inl h0)]
        exact hlater
      · rw [hd, if_pos (.inr h1)]
        exact hlater
      · have hnot : ¬ (r = Code.traverseContinue ∨ r = Code.traverseSkipCurrent) := by
          rw [h2]
          decide
        rw [hd, if_neg hnot, if_pos (.inl h2), Visit.afterSibling, Visit.ret_bind]
        · exact .pure rfl
        all_goals simp
      · simp [hd, Direction.stops] at hr
    · intro r c hc
      obtain rfl := direction_eq_stop hc
      rcases direction_cases r with ⟨_, hd⟩ | ⟨_, hd⟩ | ⟨_, hd⟩ | ⟨h0, h1, h2, _⟩
      · simp [hd] at hc
      · simp [hd] at hc
      · simp [hd] at hc
      · rw [if_neg (not_or.mpr ⟨h0, h1⟩), resultOf]
        by_cases hend : r = Code.traverseEnd
        · rw [if_pos (.inr hend), if_pos hend]
        · rw [if_neg (not_or.mpr ⟨h2, hend⟩), if_neg hend]

theorem concludes_cifWalk (h : t.WellFormed icu bounded) (hfilled : Filled t) :
    Concludes t isOpen (Element.visit handler direction t.element) (cifWalk icu handler) := by
  have hstart : ∀ code, ¬ Slips isOpen (.cifStart, code) := by
    simp [Slips]
  rw [Tables.element, Element.visit, Element.visitAll, Visit.ret_bind, Visit.afterSparing, cifWalk]
  · refine Concludes.bind (tracks_handlerResult hstart) (fun _ => rfl) ?_ ?_
    · intro r hr
      rcases direction_cases r with ⟨h0, hd⟩ | ⟨h1, hd⟩ | ⟨h2, hd⟩ | ⟨_, _, _, hd⟩
      · rw [hd, if_pos h0, Visit.inside]
        have hblocks : ∀ block ∈ Cif.getAllBlocks { tables := t }, ∃ c ∈ t.container,
            c.id = block.id := by
          intro block hblock
          obtain ⟨b, hb, rfl⟩ := List.mem_map.mp hblock
          exact h.blocks b hb
        intro w hw
        have hget : Cif.getAllBlocks w.cif = Cif.getAllBlocks { tables := t } := by
          simp only [Cif.getAllBlocks, hw.tables]
        obtain ⟨r, w', newer, hrun, hrest⟩ := concludes_walkBlocks h hfilled hblocks w hw
        refine ⟨r, w', newer, ?_, hrest⟩
        rw [bind_apply]
        simp only [onCif, update_apply, hget]
        exact hrun
      · have hnot : r ≠ Code.traverseContinue := by rw [h1]; decide
        rw [hd, if_neg hnot]
        exact .pure (by rw [h1]; rfl)
      · have hnot : r ≠ Code.traverseContinue := by rw [h2]; decide
        rw [hd, if_neg hnot]
        exact .pure (by rw [h2]; rfl)
      · simp [hd, Direction.stops] at hr
    · intro r c hc
      have hnot : r ≠ Code.traverseContinue := by
        rintro rfl
        simp [direction] at hc
      rw [if_neg hnot, ← hc, resultOf_direction]
  · simp

/-- A walk is the documented traversal, and returns what it is to, exactly where no callback for a
packet or an item answers `CIF_FINISHED` and no loop is entered while some other iteration is
open. -/
theorem cifWalk_iff {platform : Platform} {s : Session} (hreach : Session.Reachable icu platform s)
    (hfilled : Filled s.cif.tables) (handler : WalkCall → σ → Int × σ) (u : σ) :
    ∃ r w, cifWalk icu handler ⟨u, s.cif, []⟩ = some (.ok r, w) ∧
      (w.log = (Element.visit handler direction s.cif.tables.element u).2.2
          ∧ r = resultOf (Element.visit handler direction s.cif.tables.element u).1
        ↔ ∀ e ∈ (Element.visit handler direction s.cif.tables.element u).2.2,
          ¬ Slips (!s.cif.autocommit) e) := by
  have hstands : Stands s.cif.tables (!s.cif.autocommit) (⟨u, s.cif, []⟩ : Walk σ) := ⟨rfl, by simp⟩
  obtain ⟨r, w', newer, hrun, hlog, hiff⟩ :=
    concludes_cifWalk hreach.wellFormed.tables hfilled _ hstands
  obtain rfl : w'.log = newer := hlog
  exact ⟨r, w', hrun, hiff⟩

/-- A handler that answers what a list says, and to go on after that. -/
def scripted (_ : WalkCall) : List Int → Int × List Int
  | [] => (Code.traverseContinue, [])
  | answer :: answers => (answer, answers)

theorem filled_twoPackets : Filled Iteration.twoPackets.cif.tables := by
  intro container loop hloop
  have hloops : Iteration.twoPackets.cif.tables.loop = [⟨1, 0, none, 2⟩] := rfl
  rw [Tables.loopsOf, hloops] at hloop
  by_cases hid : 1 = container.id
  · obtain ⟨id, code, codeOrig, parentId⟩ := container
    obtain rfl : 1 = id := hid
    obtain rfl : loop = ⟨⟨1, code, codeOrig, parentId⟩, 0, none⟩ := by simpa using hloop
    have hlength := Iteration.length_twoPackets
    exact List.ne_nil_of_length_pos (hlength ▸ Nat.succ_pos _ :
      0 < (Cif.packets Iteration.twoPacketsLoop Iteration.twoPackets.cif.tables).length)
  · simp [hid] at hloop

/-- The first packet is skipped, and the rest of the second one from its first item. -/
theorem cifWalk_twoPackets : ∃ r w,
    cifWalk Icu.ascii scripted ⟨[0, 0, 0, -1, 0, -2], Iteration.twoPackets.cif, []⟩
      = some (.ok r, w) ∧
      w.log = (Element.visit scripted direction Iteration.twoPackets.cif.tables.element
        [0, 0, 0, -1, 0, -2]).2.2
      ∧ r = resultOf (Element.visit scripted direction Iteration.twoPackets.cif.tables.element
        [0, 0, 0, -1, 0, -2]).1 := by
  obtain ⟨r, w, hrun, hiff⟩ := cifWalk_iff Iteration.reachable_twoPackets filled_twoPackets scripted
    [0, 0, 0, -1, 0, -2]
  refine ⟨r, w, hrun, hiff.mpr ?_⟩
  have hanswers : ∀ e ∈ (Element.visit scripted direction Iteration.twoPackets.cif.tables.element
      [0, 0, 0, -1, 0, -2]).2.2, e.2 ≠ Code.finished := by
    decide +kernel
  have hopen : (!Iteration.twoPackets.cif.autocommit) = false := rfl
  rw [hopen]
  exact fun e he hslip => hanswers e he hslip.finished

/-- The end of a packet answers `CIF_FINISHED`: the walk takes it for the end of the packets, goes
on and returns `CIF_OK`. -/
theorem cifWalk_finished : Session.Reachable Icu.ascii Platform.exact Iteration.twoPackets
    ∧ Filled Iteration.twoPackets.cif.tables
    ∧ (cifWalk Icu.ascii scripted ⟨[0, 0, 0, 0, 0, 0, 1], Iteration.twoPackets.cif, []⟩).map
        (fun o => (o.1.toOption, o.2.log.map (·.2))) = some (some 0, [0, 0, 0, 0, 0, 0, 1, 0, 0, 0])
    ∧ (Element.visit scripted direction Iteration.twoPackets.cif.tables.element
        [0, 0, 0, 0, 0, 0, 1]).2.2.map (·.2) = [0, 0, 0, 0, 0, 0, 1]
    ∧ resultOf (Element.visit scripted direction Iteration.twoPackets.cif.tables.element
        [0, 0, 0, 0, 0, 0, 1]).1 = Code.finished :=
  ⟨Iteration.reachable_twoPackets, filled_twoPackets, by decide +kernel⟩

end Conclusion

end Walk

end CifApi
