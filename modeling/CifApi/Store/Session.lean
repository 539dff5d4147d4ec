import CifApi.Store.PacketIterator

/-! Runs of calls on one CIF, with at most one open packet iterator. -/
namespace CifApi

/-- An open CIF and the iterator that is open on it, if any. -/
structure Session where
  cif : Cif := {}
  iterator : Option PacketIterator := none

/-- The calls that change the store, use its transactions or move the iterator. -/
inductive StoreOp where
  | createBlock (code : UStr) (lenient : Bool)
  | createFrame (parent : Container) (code : UStr) (lenient : Bool)
  | destroyContainer (container : Container)
  | createLoop (container : Container) (category : Option UStr) (names : List UStr)
  | destroyLoop (loop : Loop)
  | setCategory (loop : Loop) (category : Option UStr)
  /-- The same, through the very handle that the iterator keeps. -/
  | setOwnCategory (category : Option UStr)
  | getNames (loop : Loop)
  | addItem (loop : Loop) (itemName : UStr) (val : Option Value)
  | addPacket (loop : Loop) (packet : Packet)
  | getAllLoops (container : Container)
  | prune (container : Container)
  | setValue (container : Container) (name : UStr) (val : Value)
  | removeItem (container : Container) (name : UStr)
  | getPackets (loop : Loop)
  | nextPacket
  | updatePacket (packet : Packet)
  | removePacket
  | close
  | abort

namespace Session

variable (icu : Icu) (platform : Platform)

/-- The result of a call without its answer. -/
def result {α : Type} : Except Int α → Except Int Unit
  | .ok _ => .ok ()
  | .error e => .error e

/-- A call that the iterator takes no part in; `none` is a call that does not return. -/
def onCif {α : Type} (s : Session) (call : Option (Except Int α × Cif)) :
    Option (Except Int Unit × Session) :=
  call.map fun (r, cif) => (result r, { s with cif })

/-- A call on the open iterator. -/
def onIterator (s : Session) (f : PacketIterator → Option (Except Int Unit × Session)) :
    Option (Except Int Unit × Session) :=
  match s.iterator with
  | none => some (.error Code.invalidHandle, s)
  | some it => f it

def step (s : Session) : StoreOp → Option (Except Int Unit × Session)
  | .createBlock code lenient => s.onCif (some (s.cif.createBlockInternal icu code lenient))
  | .createFrame parent code lenient =>
    s.onCif (some (s.cif.createFrameInternal icu parent code lenient))
  | .destroyContainer container => s.onCif (some (s.cif.destroyContainer container))
  | .createLoop container category names =>
    s.onCif (some (s.cif.createLoop icu container category names))
  | .destroyLoop loop => s.onCif (some (s.cif.destroyLoop loop))
  | .setCategory loop category =>
    let (r, _, cif) := s.cif.setCategory loop category
    some (r, { s with cif })
  | .setOwnCategory category => s.onIterator fun it =>
    let (r, category, cif) := s.cif.setCategory it.loop category
    some (r, { cif, iterator := some { it with loop := { it.loop with category } } })
  | .getNames loop => s.onCif (some (s.cif.getNames icu loop))
  | .addItem loop itemName val =>
    s.onCif (s.cif.addItem icu (Value.setValueProps platform) loop itemName val)
  | .addPacket loop packet => s.onCif (s.cif.addPacket (Value.setValueProps platform) loop packet)
  | .getAllLoops container => s.onCif (some (s.cif.getAllLoops container))
  | .prune container => some (.ok (), { s with cif := s.cif.prune container })
  | .setValue container name val =>
    s.onCif (s.cif.setValue icu (Value.setValueProps platform) container name val)
  | .removeItem container name => s.onCif (some (s.cif.removeItem icu container name))
  | .getPackets loop =>
    match s.cif.getPackets icu loop with
    | (.error e, cif) => some (.error e, { s with cif })
    | (.ok it, cif) => some (.ok (), { cif, iterator := some it })
  | .nextPacket => s.onIterator fun it =>
    let (r, it) := it.nextPacket s.cif
    some (result r, { s with iterator := some it })
  | .updatePacket packet => s.onIterator fun it =>
    s.onCif (it.updatePacket (Value.setValueProps platform) packet s.cif)
  | .removePacket => s.onIterator fun it =>
    let (r, it, cif) := it.removePacket s.cif
    some (r, { cif, iterator := some it })
  | .close => s.onIterator fun _ =>
    let (r, cif) := PacketIterator.close s.cif
    some (r, { cif, iterator := none })
  | .abort => s.onIterator fun _ =>
    let (r, cif) := PacketIterator.abort s.cif
    some (r, { cif, iterator := none })

/-- The session after some calls, if they all return. -/
def run (s : Session) : List StoreOp → Option Session
  | [] => some s
  | op :: ops =>
    match s.step icu platform op with
    | none => none
    | some (_, s) => s.run ops

/-- The session after calls that all return. -/
def after (s : Session) (ops : List StoreOp) : Session := (s.run icu platform ops).getD s

/-- The sessions that calls lead to from a new CIF. -/
def Reachable (s : Session) : Prop := ∃ ops, run icu platform {} ops = some s

section Runs

variable {icu : Icu} {platform : Platform} {s s' s'' : Session}

theorem run_nil : s.run icu platform [] = some s := rfl

theorem run_cons {op : StoreOp} {ops : List StoreOp} :
    s.run icu platform (op :: ops) = some s''
      ↔ ∃ r s', s.step icu platform op = some (r, s') ∧ s'.run icu platform ops = some s'' := by
  rw [run]
  rcases s.step icu platform op with _ | ⟨r, s'⟩ <;> simp

theorem run_append {ops ops' : List StoreOp} :
    s.run icu platform (ops ++ ops') = some s''
      ↔ ∃ s', s.run icu platform ops = some s' ∧ s'.run icu platform ops' = some s'' := by
  induction ops generalizing s with
  | nil => simp [run_nil]
  | cons op ops ih =>
    rw [List.cons_append, run_cons]
    constructor
    · rintro ⟨r, s₁, hstep, hrun⟩
      obtain ⟨s', hfirst, hrest⟩ := ih.mp hrun
      exact ⟨s', run_cons.mpr ⟨r, s₁, hstep, hfirst⟩, hrest⟩
    · rintro ⟨s', hrun, hrest⟩
      obtain ⟨r, s₁, hstep, hfirst⟩ := run_cons.mp hrun
      exact ⟨r, s₁, hstep, ih.mpr ⟨s', hfirst, hrest⟩⟩

/-- What every call keeps, every run keeps. -/
theorem run_induction {P : Session → Prop}
    (step : ∀ s op r s', s.step icu platform op = some (r, s') → P s → P s') {ops : List StoreOp}
    (hrun : s.run icu platform ops = some s') (h : P s) : P s' := by
  induction ops generalizing s with
  | nil =>
    cases hrun
    exact h
  | cons op ops ih =>
    obtain ⟨r, s₁, hstep, hrest⟩ := run_cons.mp hrun
    exact ih hrest (step s op r s₁ hstep h)

theorem run_after {ops : List StoreOp} (h : (s.run icu platform ops).isSome) :
    s.run icu platform ops = some (s.after icu platform ops) := by
  obtain ⟨s', hrun⟩ := Option.isSome_iff_exists.mp h
  rw [after, hrun]
  rfl

theorem Reachable.after {ops : List StoreOp} (h : (run icu platform {} ops).isSome) :
    Reachable icu platform (({} : Session).after icu platform ops) := ⟨ops, run_after h⟩

theorem Reachable.run (h : Reachable icu platform s) {ops : List StoreOp}
    (hrun : s.run icu platform ops = some s') : Reachable icu platform s' := by
  obtain ⟨before, hbefore⟩ := h
  exact ⟨before ++ ops, run_append.mpr ⟨s, hbefore, hrun⟩⟩

theorem Reachable.step (h : Reachable icu platform s) {op : StoreOp} {r : Except Int Unit}
    (hstep : s.step icu platform op = some (r, s')) : Reachable icu platform s' :=
  h.run (run_cons.mpr ⟨r, s', hstep, run_nil⟩)

/-- What the empty session has and every call keeps holds in every reachable one. -/
theorem Reachable.induction {P : Session → Prop} (init : P {})
    (step : ∀ s op r s', s.step icu platform op = some (r, s') → P s → P s')
    (h : Reachable icu platform s) : P s := by
  obtain ⟨ops, hops⟩ := h
  exact run_induction step hops init

end Runs

end Session

end CifApi
