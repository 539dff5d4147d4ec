import CifApi.Data.Reuse
import CifApi.Linguist.Handlers

/-! The pieces of whitespace that the linguist program keeps: none is used once it has been printed
or discarded. -/
namespace CifApi.Linguist

open Exec Reuse

def ids (nodes : List WsNode) : List Nat := nodes.map (·.id)

@[simp] theorem ids_nil : ids [] = [] := rfl

@[simp] theorem ids_cons (node : WsNode) (nodes : List WsNode) :
    ids (node :: nodes) = node.id :: ids nodes := rfl

@[simp] theorem ids_append (nodes more : List WsNode) :
    ids (nodes ++ more) = ids nodes ++ ids more :=
  List.map_append

/-- The pieces that an entry of the record uses. -/
def Event.uses : Event → List Nat
  | .printed node => [node.id]
  | .touched nodes => ids nodes
  | .freed nodes => ids nodes
  | _ => []

/-- The pieces that are free after an entry of the record. -/
def Event.frees : Event → List Nat
  | .freed nodes => ids nodes
  | _ => []

/-- No piece is used, or freed again, after it has been freed. -/
def NeverReused (c : Context) : Prop := Reuse.NeverReused Event.uses Event.frees c.record

/-- A list or table met in CIF 1.1 format has not cut off any whitespace that was kept. -/
def Unrefused (c : Context) : Prop := ∀ queue, .refused queue ∈ c.record → queue = []

section Disciplines

/-- What the functions that print values may do without looking at the whitespace that is kept. -/
structure Tolerates (d : Discipline Halt Context) : Prop where
  halt : ∀ e c, d.halt e c c
  write : ∀ site origin text column c, origin ≠ .whitespace →
    d.step c (c.write site origin text column)
  printWsRun : Keeps False d printWsRun
  refuse : Keeps False d refuse

variable {d : Discipline Halt Context}

namespace Tolerates

variable (h : Tolerates d)

include h

theorem keeps_fail {α : Type} {result : Int} : Keeps False d (fail result : Print α) :=
  fun c => h.halt _ c

theorem keeps_put {site : Site} {origin : Origin} {text : UStr} {column : Nat}
    (horigin : origin ≠ .whitespace := by decide) : Keeps False d (put site origin text column) :=
  fun c => h.write site origin text column c horigin

theorem keeps_answer {α : Type} (r : Except Int α) : Keeps False d (answer r) := by
  cases r with
  | ok a => exact .pure a
  | error result => exact h.keeps_fail

theorem keeps_printWsRuns (k : Nat) : Keeps False d (printWsRuns k) := by
  induction k with
  | zero => exact .pure _
  | succ k ih =>
    rw [printWsRuns]
    exact h.printWsRun.bind fun _ => ih.bind fun _ => .pure _

theorem keeps_printAllWsRuns : Keeps False d printAllWsRuns :=
  Keeps.read.bind fun _ => h.keeps_printWsRuns _

theorem keeps_printWsBefore (wsNeeded : Nat) : Keeps False d (printWsBefore wsNeeded) :=
  .ite (fun _ => h.keeps_printAllWsRuns) fun _ => h.printWsRun

theorem keeps_ensureSpace {minimumSpace dataLength : Nat} :
    Keeps False d (ensureSpace minimumSpace dataLength) :=
  Keeps.read.bind fun _ => .when fun _ => .ite (fun _ => h.keeps_put) fun _ => .when fun _ =>
    h.keeps_put

theorem keeps_printULiteral {site : Site} {precedingSpace : Int} {str : UStr} {line1Length : Nat} :
    Keeps False d (printULiteral site precedingSpace str line1Length) := by
  refine Keeps.read.bind fun c => .ite (fun _ => ?_) fun _ => h.keeps_put
  exact .ite (fun _ => .ite (fun _ => h.keeps_fail) fun _ => h.keeps_put) fun _ => h.keeps_put

theorem keeps_printValueText (text : UStr) (quoted : Bool) (wsNeeded : Nat) :
    Keeps False d (printValueText text quoted wsNeeded) := by
  refine (h.keeps_printWsBefore wsNeeded).bind fun nWs => Keeps.read.bind fun c =>
    .ite (fun _ => ?_) fun _ => ?_
  · split
    · exact fun c => h.halt _ c
    · exact h.keeps_put
  · refine .ite (fun _ => ?_) fun _ => ?_
    · exact h.keeps_ensureSpace.bind fun _ => h.keeps_put
    · exact h.keeps_ensureSpace.bind fun _ => h.keeps_put

theorem keeps_printBracketed {opening closing : UChar} {contents : Print Unit}
    (hcontents : Keeps False d contents) :
    Keeps False d (printBracketed opening closing contents) := by
  refine Keeps.read.bind fun c => .ite (fun _ => h.refuse) fun _ => ?_
  refine h.keeps_printULiteral.bind fun _ => hcontents.bind fun _ => ?_
  exact h.printWsRun.bind fun _ => h.keeps_printULiteral

theorem keeps_separateBracketed {wsNeededMax : Nat} :
    Keeps False d (separateBracketed wsNeededMax) :=
  h.printWsRun.bind fun _ => .when fun _ => h.keeps_ensureSpace

theorem keeps_printPlaceholder {literal : UChar} {wsNeededMax : Nat} :
    Keeps False d (printPlaceholder literal wsNeededMax) :=
  (h.keeps_printWsBefore wsNeededMax).bind fun _ => h.keeps_printULiteral

theorem keeps_printCode (code : Except Int UStr) (type : UStr) :
    Keeps False d (printCode code type) := by
  refine (h.keeps_answer code).bind fun str => h.keeps_printAllWsRuns.bind fun n =>
    .ite (fun _ => ?_) fun _ => ?_
  · exact h.keeps_ensureSpace.bind fun _ => Keeps.read.bind fun _ => h.keeps_put
  · refine .ite (fun _ => ?_) fun _ => h.keeps_put
    exact Keeps.read.bind fun _ => h.keeps_put.bind fun _ => h.keeps_fail

theorem keeps_printNames (names : List UStr) : Keeps False d (printNames names) := by
  induction names with
  | nil => exact .pure _
  | cons name names ih =>
    rw [printNames]
    refine h.printWsRun.bind fun _ => Keeps.bind (.when fun _ => h.keeps_put) fun _ => ?_
    exact h.keeps_printULiteral.bind fun _ => ih

theorem keeps_printPlaceholders (names : List UStr) : Keeps False d (printPlaceholders names) := by
  induction names with
  | nil => exact .pure _
  | cons name names ih => exact h.keeps_printULiteral.bind fun _ => ih

theorem keeps_putUnaccounted : Keeps False d putUnaccounted := Keeps.read.bind fun _ => h.keeps_put

theorem keeps_printLoopKeyword : Keeps False d printLoopKeyword :=
  h.printWsRun.bind fun _ => .ite (fun _ => h.keeps_printULiteral) fun _ => h.keeps_put

theorem keeps_printDataname (name : UStr) : Keeps False d (printDataname name) := by
  refine h.printWsRun.bind fun _ => .ite (fun _ => h.keeps_printULiteral) fun _ =>
    .ite (fun _ => ?_) fun _ => ?_
  · exact Keeps.read.bind fun _ => h.keeps_put.bind fun _ => h.keeps_fail
  · exact h.keeps_put

end Tolerates

mutual

theorem Tolerates.keeps_printValue (h : Tolerates d) :
    ∀ (value : Value) (wsNeededMax : Nat), Keeps False d (printValue value wsNeededMax)
  | .char text quoted, wsNeededMax => by
    rw [printValue]
    exact h.keeps_printValueText text quoted wsNeededMax
  | .numb number quoted, wsNeededMax => by
    rw [printValue]
    exact h.keeps_printValueText number.text quoted wsNeededMax
  | .na, wsNeededMax => by
    rw [printValue]
    exact h.keeps_printPlaceholder
  | .unk, wsNeededMax => by
    rw [printValue]
    exact h.keeps_printPlaceholder
  | .list elements, wsNeededMax => by
    rw [printValue]
    exact h.keeps_separateBracketed.bind fun _ =>
      h.keeps_printBracketed (h.keeps_printElements elements 0)
  | .table entries, wsNeededMax => by
    rw [printValue]
    exact h.keeps_separateBracketed.bind fun _ =>
      h.keeps_printBracketed (h.keeps_printEntries entries 0)

theorem Tolerates.keeps_printElements (h : Tolerates d) :
    ∀ (elements : List Value) (wsNeeded : Nat), Keeps False d (printElements wsNeeded elements)
  | [], wsNeeded => by
    rw [printElements]
    exact .pure _
  | element :: elements, wsNeeded => by
    rw [printElements]
    exact (h.keeps_printValue element wsNeeded).bind fun _ => h.keeps_printElements elements 1

theorem Tolerates.keeps_printEntries (h : Tolerates d) :
    ∀ (entries : List (UStr × UStr × Value)) (wsNeeded : Nat),
      Keeps False d (printEntries wsNeeded entries)
  | [], wsNeeded => by
    rw [printEntries]
    exact .pure _
  | (_, key, value) :: entries, wsNeeded => by
    rw [printEntries]
    refine (h.keeps_printValueText key true wsNeeded).bind fun _ => h.keeps_printULiteral.bind
      fun _ => ?_
    exact (h.keeps_printValue value 0).bind fun _ => h.keeps_printEntries entries 1

end

end Disciplines

section Intact

/-- The pieces in hand and in the queue are live, and whitespace to come is different. -/
structure Intact (hand : List WsNode) (c : Context) : Prop where
  owned : Owned Event.uses Event.frees c.record (ids (hand ++ c.wsQueue.flatten))
  bound : ∀ i, i ∈ ids (hand ++ c.wsQueue.flatten) ∨ i ∈ freed Event.frees c.record → i < c.nextId
  runs : ∀ run ∈ c.wsQueue, run ≠ []
  unrefused : Unrefused c

/-- The queue still has pieces that have been freed. -/
structure Dangling (c : Context) : Prop where
  queue : c.wsQueue ≠ []
  freed : ∀ node ∈ c.wsQueue.flatten, node.id ∈ freed Event.frees c.record
  runs : ∀ run ∈ c.wsQueue, run ≠ []
  refused : ¬ Unrefused c

variable {hand rest : List WsNode} {c t : Context} {e : Event}

theorem Intact.of_eq (h : Intact hand c) (hrecord : t.record = c.record)
    (hqueue : t.wsQueue = c.wsQueue) (hnextId : t.nextId = c.nextId) : Intact hand t := by
  obtain ⟨howned, hbound, hruns, hunrefused⟩ := h
  constructor
  · rwa [hrecord, hqueue]
  · rwa [hrecord, hqueue, hnextId]
  · rwa [hqueue]
  · rwa [Unrefused, hrecord]

theorem Unrefused.note (h : Unrefused c) (he : ∀ queue, e ≠ .refused queue) :
    Unrefused (c.note e) := by
  intro queue hqueue
  rcases List.mem_cons.mp hqueue with heq | hmem
  · exact absurd heq.symm (he queue)
  · exact h queue hmem

/-- An entry that uses pieces in hand or in the queue. -/
theorem Intact.note (h : Intact hand c) (huses : ∀ i ∈ e.uses, i ∈ ids (hand ++ c.wsQueue.flatten))
    (hfrees : e.frees = []) (he : ∀ queue, e ≠ .refused queue) : Intact hand (c.note e) where
  owned := h.owned.use huses hfrees
  bound := by
    intro i hi
    refine h.bound i (hi.imp_right fun hfreed => ?_)
    rw [Context.note, freed_cons, hfrees] at hfreed
    exact hfreed
  runs := h.runs
  unrefused := h.unrefused.note he

theorem Intact.write (h : Intact hand c) (site : Site) (origin : Origin) (text : UStr)
    (column : Nat) :
    Intact hand (c.write site origin text column) := by
  refine Intact.note (c := { c with out := _, column := column }) (h.of_eq rfl rfl rfl) ?_ rfl ?_
  · simp [Event.uses]
  · simp

/-- Pieces are freed, of which the program keeps no pointers. -/
theorem Intact.free {nodes : List WsNode} (rest : List WsNode) (queue : List (List WsNode))
    (h : Intact hand c)
    (hperm : (ids nodes ++ ids (rest ++ queue.flatten)).Perm (ids (hand ++ c.wsQueue.flatten)))
    (hruns : ∀ run ∈ queue, run ≠ []) : Intact rest ((c.note (.freed nodes)).setQueue queue) where
  owned := h.owned.free (fun i hi => hperm.mem_iff.mp (List.mem_append_left _ hi)) hperm
  bound := by
    intro i hi
    refine h.bound i ?_
    rcases hi with hheld | hfreed
    · exact .inl (hperm.mem_iff.mp (List.mem_append_right _ hheld))
    · change i ∈ freed Event.frees (.freed nodes :: c.record) at hfreed
      rw [freed_cons, List.mem_append] at hfreed
      exact hfreed.imp_left fun hnow => hperm.mem_iff.mp (List.mem_append_left _ hnow)
  runs := hruns
  unrefused := h.unrefused.note (by simp)

theorem post_printPieces (nodes : List WsNode) (h : Intact (nodes ++ hand) c) :
    Post False (printPieces nodes) c (fun _ t => Intact hand t) fun _ _ => False := by
  induction nodes generalizing c with
  | nil => exact h
  | cons node nodes ih =>
    rw [printPieces, post_bind]
    have hprinted : Intact (node :: nodes ++ hand) (c.note (.printed node)) :=
      h.note (by simp [Event.uses]) rfl (by simp)
    have hfreed : Intact (nodes ++ hand) (((c.note (.printed node)).write .other .whitespace node.ws
        (wsColumn node.ws c.column)).note (.freed [node])) :=
      Intact.free (nodes ++ hand) c.wsQueue (hprinted.write ..) (.refl _) h.runs
    exact (ih hfreed).bind fun _ _ ht => ht

theorem post_printWsRun (h : Intact [] c) :
    Post False printWsRun c (fun _ t => Intact [] t) fun _ _ => False := by
  rw [printWsRun, post_bind, post_read]
  split
  · exact h
  · rename_i run runs hqueue
    refine post_printPieces run ?_
    have hflat : run ++ [] ++ runs.flatten = [] ++ c.wsQueue.flatten := by
      rw [hqueue, List.flatten_cons, List.append_nil, List.nil_append]
    constructor
    · have howned := h.owned
      rwa [← hflat] at howned
    · have hbound := h.bound
      rwa [← hflat] at hbound
    · intro r hr
      exact h.runs r (by rw [hqueue]; exact List.mem_cons_of_mem _ hr)
    · exact h.unrefused

/-- To print whitespace is to add to the record. -/
theorem grows_printPieces (nodes : List WsNode) (c : Context) :
    Post False (printPieces nodes) c (fun _ t => c.record <:+ t.record) fun _ _ => False := by
  induction nodes generalizing c with
  | nil => exact List.suffix_refl _
  | cons node nodes ih =>
    rw [printPieces, post_bind]
    refine (ih _).bind fun _ t ht => List.IsSuffix.trans ?_ ht
    exact (List.suffix_cons ..).trans ((List.suffix_cons ..).trans (List.suffix_cons ..))

theorem grows_printWsRun (c : Context) :
    Post False printWsRun c (fun _ t => c.record <:+ t.record) fun _ _ => False := by
  rw [printWsRun, post_bind, post_read]
  split
  · exact List.suffix_refl _
  · exact grows_printPieces _ _

/-- What a run keeps to: whether it goes on or stops, the pieces stay intact, unless whitespace is
cut off. -/
def keeping : Discipline Halt Context where
  step := fun c t => Intact [] c → Intact [] t
  halt := fun e c t => Intact [] c → Intact [] t ∨ e ≠ .assertion ∧ Dangling t
  refl := fun _ h => h
  trans := fun h h' hc => h' (h hc)
  step_halt := fun h h' hc => h' (h hc)

/-- Pieces are discarded, after a look at them. -/
theorem Intact.flush (nodes : List WsNode) (queue : List (List WsNode)) (h : Intact [] c)
    (hperm : (ids nodes ++ ids queue.flatten).Perm (ids c.wsQueue.flatten))
    (hruns : ∀ run ∈ queue, run ≠ []) :
    Intact [] (((c.note (.touched nodes)).note (.freed nodes)).setQueue queue) := by
  refine Intact.free [] queue (Intact.note h ?_ rfl (by simp)) hperm hruns
  exact fun i hi => hperm.mem_iff.mp (List.mem_append_left _ hi)

theorem dangling_refuse (hc : Intact [] c) : Intact [] (((c.note (.refused c.wsQueue)).note
      (.touched c.wsQueue.flatten)).note (.freed c.wsQueue.flatten))
    ∨ Dangling
      (((c.note (.refused c.wsQueue)).note (.touched c.wsQueue.flatten)).note
        (.freed c.wsQueue.flatten)) := by
  by_cases hqueue : c.wsQueue = []
  · left
    have hrefused : Intact [] (c.note (.refused c.wsQueue)) := by
      obtain ⟨howned, hbound, hruns, hunrefused⟩ := hc
      refine ⟨howned.use (by simp [Event.uses]) rfl, hbound, hruns, fun queue hmem => ?_⟩
      rcases List.mem_cons.mp hmem with heq | hmem
      · rw [Event.refused.inj heq, hqueue]
      · exact hunrefused queue hmem
    refine (hrefused.flush c.wsQueue.flatten c.wsQueue ?_ hc.runs).of_eq rfl rfl rfl
    simp [hqueue, Context.note]
  · right
    refine ⟨hqueue, fun node hnode => ?_, hc.runs, fun hall => hqueue (hall c.wsQueue ?_)⟩
    · exact List.mem_append_left _ (List.mem_map_of_mem hnode)
    · simp [Context.note]

theorem tolerates_keeping : Tolerates keeping where
  halt := fun _ _ hc => .inl hc
  write := fun _ _ _ _ _ _ hc => hc.write ..
  printWsRun := by
    intro c
    by_cases hc : Intact [] c
    · exact (post_printWsRun hc).imp (fun _ _ ht _ => ht) fun _ _ hf => hf.elim
    · exact (grows_printWsRun c).imp (fun _ _ _ hc' => absurd hc' hc) fun _ _ hf => hf.elim
  refuse := fun _ hc => (dangling_refuse hc).imp_right fun ht => ⟨by simp, ht⟩

end Intact

section Run

variable {c : Context}

/-- A change of the context that has nothing to do with the pieces. -/
def Apart (g : Context → Context) : Prop :=
  ∀ c, (g c).record = c.record ∧ (g c).wsQueue = c.wsQueue ∧ (g c).nextId = c.nextId

theorem keeps_apart {g : Context → Context} (h : Apart g) : Keeps False keeping (modify g) :=
  fun c hc => hc.of_eq (h c).1 (h c).2.1 (h c).2.2

theorem keeps_apart_bind {α : Type} {g : Context → Context} {f : Unit → Print α}
    (hf : ∀ a, Keeps False keeping (f a)) (h : Apart g) : Keeps False keeping (modify g >>= f) :=
  (keeps_apart h).bind hf

/-- Of the first run, what follows the version comment is kept. -/
theorem suffix_of_skipLine {node : WsNode} {rest : UStr} {nodes result : List WsNode}
    (h : skipLine node rest nodes = some result) : ids result <:+ node.id :: ids nodes := by
  induction nodes generalizing node rest with
  | nil =>
    obtain ⟨ws, _, rfl⟩ := Option.map_eq_some_iff.mp h
    exact List.suffix_refl _
  | cons next nodes ih =>
    rw [skipLine] at h
    split at h
    · obtain rfl := Option.some.inj h
      exact List.suffix_refl _
    · exact (ih h).trans (List.suffix_cons ..)

theorem suffix_of_findStart {header rest : UStr} {node : WsNode} {nodes after : List WsNode}
    (h : findStart header nodes = some (node, rest, after)) : node :: after <:+ nodes := by
  induction nodes generalizing header with
  | nil => simp [findStart] at h
  | cons first nodes ih =>
    rw [findStart] at h
    split at h
    · simp at h
    · obtain ⟨rfl, rfl, rfl⟩ : first = node ∧ _ = rest ∧ nodes = after := by simpa using h
      exact List.suffix_refl _
    · exact (ih h).trans (List.suffix_cons ..)

theorem suffix_of_dropVersionComment {run rest : List WsNode}
    (h : dropVersionComment run = some rest) :
    ids rest <:+ ids run := by
  obtain ⟨⟨node, text, nodes⟩, hfind, rfl⟩ := Option.map_eq_some_iff.mp h
  change ids ((skipLine node text nodes).getD []) <:+ ids run
  cases hskip : skipLine node text nodes with
  | none => exact List.nil_suffix
  | some result =>
    have hsuffix := suffix_of_findStart hfind
    exact (suffix_of_skipLine hskip).trans (hsuffix.map _)

theorem Intact.dropStart {run : List WsNode} {runs : List (List WsNode)} (h : Intact [] c)
    (hqueue : c.wsQueue = run :: runs) : Intact [] (c.dropStart run runs) := by
  rw [Context.dropStart]
  cases hdrop : dropVersionComment run with
  | none => exact h
  | some rest =>
    obtain ⟨cut, hcut⟩ := suffix_of_dropVersionComment hdrop
    have htake : ids (run.take (run.length - rest.length)) = cut := by
      have hlength : run.length - rest.length = cut.length := by
        have h := congrArg List.length hcut
        simp only [ids, List.length_append, List.length_map] at h
        omega
      rw [ids, List.map_take, hlength]
      change (ids run).take cut.length = cut
      rw [← hcut, List.take_left]
    have hflat : ids (if rest = [] then runs else rest :: runs).flatten
        = ids rest ++ ids runs.flatten := by
      split
      · rename_i hnil
        rw [hnil]
        rfl
      · rw [List.flatten_cons, ids_append]
    have hother : ∀ r ∈ runs, r ≠ [] :=
      fun r hr => h.runs r (by rw [hqueue]; exact List.mem_cons_of_mem _ hr)
    refine Intact.free [] _ h ?_ ?_
    · rw [List.nil_append, List.nil_append, htake, hflat, hqueue, List.flatten_cons, ids_append,
        ← hcut, List.append_assoc]
    · intro r hr
      split at hr
      · exact hother r hr
      · rename_i hne
        rcases List.mem_cons.mp hr with rfl | hr
        · exact hne
        · exact hother r hr

theorem keeps_consume : Keeps False keeping consumeVersionComment := by
  intro c hc
  rw [Context.consumeStart]
  split
  · exact hc
  · rename_i run runs hqueue
    refine Intact.dropStart (hc.note ?_ rfl (by simp)) hqueue
    intro i hi
    rw [hqueue, List.nil_append, List.flatten_cons, ids_append]
    exact List.mem_append_left _ hi

theorem keeps_leave : Keeps False keeping leaveStart :=
  Keeps.read.bind fun _ => .when fun _ => keeps_consume.bind fun _ => keeps_apart fun _ =>
    ⟨rfl, rfl, rfl⟩

theorem flatten_enqueue (inWsRun : Bool) (node : WsNode) (queue : List (List WsNode)) :
    (enqueue inWsRun node queue).flatten = queue.flatten ++ [node] := by
  rw [enqueue]
  cases hlast : queue.getLast? with
  | none =>
    rw [List.getLast?_eq_none_iff.mp hlast]
    rfl
  | some run =>
    obtain ⟨init, rfl⟩ := List.getLast?_eq_some_iff.mp hlast
    dsimp only
    split
    · simp
    · simp

theorem enqueue_runs {inWsRun : Bool} {node : WsNode} {queue : List (List WsNode)}
    (h : ∀ run ∈ queue, run ≠ []) :
    ∀ run ∈ enqueue inWsRun node queue, run ≠ [] := by
  rw [enqueue]
  intro run hrun
  split at hrun
  · simp_all
  · split at hrun
    · rcases List.mem_append.mp hrun with hold | hnew
      · exact h run (List.mem_of_mem_dropLast hold)
      · simp_all
    · rcases List.mem_append.mp hrun with hold | hnew
      · exact h run hold
      · simp_all

theorem keeps_preserve (ws : List UChar) : Keeps False keeping (preserveWhitespace ws) := by
  intro c hc
  have hdelivered : Intact []
      ((c.note (.touched c.wsQueue.flatten)).note (.delivered (c.piece ws))) := by
    refine (Intact.note hc ?_ rfl (by simp)).note (by simp [Event.uses]) rfl (by simp)
    exact fun i hi => hi
  obtain ⟨howned, hbound, hruns, hunrefused⟩ := hdelivered
  have hheld := fun hmem => Nat.lt_irrefl _ (hbound c.nextId (.inl hmem))
  have hfreed := fun hmem => Nat.lt_irrefl _ (hbound c.nextId (.inr hmem))
  have hids : ids ([] ++ (c.deliver ws).wsQueue.flatten)
      = ids ([] ++ c.wsQueue.flatten) ++ [c.nextId] := by
    rw [Context.deliver, flatten_enqueue]
    simp [Context.piece]
  refine ⟨?_, ?_, enqueue_runs hruns, hunrefused⟩
  · change Owned _ _ _ (ids ([] ++ (c.deliver ws).wsQueue.flatten))
    rw [hids]
    exact howned.add hfreed hheld
  · change ∀ i, i ∈ ids ([] ++ (c.deliver ws).wsQueue.flatten) ∨ _ → i < c.nextId + 1
    rw [hids]
    intro i hi
    rcases hi with hheld | hfreed
    · rcases List.mem_append.mp hheld with hold | hnew
      · exact Nat.lt_succ_of_lt (hbound i (.inl hold))
      · rw [List.mem_singleton.mp hnew]
        exact Nat.lt_succ_self _
    · exact Nat.lt_succ_of_lt (hbound i (.inr hfreed))

theorem post_keepFirstRuns {first : List WsNode} {runs : List (List WsNode)} (inLoop : Bool)
    (hqueue : c.wsQueue = first :: runs) :
    Post False (keepFirstRuns inLoop first runs) c (fun _ t => Intact [] c → Intact [] t) fun _ _ =>
      False := by
  have hfirst : Intact [] c → first ≠ [] :=
    fun hc => hc.runs first (by rw [hqueue]; exact List.mem_cons_self ..)
  cases inLoop with
  | true =>
    intro hc
    refine hc.flush _ _ ?_ (by simpa using hfirst hc)
    rw [hqueue, List.flatten_singleton, List.flatten_cons, ids_append]
    exact List.perm_append_comm
  | false =>
    cases runs with
    | nil => exact id
    | cons second runs =>
      intro hc
      refine hc.flush _ _ ?_ (by simp [hfirst hc])
      rw [hqueue, List.flatten_singleton, List.flatten_cons, List.flatten_cons, ← List.append_assoc,
        ids_append (first ++ second)]
      exact List.perm_append_comm

theorem keeps_suppress : Keeps False keeping suppressItem := by
  intro c
  rw [suppressItem, post_bind, post_read]
  split
  · exact id
  · rename_i first runs hqueue
    refine (post_keepFirstRuns c.inLoop hqueue).imp ?_ (fun _ _ hf => hf.elim) |>.bind fun _ _ ht =>
      ht
    exact fun _ t ht hc => (ht hc).of_eq rfl rfl rfl

theorem keeps_inject : Keeps False keeping injectNewline :=
  Keeps.read.bind fun _ => .when fun _ => keeps_preserve _

theorem keeps_flush (flushed : Int) : Keeps False keeping (flushContainer flushed) :=
  keeps_apart_bind (fun _ => .when fun _ => tolerates_keeping.keeps_fail) fun _ => ⟨rfl, rfl, rfl⟩

theorem keeps_dummyPacket (names : List UStr) : Keeps False keeping (printDummyPacket names) := by
  have h := tolerates_keeping
  refine keeps_apart_bind (fun _ => h.keeps_put.bind fun _ => ?_) fun _ => ⟨rfl, rfl, rfl⟩
  exact (h.keeps_printPlaceholders names).bind fun _ => h.keeps_putUnaccounted

theorem keeps_loopStart (names : Except Int (List UStr)) :
    Keeps False keeping (handleLoopStart names) := by
  have h := tolerates_keeping
  refine keeps_apart_bind (fun _ => Keeps.read.bind fun c => ?_) fun _ => ⟨rfl, rfl, rfl⟩
  refine .ite (fun _ => h.keeps_printAllWsRuns.bind fun _ => .pure _) fun _ => ?_
  refine keeps_apart_bind (fun _ => h.keeps_printLoopKeyword.bind fun _ => ?_) fun _ =>
    ⟨rfl, rfl, rfl⟩
  refine (h.keeps_answer names).bind fun names => (h.keeps_printNames names).bind fun _ => ?_
  exact Keeps.read.bind fun _ => .when fun _ => keeps_dummyPacket names

/-- Every callback keeps the pieces intact, or stops with the code of a value that cannot be
printed. -/
theorem keeps_call (call : Callback) : Keeps False keeping (handle call) := by
  have h := tolerates_keeping
  cases call with
  | cifStart => exact Keeps.read.bind fun _ => h.keeps_put
  | blockStart code =>
    exact keeps_leave.bind fun _ => keeps_apart_bind (fun _ => h.keeps_printCode _ _) fun _ =>
      ⟨rfl, rfl, rfl⟩
  | blockEnd flushed => exact keeps_flush flushed
  | frameStart code =>
    refine keeps_apart_bind (fun _ => Keeps.read.bind fun _ => .when fun _ => ?_) fun _ =>
      ⟨rfl, rfl, rfl⟩
    exact keeps_apart_bind (fun _ => h.keeps_printCode _ _) fun _ => ⟨rfl, rfl, rfl⟩
  | frameEnd flushed =>
    refine h.keeps_printAllWsRuns.bind fun _ => keeps_apart_bind (fun _ => ?_) fun _ =>
      ⟨rfl, rfl, rfl⟩
    refine Keeps.read.bind fun _ => Keeps.bind (.when fun _ => ?_) fun _ => keeps_flush flushed
    exact .ite (fun _ => h.keeps_printULiteral) fun _ => h.keeps_put
  | loopStart names => exact keeps_loopStart names
  | loopEnd =>
    refine Keeps.read.bind fun _ => .when fun _ => ?_
    exact keeps_apart_bind (fun _ => keeps_inject) fun _ => ⟨rfl, rfl, rfl⟩
  | packetStart => exact Keeps.read.bind fun _ => .when fun _ => keeps_inject
  | packetEnd => exact .pure _
  | item name value =>
    refine Keeps.read.bind fun c => ?_
    cases name with
    | none => exact keeps_suppress
    | some name =>
      refine .ite (fun _ => keeps_suppress) fun _ => keeps_apart_bind (fun _ => ?_) fun _ =>
        ⟨rfl, rfl, rfl⟩
      exact Keeps.bind (.when fun _ => h.keeps_printDataname name) fun _ =>
        h.keeps_printValue value 2
  | whitespace ws => exact keeps_preserve ws
  | error code =>
    refine keeps_apart_bind (fun _ => Keeps.read.bind fun _ => ?_) fun _ => ⟨rfl, rfl, rfl⟩
    exact .ite (fun _ => h.keeps_fail) fun _ => .when fun _ => keeps_apart fun _ => ⟨rfl, rfl, rfl⟩

theorem keeps_calls (calls : List Callback) : Keeps False keeping (handleAll calls) := by
  induction calls with
  | nil => exact .pure _
  | cons call calls ih => exact (keeps_call call).bind fun _ => ih

end Run

section End

variable {c t : Context}

theorem suffix_dropStart (run : List WsNode) (runs : List (List WsNode)) (c : Context) :
    c.record <:+ (c.dropStart run runs).record := by
  rw [Context.dropStart]
  split
  · exact List.suffix_refl _
  · exact List.suffix_cons ..

theorem suffix_consumeStart (c : Context) : c.record <:+ c.consumeStart.record := by
  rw [Context.consumeStart]
  split
  · exact List.suffix_refl _
  · rename_i run runs _
    exact List.IsSuffix.trans (List.suffix_cons _ _)
      (suffix_dropStart run runs (c.note (.touched run)))

/-- What has been reused, and what has been refused, stays so. -/
theorem reused_of_suffix (hsuffix : c.record <:+ t.record) (hreused : ¬ NeverReused c) :
    ¬ NeverReused t := by
  obtain ⟨more, hmore⟩ := hsuffix
  refine fun hnever => hreused ?_
  rw [NeverReused, ← hmore] at hnever
  exact hnever.of_append

theorem refused_of_suffix (hsuffix : c.record <:+ t.record) (hrefused : ¬ Unrefused c) :
    ¬ Unrefused t :=
  fun h => hrefused fun queue hqueue => h queue (hsuffix.subset hqueue)

/-- Where pieces dangle, the next look at the whitespace is a look at what has been freed. -/
theorem Dangling.reused_printWsRun (h : Dangling c) :
    Post False printWsRun c (fun _ t => ¬ NeverReused t) fun _ _ => False := by
  rw [printWsRun, post_bind, post_read]
  split
  · rename_i hnil
    exact absurd hnil h.queue
  · rename_i run runs hqueue
    cases run with
    | nil => exact absurd rfl (h.runs [] (by rw [hqueue]; exact List.mem_cons_self ..))
    | cons node nodes =>
      have hnode : node.id ∈ Reuse.freed Event.frees c.record := h.freed node (by rw [hqueue]; simp)
      have hprinted : ¬ NeverReused (c.note (.printed node)) :=
        not_neverReused (by simp [Event.uses]) hnode
      rw [printPieces]
      refine (grows_printPieces nodes _).bind fun _ t ht => ?_
      refine reused_of_suffix (List.IsSuffix.trans ?_ ht) hprinted
      exact (List.suffix_cons ..).trans (List.suffix_cons ..)

theorem Dangling.reused_consumeStart (h : Dangling c) : ¬ NeverReused c.consumeStart := by
  rw [Context.consumeStart]
  split
  · rename_i hnil
    exact absurd hnil h.queue
  · rename_i run runs hqueue
    cases run with
    | nil => exact absurd rfl (h.runs [] (by rw [hqueue]; exact List.mem_cons_self ..))
    | cons node nodes =>
      have hnode : node.id ∈ Reuse.freed Event.frees c.record := h.freed node (by rw [hqueue]; simp)
      have htouched : ¬ NeverReused (c.note (.touched (node :: nodes))) :=
        not_neverReused (by simp [Event.uses]) hnode
      exact reused_of_suffix (suffix_dropStart ..) htouched

theorem post_printWsRuns {P : Context → Prop} {k : Nat}
    (hP : ∀ c t, P c → c.record <:+ t.record → P t) (hc : P c) :
    Post False (printWsRuns k) c (fun _ t => P t) fun _ _ => False := by
  induction k generalizing c with
  | zero => exact hc
  | succ k ih =>
    rw [printWsRuns]
    exact (grows_printWsRun c).bind fun _ t ht => (ih (hP c t hc ht)).bind fun _ _ hr => hr

/-- At the end of a run the whitespace that dangles is used. -/
theorem Dangling.reused_handleCifEnd (h : Dangling c) :
    Post False handleCifEnd c (fun _ t => ¬ NeverReused t ∧ ¬ Unrefused t) fun _ _ => False := by
  have hkept : ∀ c t : Context, (¬ NeverReused c ∧ ¬ Unrefused c) → c.record <:+ t.record →
      ¬ NeverReused t ∧ ¬ Unrefused t :=
    fun c t hc hsuffix => ⟨reused_of_suffix hsuffix hc.1, refused_of_suffix hsuffix hc.2⟩
  have hend : ∀ c : Context, (¬ NeverReused c ∧ ¬ Unrefused c) ∨ Dangling c →
      Post False (printAllWsRuns >>= fun nprinted => when (nprinted ≤ 0) putUnaccounted) c
        (fun _ t => ¬ NeverReused t ∧ ¬ Unrefused t) fun _ _ => False := by
    intro c hc
    refine Post.bind (Q := fun _ t => ¬ NeverReused t ∧ ¬ Unrefused t) ?_ fun n t ht => ?_
    · rw [printAllWsRuns, post_bind, post_read]
      rcases hc with hc | hdangling
      · exact post_printWsRuns hkept hc
      · obtain ⟨run, runs, hqueue⟩ := List.exists_cons_of_ne_nil hdangling.queue
        rw [hqueue, List.length_cons, printWsRuns]
        refine Post.bind (Q := fun _ t => ¬ NeverReused t ∧ ¬ Unrefused t) ?_ fun _ t ht =>
          (post_printWsRuns hkept ht).bind fun _ _ hr => hr
        have hgrows : Ensures printWsRun c (fun _ t => c.record <:+ t.record) fun _ _ => False :=
          (grows_printWsRun c).of_cut fun hf => hf.elim
        refine (hgrows.and hdangling.reused_printWsRun).imp (fun _ t ht => ?_) fun _ _ hf => hf.1
        exact ⟨ht.2, refused_of_suffix ht.1 hdangling.refused⟩
    · rw [post_when]
      exact ⟨fun _ => hkept _ _ ht (List.suffix_cons ..), fun _ => ht⟩
  rw [handleCifEnd, leaveStart, post_bind, post_bind, post_read, post_when]
  constructor
  · intro _
    refine hend _ (.inl ?_)
    have htouched := h.reused_consumeStart
    exact ⟨htouched, refused_of_suffix (suffix_consumeStart c) h.refused⟩
  · exact fun _ => hend _ (.inr h)

/-- The whitespace that is left at the end is all printed. -/
theorem Intact.post_handleCifEnd (h : Intact [] c) :
    Post False handleCifEnd c (fun _ t => Intact [] t) fun _ _ => False := by
  have hruns : ∀ k (c : Context), Intact [] c →
      Post False (printWsRuns k) c (fun _ t => Intact [] t) fun _ _ => False := by
    intro k
    induction k with
    | zero => exact fun _ hc => hc
    | succ k ih =>
      intro c hc
      rw [printWsRuns]
      exact (post_printWsRun hc).bind fun _ t ht => (ih t ht).bind fun _ _ hr => hr
  have hend : ∀ c : Context, Intact [] c →
      Post False (printAllWsRuns >>= fun nprinted => when (nprinted ≤ 0) putUnaccounted) c
        (fun _ t => Intact [] t) fun _ _ => False := by
    intro c hc
    rw [printAllWsRuns, post_bind, post_bind, post_read]
    refine (hruns _ c hc).imp (fun n t ht => ?_) fun _ _ hf => hf
    rw [post_when]
    exact ⟨fun _ => ht.write .., fun _ => ht⟩
  rw [handleCifEnd, leaveStart, post_bind, post_bind, post_read, post_when]
  refine ⟨fun _ => hend _ ?_, fun _ => hend _ h⟩
  exact (keeps_consume c h).of_eq rfl rfl rfl

variable (outputFormat : Format) (extraWs extraEol : UStr) (haltOnError : Bool)

theorem intact_initial : Intact [] (.initial outputFormat extraWs extraEol haltOnError) where
  owned := owned_nil
  bound := by simp [Context.initial, freed]
  runs := by simp [Context.initial]
  unrefused := by simp [Unrefused, Context.initial]

/-- Whatever the callbacks of a parse, a run of the program comes to an end, and no piece of
whitespace is used after it has been printed or discarded, if and only if no list or table was met
in CIF 1.1 format while whitespace was kept: `handle_cif_end` then goes on with pieces that
`flush_ws` has freed. -/
theorem neverReused_iff_unrefused (calls : List Callback) :
    ∃ r c, convert calls (.initial outputFormat extraWs extraEol haltOnError) = some (r, c)
      ∧ (NeverReused c ↔ Unrefused c) := by
  have hboth : ∀ c : Context, Intact [] c → (NeverReused c ↔ Unrefused c) :=
    fun c hc => iff_of_true hc.owned.never hc.unrefused
  have hrun : Post False (convert calls) (.initial outputFormat extraWs extraEol haltOnError)
      (fun _ c => NeverReused c ↔ Unrefused c) fun _ c => NeverReused c ↔ Unrefused c := by
    have hinitial := intact_initial outputFormat extraWs extraEol haltOnError
    rw [convert, post_bind, post_attempt]
    refine (keeps_calls calls _).imp ?_ ?_
    · intro _ t ht
      exact (ht hinitial).post_handleCifEnd.imp (fun _ r hr => hboth r hr) fun _ _ hf => hf.elim
    · intro halt t ht
      rcases ht hinitial with hintact | ⟨hne, hdangling⟩
      · cases halt with
        | assertion => exact hboth t hintact
        | code result =>
          exact hintact.post_handleCifEnd.imp (fun _ r hr => hboth r hr) fun _ _ hf => hf.elim
      · cases halt with
        | assertion => exact absurd rfl hne
        | code result =>
          exact hdangling.reused_handleCifEnd.imp (fun _ _ hr => iff_of_false hr.1 hr.2)
            fun _ _ hf => hf.elim
  obtain ⟨⟨r, c⟩, hc⟩ := Halts.exists hrun
  refine ⟨r, c, hc, ?_⟩
  cases r with
  | ok a => exact hrun.of_ok hc
  | error e => exact hrun.of_error hc

end End

end CifApi.Linguist
