import CifApi.Parser.Traversal
import CifApi.Parser.Termination

/-! What follows an answer of a callback that ends the parse: nothing, but for the answers the
parser drops. -/
namespace CifApi

open Exec Scanner

variable {σ : Type} {cfg : Config σ}

/-- The blocks and frames a record enters and does not leave, innermost first. -/
def openContainers : List (Event σ) → List Entity
  | [] => []
  | .enter .block :: log => .block :: openContainers log
  | .enter .frame :: log => .frame :: openContainers log
  | .leave .block :: log => (openContainers log).tail
  | .leave .frame :: log => (openContainers log).tail
  | _ :: log => openContainers log

/-- Whether what follows `log` is directly inside a block. -/
def InBlock (log : List (Event σ)) : Prop := (openContainers log).head? = some .block

/-- A byte sequence without a character is reported with no text. -/
def ErrorReport.IsUndecodable (report : ErrorReport) : Prop :=
  (report.code = Code.invalidChar ∨ report.code = Code.unmappedChar) ∧ report.text = []

/-- A refusal the parse overlooks: of a frame in a block, or with `CIF_EOF` of a byte sequence
without a character. -/
def Overlooked (log : List (Event σ)) (report : ErrorReport) (reply : Int) : Prop :=
  report.code = Code.frameNotAllowed ∧ InBlock log ∨ report.IsUndecodable ∧ reply = Code.eof

/-- An event of a parse with the record `log` whose answer ends the parse. -/
def Ends (log : List (Event σ)) : Event σ → Prop
  | .error report reply _ => reply ≠ Code.ok ∧ ¬ Overlooked log report reply
  | .handler call reply _ => Obeyed call reply
  | _ => False

/-- No event of the record ends the parse. -/
def Quiet : List (Event σ) → Prop
  | [] => True
  | e :: log => ¬ Ends log e ∧ Quiet log

theorem Quiet.split {newer older : List (Event σ)} {e : Event σ} (h : Quiet (newer ++ e :: older)) :
    ¬ Ends older e := by
  induction newer with
  | nil => exact h.1
  | cons _ _ ih => exact ih h.2

/-- What a callback answers in an event, and the world it leaves. -/
def Event.answer : Event σ → Option (Int × World σ)
  | .error _ reply after => some (reply, after)
  | .handler _ reply after => some (reply, after)
  | _ => none

/-- The last thing that happened is an event answered with `e`, and none before it ends the
parse. -/
def Ended (e : Int) (s : Scanner σ) : Prop :=
  ∃ event log, s.log = event :: log ∧ event.answer = some (e, s.world) ∧ Quiet log

/-- Runs that go on see no event that ends the parse, and leave the containers they enter; others
stop at the first such event. -/
def untilEnded : Discipline Int (Scanner σ) where
  step := fun s t => (Quiet s.log → Quiet t.log) ∧ openContainers t.log = openContainers s.log
  halt := fun e s t => Quiet s.log → Quiet t.log ∨ Ended e t
  refl := fun _ => ⟨id, rfl⟩
  trans := fun h h' => ⟨h'.1 ∘ h.1, h'.2.trans h.2⟩
  step_halt := fun h h' hq => h' (h.1 hq)

/-- As `untilEnded`, but only refused errors end a run. -/
def untilRefused : Discipline Int (Scanner σ) where
  step := untilEnded.step
  halt := fun e s t => Quiet s.log → ∃ report log, t.log = .error report e t.world :: log
    ∧ Quiet log
  refl := untilEnded.refl
  trans := untilEnded.trans
  step_halt := fun h h' hq => h' (h.1 hq)

/-- An event that ends no parse and concerns no container. -/
theorem untilEnded_push {s t : Scanner σ} {e : Event σ} (ht : t.log = e :: s.log)
    (he : ¬ Ends s.log e) (ho : openContainers (e :: s.log) = openContainers s.log) :
    untilEnded.step s t := by
  refine ⟨fun hq => ?_, ?_⟩
  · rw [ht]
    exact ⟨he, hq⟩
  · rw [ht, ho]

theorem refuses_report (code : Int) (line column : Nat) (text : List UChar) :
    Keeps True untilRefused (report cfg code line column text) := by
  intro s
  rw [post_report, post_errorCallback]
  exact ⟨fun hok => untilEnded_push rfl (fun h => h.1 hok) rfl, fun _ hq => ⟨_, s.log, rfl, hq⟩⟩

theorem refuses_toUnicodeCallback (kind : Malformed) :
    Keeps True untilRefused (toUnicodeCallback cfg kind) := by
  intro s
  have hundecodable : ErrorReport.IsUndecodable ⟨kind.code, s.line, s.column, []⟩ := by
    cases kind
    · exact ⟨.inr rfl, rfl⟩
    · exact ⟨.inl rfl, rfl⟩
  rw [toUnicodeCallback, post_bind, post_read, post_bind, post_errorCallback, post_ite]
  refine ⟨fun hok => untilEnded_push rfl (fun h => h.1 hok) rfl,
    fun _ => post_ite.mpr ⟨fun heof => ?_, fun _ hq => ?_⟩⟩
  · exact untilEnded_push rfl (fun h => h.2 (.inr ⟨hundecodable, heof⟩)) rfl
  · exact ⟨_, s.log, rfl, hq⟩

theorem untilRefusedScan : ToleratesScan cfg untilRefused where
  edit := by
    intro s t h
    obtain ⟨-, hlog, -⟩ := h
    exact ⟨fun hq => hlog ▸ hq, by rw [hlog]⟩
  report := fun _ _ _ _ _ => refuses_report _ _ _ _
  element := fun _ _ => untilEnded_push rfl id rfl
  toUnicodeCallback := refuses_toUnicodeCallback

theorem Ended.of_refused {e : Int} {s t : Scanner σ} (h : untilRefused.halt e s t) :
    untilEnded.halt e s t := by
  intro hq
  obtain ⟨report, log, hlog, hq'⟩ := h hq
  exact Or.inr ⟨_, log, hlog, rfl, hq'⟩

theorem Ended.keeps_of_refused {α : Type} {m : Parse σ α} (h : Keeps True untilRefused m) :
    Keeps True untilEnded m :=
  fun s => (h s).imp (fun _ _ h => h) fun _ _ h => Ended.of_refused h

theorem ended_handler {α : Type} (call : HandlerCall) (f : HandlerReply σ → Parse σ α)
    (hf : ∀ reply, Keeps True untilEnded (f reply))
    (ho : ∀ reply, Obeyed call reply.code → f reply = Exec.stop reply.code) :
    Keeps True untilEnded (handlerCallback cfg call >>= f) := by
  intro s
  rw [post_bind, handlerCallback, post_update]
  by_cases h : Obeyed call (cfg.handler call s.world).code
  · rw [ho _ h, post_stop]
    exact fun hq => Or.inr ⟨_, s.log, rfl, rfl, hq⟩
  · have hstep : untilEnded.step s ((s.setWorld (cfg.handler call s.world).world).push
        (.handler call (cfg.handler call s.world).code (cfg.handler call s.world).world)) :=
      untilEnded_push (e := .handler _ _ _) rfl h rfl
    refine (hf _ _).imp ?_ ?_
    · intro a t ht
      exact untilEnded.trans hstep ht
    · intro e t ht
      exact untilEnded.step_halt hstep ht

theorem ended_frameEndsContainer (isBlock : Bool) :
    Keeps True (untilEnded.within fun s =>
      (openContainers s.log).head? = some (containerEntity isBlock))
      (frameEndsContainer cfg isBlock) := by
  have hin : ∀ {α : Type} {m : Parse σ α}, Keeps True untilEnded m →
      Keeps True (untilEnded.within fun s =>
        (openContainers s.log).head? = some (containerEntity isBlock)) m :=
    fun hm => hm.within fun s t hs ht => by rw [ht.2]; exact hs
  refine .ite (fun _ => ?_) fun _ => .ite (fun _ => hin ?_) fun _ => .pure _
  · intro s
    rw [post_bind, post_read, post_bind, post_errorCallback]
    cases isBlock with
    | true =>
      intro hs
      exact ⟨untilEnded_push rfl (fun h => h.2 (.inl ⟨rfl, hs⟩)) rfl, hs⟩
    | false =>
      rw [if_neg Bool.false_ne_true, post_ite]
      refine ⟨fun _ _ hq => Or.inr ⟨_, s.log, rfl, rfl, hq⟩, fun hok hs => ⟨?_, hs⟩⟩
      exact untilEnded_push rfl (fun h => hok h.1) rfl
  · exact .bind (.bind .read fun _ => Ended.keeps_of_refused (refuses_report _ _ _ _)) fun _ =>
      .pure _

theorem ended_container (isBlock : Bool) (m : Parse σ Unit)
    (hm : Keeps True (untilEnded.within fun s =>
      (openContainers s.log).head? = some (containerEntity isBlock)) m) :
    Keeps True untilEnded (inEntity (containerEntity isBlock) m) := by
  intro s
  have hopen : ∀ log : List (Event σ), openContainers (.enter (containerEntity isBlock) :: log) =
      containerEntity isBlock :: openContainers log := by
    intro log
    cases isBlock <;> rfl
  have hclose : ∀ log : List (Event σ), openContainers (.leave (containerEntity isBlock) :: log) =
      (openContainers log).tail := by
    intro log
    cases isBlock <;> rfl
  rw [inEntity, post_bind, mark, post_modify, post_bind]
  refine (hm _).imp ?_ ?_
  · intro _ t h
    obtain ⟨⟨hq, ho⟩, -⟩ := h (by simp [push, hopen])
    refine ⟨fun hs => ⟨id, hq ⟨id, hs⟩⟩, ?_⟩
    simp [push, hclose, ho, hopen]
  · intro e t h hs
    exact h (by simp [push, hopen]) ⟨id, hs⟩

theorem untilEnded_tolerates : Tolerates cfg untilEnded fun isBlock s =>
    (openContainers s.log).head? = some (containerEntity isBlock) where
  edit := (untilRefusedScan : ToleratesScan cfg untilRefused).edit
  report := fun _ _ _ _ _ => Ended.keeps_of_refused (refuses_report _ _ _ _)
  element := fun _ _ => untilEnded_push rfl id rfl
  toUnicodeCallback := fun _ => Ended.keeps_of_refused (refuses_toUnicodeCallback _)
  stop := fun _ _ hq => Or.inl hq
  skip := fun _ _ => ⟨id, rfl⟩
  halt_skip := fun _ h => h
  store := fun _ _ _ _ _ _ => untilEnded_push rfl id rfl
  binding := fun _ _ _ _ _ _ => untilEnded_push rfl id rfl
  ends := .inl trivial
  enter := by
    intro entity hb hf s
    refine untilEnded_push rfl id ?_
    cases entity <;> simp_all [openContainers]
  leave := by
    intro entity hb hf s
    refine untilEnded_push rfl id ?_
    cases entity <;> simp_all [openContainers]
  handler := ended_handler
  ttype := fun _ _ => ⟨id, rfl⟩
  inside := fun _ _ _ hs ht => by rw [ht.2]; exact hs
  frameEnds := ended_frameEndsContainer
  container := ended_container

section Runs

/-- How a parse ends with the code `result`: it obeys no answer of a callback, or the last one,
which it returns if that is a positive code. -/
def Settled (result : Int) (s : Scanner σ) : Prop :=
  Quiet s.log ∨ ∃ e, Ended e s ∧ (0 < e → result = e) ∧
    ∀ call log, s.log = .handler call e s.world :: log → e ≤ 0 → result = Code.ok

/-- Ahead of `parse_cif` no handler is called. -/
theorem Settled.of_refused {e : Int} {s t : Scanner σ} (h : untilRefused.halt e s t)
    (hq : Quiet s.log) {result : Int} (hr : 0 < e → result = e) : Settled result t := by
  obtain ⟨report, log, hlog, hq'⟩ := h hq
  refine Or.inr ⟨e, ⟨_, log, hlog, rfl, hq'⟩, hr, fun call log' hcall => ?_⟩
  rw [hlog] at hcall
  simp at hcall

theorem settled_parseCif {s : Scanner σ} (hasCif : Bool) (hq : Quiet s.log) :
    Ensures (parseCif cfg hasCif) s (fun _ t => Settled Code.ok t) Settled := by
  have h : Tolerates cfg untilEnded _ := untilEnded_tolerates
  have hrest : ∀ reply : HandlerReply σ, Keeps True untilEnded
      (if reply.code = Code.traverseSkipCurrent ∨ reply.code = Code.traverseSkipSiblings then do
        modify (·.setSkipDepth 1)
        parseBlocks cfg hasCif
      else if reply.code = Code.traverseContinue then parseBlocks cfg hasCif
      else Exec.stop reply.code) := by
    intro reply
    exact .ite (fun _ => .bind (h.keeps_setSkipDepth _) fun _ => h.keeps_parseBlocks _) fun _ =>
      .ite (fun _ => h.keeps_parseBlocks _) fun _ => h.stores.keeps_stop _
  have hbody : Keeps True untilEnded (inEntity .cif do
      let reply ← handlerCallback cfg .cifStart
      if reply.code = Code.traverseSkipCurrent ∨ reply.code = Code.traverseSkipSiblings then do
        modify (·.setSkipDepth 1)
        parseBlocks cfg hasCif
      else if reply.code = Code.traverseContinue then parseBlocks cfg hasCif
      else Exec.stop reply.code) := by
    refine .bind (.modify (h.enter _ (by simp) (by simp))) fun _ => .bind ?_ fun _ =>
      .bind (.modify (h.leave _ (by simp) (by simp))) fun _ => .pure _
    refine ended_handler _ _ hrest ?_
    rintro reply ⟨h1, h2, h3⟩
    rw [if_neg (by simp [h2, h3]), if_neg h1]
  rw [parseCif, Ensures, post_recode]
  refine (hbody s).imp ?_ ?_
  · intro _ t ht
    exact Or.inl (ht.1 hq)
  · intro e t ht
    rcases ht hq with hq' | hended
    · exact Or.inl hq'
    · exact Or.inr ⟨e, hended, fun he => if_pos he, fun _ _ _ he => if_neg (Int.not_lt.mpr he)⟩

theorem settled_whole (callbacks : Callbacks σ) (hasCif : Bool) :
    WholeParse callbacks hasCif untilRefused (fun s => Quiet s.log) Settled where
  scan := fun _ _ => untilRefusedScan
  step := fun _ _ hq ht => ht.1 hq
  halt := by
    intro e s t hq ht
    refine ⟨.of_refused ht hq fun _ => rfl, fun heof => .of_refused ht hq fun he => ?_⟩
    rw [heof] at he
    exact absurd he (by decide)
  rest := fun _ hq => .inl hq
  parseCif := fun _ _ _ hq => settled_parseCif hasCif hq

theorem settled_cifParse {o : Options σ} {hasCif : Bool} {source : List (List UChar)} {w : World σ}
    {malformed : Nat → Option Malformed} {result : Int} {s : Scanner σ}
    (h : cifParse o hasCif source w malformed = some (result, s)) : Settled result s :=
  (settled_whole o.toCallbacks hasCif).cifParse rfl trivial h

end Runs

section Answers

def Event.isHandler : Event σ → Bool
  | .handler .. => true
  | _ => false

def Event.isCallback : Event σ → Bool
  | .error .. | .handler .. | .element .. => true
  | _ => false

/-- After a refused error no callback is called and nothing is recorded, and a positive code is
returned. -/
def RefusalAborts (result : Int) (s : Scanner σ) : Prop :=
  ∀ newer report reply after older, s.log = newer ++ .error report reply after :: older →
    reply ≠ Code.ok →
    (∀ e ∈ newer, ¬ e.isCallback) ∧ s.world.cif = after.cif ∧ (0 < reply → result = reply)

/-- The parse overlooks no refusal. -/
def RefusalsHeeded (log : List (Event σ)) : Prop :=
  ∀ newer report reply after older, log = newer ++ .error report reply after :: older →
    Overlooked older report reply → reply = Code.ok

/-- An event that ends the parse is the last of its record. -/
theorem Settled.ended {result : Int} {s : Scanner σ} (h : Settled result s)
    {newer older : List (Event σ)} {event : Event σ} (hlog : s.log = newer ++ event :: older)
    (hends : Ends older event) :
    newer = [] ∧ ∃ e, event.answer = some (e, s.world) ∧ (0 < e → result = e) ∧
      (event.isHandler → e ≤ 0 → result = Code.ok) := by
  rcases h with hq | ⟨e, ⟨last, log, hlast, hanswer, hq⟩, hpos, hhandler⟩
  · rw [hlog] at hq
    exact (hq.split hends).elim
  · rw [hlast] at hlog
    cases newer with
    | nil =>
      obtain ⟨rfl, rfl⟩ : last = event ∧ log = older := by simpa using hlog
      refine ⟨rfl, e, hanswer, hpos, fun hh => ?_⟩
      cases last with
      | handler call reply after =>
        obtain ⟨rfl, rfl⟩ : reply = e ∧ after = s.world := by simpa [Event.answer] using hanswer
        exact hhandler call log hlast
      | _ => simp [Event.isHandler] at hh
    | cons first newer =>
      obtain ⟨-, rfl⟩ : last = first ∧ log = newer ++ event :: older := by simpa using hlog
      exact (hq.split hends).elim

/-- A refused error ends the parse, in every run that accepts frames directly inside blocks and
answers no byte sequence without a character with `CIF_EOF`. -/
theorem refusalAborts_of_refusalsHeeded {o : Options σ} {hasCif : Bool} {source : List (List UChar)}
    {w : World σ} {malformed : Nat → Option Malformed} {result : Int} {s : Scanner σ}
    (h : cifParse o hasCif source w malformed = some (result, s)) (hheeded : RefusalsHeeded s.log) :
    RefusalAborts result s := by
  intro newer report reply after older hlog hne
  have hends : Ends older (.error report reply after) :=
    ⟨hne, fun hover => hne (hheeded newer report reply after older hlog hover)⟩
  obtain ⟨rfl, e, hanswer, hpos, -⟩ := (settled_cifParse h).ended hlog hends
  obtain ⟨rfl, rfl⟩ : reply = e ∧ after = s.world := by simpa [Event.answer] using hanswer
  exact ⟨by simp, rfl, hpos⟩

/-- The parse of a text with every error refused, for a frame depth and into a new CIF or none. -/
def refusingParse (text : String) (maxFrameDepth : Int) (hasCif : Bool) :
    Option (Int × Scanner Unit) :=
  cifParse { Options.create .dying .ascii .exact 2 with maxFrameDepth := maxFrameDepth } hasCif
    [units text] ⟨(), {}⟩

/-- What an error callback was told, and its reply. -/
def Event.report? : Event σ → Option (ErrorReport × Int)
  | .error report reply _ => some (report, reply)
  | _ => none

theorem exists_split {log : List (Event σ)} {p : Event σ → Bool} (h : log.any p) :
    ∃ newer e older, log = newer ++ e :: older ∧ p e := by
  obtain ⟨e, hmem, hp⟩ := List.any_eq_true.mp h
  obtain ⟨newer, older, hlog⟩ := List.append_of_mem hmem
  exact ⟨newer, e, older, hlog, hp⟩

/-- With frames not allowed, a refused frame directly inside a block is parsed all the same. -/
theorem not_refusalAborts_frame :
    ∃ result s, refusingParse "data_a save_b save_" 0 true = some (result, s) ∧
      ¬ RefusalAborts result s := by
  have hrun : (refusingParse "data_a save_b save_" 0 true).map (fun r =>
      (r.1, r.2.log.any fun e => e.report?.any fun r => 0 < r.2))
        = some (0, true) := by decide +kernel
  obtain ⟨⟨result, s⟩, hparse, hfacts⟩ := Option.map_eq_some_iff.mp hrun
  obtain ⟨rfl, hany⟩ := Prod.mk.injEq .. ▸ hfacts
  refine ⟨0, s, hparse, fun h => ?_⟩
  obtain ⟨newer, e, older, hlog, he⟩ := exists_split hany
  cases e with
  | error report reply after =>
    have hpos : 0 < reply := by simpa [Event.report?] using he
    have hzero := (h newer report reply after older hlog (Int.ne_of_gt hpos)).2.2 hpos
    omega
  | _ => simp [Event.report?] at he

/-- The parse of a text with a byte sequence without a character at its end, and every error refused
with `CIF_EOF`. -/
def eofParse (text : String) : Option (Int × Scanner Unit) :=
  let callbacks := { (Callbacks.dying : Callbacks Unit) with error := fun _ w => (Code.eof, w) }
  cifParse (Options.create callbacks .ascii .exact 2) true [units text] ⟨(), {}⟩
    fun left => if left = 1 then some .unassigned else none

/-- A byte sequence that is refused with `CIF_EOF` reads as the end of the input. -/
theorem not_refusalAborts_undecodable :
    ∃ result s, eofParse "data_a ?" = some (result, s) ∧ ¬ RefusalAborts result s := by
  have hrun : (eofParse "data_a ?").map (fun r => (r.2.log.head?.any Event.isCallback,
      r.2.log.tail.any fun e => e.report?.any fun r => r.2 ≠ Code.ok))
        = some (true, true) := by decide +kernel
  obtain ⟨⟨result, s⟩, hparse, hfacts⟩ := Option.map_eq_some_iff.mp hrun
  obtain ⟨hlast, hany⟩ := Prod.mk.injEq .. ▸ hfacts
  refine ⟨result, s, hparse, fun h => ?_⟩
  cases hlog : s.log with
  | nil => simp [hlog] at hlast
  | cons last log =>
    rw [hlog] at hlast hany
    obtain ⟨newer, e, older, hsplit, he⟩ := exists_split hany
    cases e with
    | error report reply after =>
      have hne : reply ≠ Code.ok := by simpa [Event.report?] using he
      have hnone :=
        (h (last :: newer) report reply after older (hlog.trans (congrArg _ hsplit)) hne).1
      exact hnone last List.mem_cons_self (by simpa using hlast)
    | _ => simp [Event.report?] at he

/-- A refused error in a data value ends the parse. -/
theorem refusalAborts_missingValue :
    ∃ result s, refusingParse "data_a _b" 1 true = some (result, s) ∧ RefusalAborts result s := by
  have hrun : (refusingParse "data_a _b" 1 true).map (fun r =>
      r.2.log.all fun e => e.report?.all fun r => r.1.code ≠ Code.frameNotAllowed
        ∧ r.2 ≠ Code.eof) = some true := by decide +kernel
  obtain ⟨⟨result, s⟩, hparse, hall⟩ := Option.map_eq_some_iff.mp hrun
  refine ⟨result, s, hparse, refusalAborts_of_refusalsHeeded hparse ?_⟩
  intro newer report reply after older hlog hover
  have hboth := List.all_eq_true.mp hall (.error report reply after) (by simp [hlog])
  obtain ⟨hframe, heof⟩ : report.code ≠ Code.frameNotAllowed ∧ reply ≠ Code.eof := by
    simpa [Event.report?] using hboth
  exact (hover.elim (fun h => hframe h.1) fun h => heof h.2).elim

/-- After a handler answers `CIF_TRAVERSE_END` or a positive code no handler is called and nothing
is recorded, and `CIF_OK` or the code is returned. -/
def AnswerAborts (result : Int) (s : Scanner σ) : Prop :=
  ∀ newer call reply after older, s.log = newer ++ .handler call reply after :: older →
    reply = Code.traverseEnd ∨ 0 < reply →
    (∀ e ∈ newer, ¬ e.isHandler) ∧ s.world.cif = after.cif ∧
      result = if reply = Code.traverseEnd then Code.ok else reply

def HandlerCall.startsLoopOrPacket : HandlerCall → Bool
  | .loopStart .. | .packetStart => true
  | _ => false

/-- The handlers for the start of loops and packets answer no positive code. -/
def StartsAnswered (log : List (Event σ)) : Prop :=
  ∀ newer call reply after older, log = newer ++ .handler call reply after :: older →
    call.startsLoopOrPacket → reply ≤ 0

theorem obeyed_of_answer {call : HandlerCall} {reply : Int}
    (h : reply = Code.traverseEnd ∨ 0 < reply) (hs : call.startsLoopOrPacket → reply ≤ 0) :
    Obeyed call reply := by
  have hother : reply ≠ Code.traverseContinue ∧ reply ≠ Code.traverseSkipCurrent ∧
      reply ≠ Code.traverseSkipSiblings := by
    rcases h with rfl | h
    · decide
    · exact ⟨fun h' => absurd (h' ▸ h) (by decide), fun h' => absurd (h' ▸ h) (by decide),
        fun h' => absurd (h' ▸ h) (by decide)⟩
  cases call with
  | loopStart => exact h.resolve_right (Int.not_lt.mpr (hs rfl))
  | packetStart => exact h.resolve_right (Int.not_lt.mpr (hs rfl))
  | _ => exact hother

/-- Such an answer ends the parse, in every run in which loop and packet starts give no positive
one. -/
theorem answerAborts_of_startsAnswered {o : Options σ} {hasCif : Bool} {source : List (List UChar)}
    {w : World σ} {malformed : Nat → Option Malformed} {result : Int} {s : Scanner σ}
    (h : cifParse o hasCif source w malformed = some (result, s)) (hs : StartsAnswered s.log) :
    AnswerAborts result s := by
  intro newer call reply after older hlog hreply
  have hends : Ends older (.handler call reply after) :=
    obeyed_of_answer hreply (hs newer call reply after older hlog)
  obtain ⟨rfl, e, hanswer, hpos, hok⟩ := (settled_cifParse h).ended hlog hends
  obtain ⟨rfl, rfl⟩ : reply = e ∧ after = s.world := by simpa [Event.answer] using hanswer
  refine ⟨by simp, rfl, ?_⟩
  rcases hreply with rfl | hreply
  · exact hok rfl (by decide)
  · rw [if_neg fun h' => absurd (h' ▸ hreply) (by decide)]
    exact hpos hreply

/-- One answer to all loop and packet starts, and another to all items. -/
def answering (start item : Int) : Callbacks Unit where
  error := fun _ w => (Code.ok, w)
  handler := fun call w => ⟨match call with
    | .loopStart .. | .packetStart => start
    | .item .. => item
    | _ => Code.ok, call, w⟩
  element := fun _ w => w

def answeringParse (text : String) (start item : Int) : Option (Int × Scanner Unit) :=
  cifParse (Options.create (answering start item) .ascii .exact 2) true [units text] ⟨(), {}⟩

/-- A positive answer to the start of a loop is dropped. -/
theorem not_answerAborts_loopStart :
    ∃ result s, answeringParse "data_a loop_ _b 1" 7 0 = some (result, s) ∧
      ¬ AnswerAborts result s := by
  have hrun : (answeringParse "data_a loop_ _b 1" 7 0).map (fun r => (r.1, r.2.log.any fun
      | .handler _ reply _ => reply = 7
      | _ => false)) = some (0, true) := by decide +kernel
  obtain ⟨⟨result, s⟩, hparse, hfacts⟩ := Option.map_eq_some_iff.mp hrun
  obtain ⟨rfl, hany⟩ := Prod.mk.injEq .. ▸ hfacts
  refine ⟨0, s, hparse, fun h => ?_⟩
  obtain ⟨newer, e, older, hlog, he⟩ := exists_split hany
  cases e with
  | handler call reply after =>
    obtain rfl : reply = 7 := by simpa using he
    have hseven := (h newer call 7 after older hlog (Or.inr (by decide))).2.2
    exact absurd hseven (by decide)
  | _ => simp at he

/-- A positive answer to an item is returned. -/
theorem answerAborts_item :
    ∃ result s, answeringParse "data_a _b 1" 0 7 = some (result, s) ∧ AnswerAborts result s := by
  have hrun : (answeringParse "data_a _b 1" 0 7).map (fun r => r.2.log.all fun
      | .handler call _ _ => !call.startsLoopOrPacket
      | _ => true) = some true := by decide +kernel
  obtain ⟨⟨result, s⟩, hparse, hall⟩ := Option.map_eq_some_iff.mp hrun
  have hstarts : StartsAnswered s.log := ?_
  · exact ⟨result, s, hparse, answerAborts_of_startsAnswered hparse hstarts⟩
  intro newer call reply after older hlog hstart
  have := List.all_eq_true.mp hall (.handler call reply after) (by simp [hlog])
  simp [hstart] at this

end Answers

end CifApi
