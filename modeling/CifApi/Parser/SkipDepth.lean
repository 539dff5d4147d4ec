import CifApi.Data.Skipping
import CifApi.Parser.Traversal

/-! The skip depth counts the parts of a CIF to be left before a handler is called again. -/
namespace CifApi

open Exec Scanner
open Skipping (Answer Sight Level Follows Undisturbed openLevels pending skipRest)

variable {σ : Type} {cfg : Config σ} {α : Type} {s t r : Scanner σ}

def answerOf (code : Int) : Answer :=
  if code = Code.traverseSkipCurrent then .skipCurrent
  else if code = Code.traverseSkipSiblings then .skipSiblings
  else .goOn

def HandlerCall.sight (answer : Answer) : HandlerCall → Sight Entity
  | .cifStart => .start .cif answer
  | .cifEnd => .finish .cif answer
  | .blockStart _ => .start .block answer
  | .blockEnd _ => .finish .block answer
  | .frameStart _ => .start .frame answer
  | .frameEnd _ => .finish .frame answer
  | .loopStart .. => .start .loop answer
  | .loopEnd _ => .finish .loop answer
  | .packetStart => .start .packet answer
  | .packetEnd _ => .finish .packet answer
  | .item .. => .leaf answer

/-- What one who watches the handler sees of an event. -/
def Event.sight : Event σ → Option (Sight Entity)
  | .enter entity => some (.enter entity)
  | .leave entity => some (.leave entity)
  | .handler call reply _ => some (call.sight (answerOf reply))
  | _ => none

def Scanner.sights (s : Scanner σ) : List (Sight Entity) := s.log.filterMap Event.sight

/-- The nested parts of the CIF that the parse is in. -/
def Scanner.levels (s : Scanner σ) : List (Level Entity) := openLevels s.sights

/-- The calls that are made whatever is skipped: of the item handler for the values of a packet, and
of the loop end handler for a loop without a header. -/
def Unconditional : List (Level Entity) → Sight Entity → Prop
  | level :: _, .leaf _ => level.kind = .packet
  | level :: _, .finish kind _ => kind = .loop ∧ level.begun = false
  | _, _ => False

instance : ∀ levels sight, Decidable (Unconditional levels sight)
  | level :: _, .leaf _ => inferInstanceAs (Decidable (level.kind = .packet))
  | level :: _, .finish kind _ => inferInstanceAs (Decidable (kind = .loop ∧ level.begun = false))
  | _ :: _, .enter _ | _ :: _, .leave _ | _ :: _, .start _ _ => isFalse id
  | [], _ => isFalse id

/-- The skip depth is the number of parts to be left before a handler can be called again. -/
structure Synced (s : Scanner σ) : Prop where
  inside : s.levels ≠ []
  follows : Follows Unconditional s.sights
  depth : s.skipDepth = pending s.levels

/-- From `levels` on, at most what is left of the innermost part has come to be skipped, by an
answer among `newer`. -/
def Kept (newer : List (Sight Entity)) (levels levels' : List (Level Entity)) : Prop :=
  levels' = levels ∨ (levels' = skipRest levels ∧ ∃ sight ∈ newer, sight.skipsSiblings = true)

theorem Kept.refl (levels : List (Level Entity)) : Kept [] levels levels := .inl rfl

theorem Kept.trans {newer newer' : List (Sight Entity)} {l l' l'' : List (Level Entity)}
    (h : Kept newer l l') (h' : Kept newer' l' l'') : Kept (newer' ++ newer) l l'' := by
  rcases h with rfl | ⟨rfl, x, hx, hskips⟩
  · rcases h' with rfl | ⟨rfl, x, hx, hskips⟩
    · exact .inl rfl
    · exact .inr ⟨rfl, x, List.mem_append_left _ hx, hskips⟩
  · rcases h' with rfl | ⟨rfl, _⟩
    · exact .inr ⟨rfl, x, List.mem_append_right _ hx, hskips⟩
    · exact .inr ⟨Skipping.skipRest_skipRest, x, List.mem_append_right _ hx, hskips⟩

/-- From `s` to `t` more has been seen, with `P` of it unless an answer has disturbed the
skipping. -/
def Leads (s t : Scanner σ) (P : List (Sight Entity) → Prop) : Prop :=
  ∃ newer, t.sights = newer ++ s.sights ∧ (Undisturbed t.sights → P newer)

section Leading

variable {P Q : List (Sight Entity) → Prop}

theorem Leads.refl (h : P []) : Leads s s P := ⟨[], rfl, fun _ => h⟩

theorem Leads.trans (h : Leads s t P) (h' : Leads t r Q) :
    Leads s r fun newer => ∃ first second, newer = second ++ first ∧ P first ∧ Q second := by
  obtain ⟨first, hfirst, hP⟩ := h
  obtain ⟨second, hsecond, hQ⟩ := h'
  refine ⟨second ++ first, by rw [hsecond, hfirst, List.append_assoc], fun hu => ?_⟩
  have hearlier := hu
  rw [hsecond] at hearlier
  exact ⟨first, second, rfl, hP (Skipping.undisturbed_of_append hearlier), hQ hu⟩

theorem Leads.imp (h : Leads s t P) (hPQ : ∀ newer, P newer → Q newer) : Leads s t Q := by
  obtain ⟨newer, hnewer, hP⟩ := h
  exact ⟨newer, hnewer, fun hu => hPQ newer (hP hu)⟩

end Leading

/-- Runs that leave what may be called as it was, but for what an answer skips of the part that they
are in. -/
def guided : Discipline Int (Scanner σ) where
  step s t := Leads s t fun newer => Synced s → Synced t ∧ Kept newer s.levels t.levels
  halt _ s t := Leads s t fun _ => Synced s → Follows Unconditional t.sights
  refl s := .refl fun h => ⟨h, .refl _⟩
  trans h h' := (h.trans h').imp fun _ hparts hs => by
    obtain ⟨_, _, rfl, hfirst, hsecond⟩ := hparts
    obtain ⟨ht, hkept⟩ := hfirst hs
    obtain ⟨hr, hkept'⟩ := hsecond ht
    exact ⟨hr, hkept.trans hkept'⟩
  step_halt h h' := (h.trans h').imp fun _ hparts hs => by
    obtain ⟨_, _, _, hfirst, hsecond⟩ := hparts
    exact hsecond (hfirst hs).1

/-- Runs in which no handler is called and nothing is entered or left. -/
def unseen : Discipline Int (Scanner σ) where
  step s t := t.sights = s.sights ∧ t.skipDepth = s.skipDepth
  halt _ s t := t.sights = s.sights
  refl _ := ⟨rfl, rfl⟩
  trans h h' := ⟨h'.1.trans h.1, h'.2.trans h.2⟩
  step_halt h h' := h'.trans h.1

section Unseen

theorem Synced.of_eq (h : Synced s) (hsights : t.sights = s.sights)
    (hdepth : t.skipDepth = s.skipDepth) : Synced t := by
  have hlevels : t.levels = s.levels := congrArg openLevels hsights
  exact ⟨hlevels ▸ h.inside, hsights ▸ h.follows, hdepth.trans (hlevels ▸ h.depth)⟩

theorem guided_step_of_unseen (h : unseen.step s t) : guided.step s t :=
  ⟨[], h.1, fun _ hs => ⟨hs.of_eq h.1 h.2, .inl (congrArg openLevels h.1)⟩⟩

theorem guided_halt_of_unseen {e : Int} (h : unseen.halt e s t) : guided.halt e s t := by
  have hsights : t.sights = s.sights := h
  exact ⟨[], hsights, fun _ hs => hsights ▸ hs.follows⟩

theorem guided_of_unseen {m : Parse σ α} (h : Keeps True unseen m) : Keeps True guided m := fun s =>
  (h s).imp (fun _ _ => guided_step_of_unseen) fun _ _ => guided_halt_of_unseen

theorem unseen_errorCallback (r : ErrorReport) : Keeps True unseen (errorCallback cfg r) :=
  .update fun _ => ⟨rfl, rfl⟩

theorem unseen_report (code : Int) (line column : Nat) (text : List UChar) :
    Keeps True unseen (report cfg code line column text) :=
  .bind (unseen_errorCallback _) fun _ => .when fun _ => .stop fun _ => rfl

theorem unseenStores : ToleratesBinding cfg True unseen where
  stop := fun _ _ => rfl
  store := fun _ _ _ _ _ _ => ⟨rfl, rfl⟩
  element := fun _ _ => ⟨rfl, rfl⟩
  report := fun _ _ _ _ _ => unseen_report _ _ _ _
  binding := fun _ _ _ _ _ _ => ⟨rfl, rfl⟩
  ends := .inl trivial

theorem unseenValues : ToleratesValues cfg unseen where
  edit := by
    rintro s t ⟨_, hlog, hskip, _⟩
    exact ⟨congrArg (List.filterMap Event.sight) hlog, hskip⟩
  report := fun _ _ _ _ _ => unseen_report _ _ _ _
  element := fun _ _ => ⟨rfl, rfl⟩
  stop := fun _ _ => rfl
  ttype := fun _ _ => ⟨rfl, rfl⟩
  setItemByKey := unseenStores.keeps_setItemByKey
  toUnicodeCallback := keeps_toUnicodeCallback (fun _ _ => rfl) unseen_errorCallback

theorem unseen_frameEndsContainer (isBlock : Bool) :
    Keeps True unseen (frameEndsContainer cfg isBlock) :=
  .ite (fun _ => .bind .read fun _ => .bind (unseen_errorCallback _) fun _ =>
    .ite (fun _ => .pure _) fun _ =>
    .ite (fun _ => .stop fun _ => rfl) fun _ => .pure _) fun _ =>
  .ite (fun _ => .bind (unseenStores.keeps_reportToken (by decide)) fun _ => .pure _) fun _ =>
    .pure _

end Unseen

section Parts

variable {kind : Entity} {newer : List (Sight Entity)} {levels : List (Level Entity)}
  {answer : Answer}

/-- The start of the innermost part has been called, unless the part is skipped as a whole. -/
def StartCalled (t : Scanner σ) : Prop := ∀ level ∈ t.levels.head?, pending t.levels.tail = 0 →
    level.begun = true

/-- The parse is in a part that it has entered from `levels`. -/
structure Inside (kind : Entity) (newer : List (Sight Entity)) (levels : List (Level Entity))
    (t : Scanner σ) : Prop
    extends Synced t where
  kind_eq : ∃ level ∈ t.levels.head?, level.kind = kind
  begun : kind = .loop ∨ StartCalled t
  outer : Kept newer levels t.levels.tail

theorem Kept.parts {l l' : List (Level Entity)} (h : Kept newer l l') :
    l'.tail = l.tail ∧ ∀ level' ∈ l'.head?, ∃ level ∈ l.head?, level'.kind = level.kind
      ∧ level'.begun = level.begun := by
  rcases h with rfl | ⟨rfl, _⟩
  · exact ⟨rfl, fun level hlevel => ⟨level, hlevel, rfl, rfl⟩⟩
  · refine ⟨Skipping.tail_skipRest, fun level' hlevel => ?_⟩
    cases l with
    | nil => cases hlevel
    | cons level l =>
      cases hlevel
      exact ⟨level, rfl, rfl, rfl⟩

theorem head?_eq_some {l : List (Level Entity)} (h : l ≠ []) : ∃ level ∈ l.head?, True := by
  cases l with
  | nil => exact absurd rfl h
  | cons level l => exact ⟨level, rfl, trivial⟩

/-- What is done inside the part leaves the parse inside it. -/
theorem Inside.step (h : Inside kind newer levels s) (ht : Synced t) {newer' : List (Sight Entity)}
    (hkept : Kept newer' s.levels t.levels) : Inside kind (newer' ++ newer) levels t := by
  obtain ⟨htail, hhead⟩ := hkept.parts
  refine ⟨ht, ?_, h.begun.imp_right fun hbegun => ?_, ?_⟩
  · obtain ⟨level', hlevel', -⟩ := head?_eq_some ht.inside
    obtain ⟨level, hlevel, hkind, -⟩ := hhead level' hlevel'
    obtain ⟨level₀, hlevel₀, hkind₀⟩ := h.kind_eq
    cases hlevel.symm.trans hlevel₀
    exact ⟨level', hlevel', hkind.trans hkind₀⟩
  · intro level' hlevel' hpending
    obtain ⟨level, hlevel, -, heq⟩ := hhead level' hlevel'
    rw [htail] at hpending
    rw [heq]
    exact hbegun level hlevel hpending
  · rw [htail]
    rcases h.outer with heq | ⟨heq, x, hx, hskips⟩
    · exact .inl heq
    · exact .inr ⟨heq, x, List.mem_append_right _ hx, hskips⟩

/-- A part has been entered; one that lies inside something skipped is skipped. -/
theorem Synced.entered (h : Synced s) (hsights : t.sights = .enter kind :: s.sights)
    (hdepth : t.skipDepth = if 0 < s.skipDepth then s.skipDepth + 1 else s.skipDepth)
    (hkind : kind = .loop ∨ 0 < s.skipDepth) :
    Inside kind [.enter kind] s.levels t := by
  have hlevels : t.levels = .entered kind :: s.levels := congrArg openLevels hsights
  refine ⟨⟨by simp [hlevels], ?_, ?_⟩, ?_, hkind.imp_right fun hskip => ?_, ?_⟩
  · rw [hsights]
    exact ⟨h.follows, .inl trivial⟩
  · rw [hdepth, h.depth, hlevels, Skipping.pending_entered]
  · rw [hlevels]
    exact ⟨_, rfl, rfl⟩
  · intro level _ hpending
    rw [hlevels, List.tail_cons, ← h.depth] at hpending
    omega
  · rw [hlevels]
    exact .inl rfl

/-- In a part whose start has been called. -/
theorem inside_of_begun {level : Level Entity} {outer : List (Level Entity)}
    (hlevels : t.levels = level :: outer) (hkind : level.kind = kind) (hbegun : level.begun = true)
    (hfollows : Follows Unconditional t.sights) (hdepth : t.skipDepth = pending t.levels)
    (houter : Kept newer levels outer) : Inside kind newer levels t := by
  refine ⟨⟨by simp [hlevels], hfollows, hdepth⟩, ?_, .inr ?_, ?_⟩
  · rw [hlevels]
    exact ⟨level, rfl, hkind⟩
  · intro level' hlevel' _
    rw [hlevels] at hlevel'
    cases hlevel'
    exact hbegun
  · rw [hlevels]
    exact houter

/-- What an answer to a start sets the skip depth to. -/
def startDepth : Answer → Nat
  | .goOn => 0
  | .skipCurrent => 1
  | .skipSiblings => 2

/-- The start of a part that has been entered has been called. -/
theorem Synced.started (h : Synced s) (hskip : s.skipDepth = 0)
    (hsights : t.sights = .start kind answer :: .enter kind :: s.sights)
    (hdepth : t.skipDepth = startDepth answer) :
    Inside kind [.start kind answer, .enter kind] s.levels t := by
  have hpending : pending s.levels = 0 := h.depth.symm.trans hskip
  have hopen : Skipping.Open (.entered kind :: s.levels) :=
    Skipping.open_cons.mpr ⟨rfl, Skipping.pending_eq_zero_iff.mp hpending⟩
  have hlevels : t.levels = Skipping.after (.entered kind :: s.levels) (.start kind answer) :=
    congrArg openLevels hsights
  have hfollows : Follows Unconditional t.sights := by
    rw [hsights]
    exact ⟨⟨h.follows, .inl trivial⟩, .inl ⟨_, rfl, rfl, rfl, hopen⟩⟩
  cases answer with
  | goOn =>
    have hlevels : t.levels = ⟨kind, true, false⟩ :: s.levels := hlevels
    refine inside_of_begun hlevels rfl rfl hfollows ?_ (.inl rfl)
    rw [hdepth, hlevels]
    simp [pending, hpending, startDepth]
  | skipCurrent =>
    have hlevels : t.levels = ⟨kind, true, true⟩ :: s.levels := hlevels
    refine inside_of_begun hlevels rfl rfl hfollows ?_ (.inl rfl)
    rw [hdepth, hlevels]
    simp [pending, hpending, startDepth]
  | skipSiblings =>
    have hlevels : t.levels = ⟨kind, true, true⟩ :: skipRest s.levels := hlevels
    refine inside_of_begun hlevels rfl rfl hfollows ?_ (.inr ⟨rfl, .start kind .skipSiblings,
      by simp, rfl⟩)
    rw [hdepth, hlevels]
    exact (Skipping.pending_skipSiblings (.entered kind) h.inside hpending).symm

/-- The part has been left without a call of its end. -/
theorem Inside.left (h : Inside kind newer levels s) (hlevels : levels ≠ [])
    (hsights : t.sights = .leave kind :: s.sights) (hdepth : t.skipDepth = pending s.levels.tail) :
    Synced t ∧ Kept (.leave kind :: newer) levels t.levels := by
  have htail : t.levels = s.levels.tail := congrArg openLevels hsights
  have hkept : Kept (.leave kind :: newer) levels t.levels := by
    rw [htail]
    rcases h.outer with heq | ⟨heq, x, hx, hskips⟩
    · exact .inl heq
    · exact .inr ⟨heq, x, List.mem_cons_of_mem _ hx, hskips⟩
  refine ⟨⟨?_, ?_, ?_⟩, hkept⟩
  · rcases hkept with heq | ⟨heq, _⟩
    · rwa [heq]
    · rwa [heq, ne_eq, Skipping.skipRest_eq_nil]
  · rw [hsights]
    exact ⟨h.follows, .inl h.kind_eq⟩
  · rw [hdepth, htail]

/-- The end of the part may be called where nothing around the part is skipped. -/
theorem Inside.follows_finish (h : Inside kind newer levels s) (hopen : pending s.levels.tail = 0) :
    Follows Unconditional (.finish kind answer :: s.sights) := by
  obtain ⟨level, hlevel, hkind⟩ := h.kind_eq
  refine ⟨h.follows, ?_⟩
  cases hb : level.begun with
  | true => exact .inl ⟨level, hlevel, hkind, hb, Skipping.pending_eq_zero_iff.mp hopen⟩
  | false =>
    have hloop : kind = .loop := by
      refine h.begun.resolve_right fun hbegun => ?_
      have htrue := hbegun level hlevel hopen
      rw [hb] at htrue
      cases htrue
    obtain ⟨outer, hs⟩ : ∃ outer, s.levels = level :: outer := List.head?_eq_some_iff.mp hlevel
    have hs : openLevels s.sights = level :: outer := hs
    rw [hs]
    exact .inr ⟨hloop, hb⟩

theorem Inside.follows_leave (h : Inside kind newer levels s) (hopen : pending s.levels.tail = 0) :
    Follows Unconditional (.leave kind :: .finish kind answer :: s.sights) := by
  obtain ⟨level, hlevel, hkind⟩ := h.kind_eq
  refine ⟨h.follows_finish hopen, .inl ⟨level, ?_, hkind⟩⟩
  rw [openLevels, Skipping.head?_after_finish]
  exact hlevel

/-- The part has been left after a call of its end. -/
theorem Inside.finished (h : Inside kind newer levels s) (hlevels : levels ≠ [])
    (hopen : pending s.levels.tail = 0)
    (hsights : t.sights = .leave kind :: .finish kind answer :: s.sights)
    (hdepth : t.skipDepth = if answer = .skipSiblings then 1 else 0) :
    Synced t ∧ Kept (.leave kind :: .finish kind answer :: newer) levels t.levels := by
  obtain ⟨level, hlevel, hkind⟩ := h.kind_eq
  obtain ⟨outer, hs⟩ : ∃ outer, s.levels = level :: outer := List.head?_eq_some_iff.mp hlevel
  have hfollows : Follows Unconditional (.leave kind :: .finish kind answer :: s.sights) :=
    h.follows_leave hopen
  have houter := h.outer
  rw [hs, List.tail_cons] at houter hopen
  have hmid : openLevels (Sight.finish kind answer :: s.sights) = if answer = .skipSiblings then
      level :: skipRest outer
      else level :: outer := by
    have hafter : openLevels (.finish kind answer :: s.sights)
        = Skipping.after (level :: outer) (.finish kind answer) :=
      congrArg (Skipping.after · _) hs
    rw [hafter]
    cases answer <;> rfl
  have htail : t.levels = if answer = .skipSiblings then skipRest outer else outer := by
    have hafter : t.levels = (openLevels (Sight.finish kind answer :: s.sights)).tail :=
      congrArg openLevels hsights
    rw [hafter, hmid]
    split <;> rfl
  have hne : outer ≠ [] := by
    rcases houter with heq | ⟨heq, _⟩
    · rwa [heq]
    · rwa [heq, ne_eq, Skipping.skipRest_eq_nil]
  refine ⟨⟨?_, ?_, ?_⟩, ?_⟩
  · rw [htail]
    split
    · rwa [ne_eq, Skipping.skipRest_eq_nil]
    · exact hne
  · rw [hsights]
    exact hfollows
  · rw [hdepth, htail]
    split
    · rw [Skipping.pending_skipRest hne, if_neg (by omega)]
    · exact hopen.symm
  · rw [htail]
    split
    · rename_i hans
      refine .inr ⟨?_, .finish kind answer, by simp, ?_⟩
      · rcases houter with heq | ⟨heq, _⟩
        · rw [heq]
        · rw [heq, Skipping.skipRest_skipRest]
      · rw [hans]
        rfl
    · rcases houter with heq | ⟨heq, x, hx, hskips⟩
      · exact .inl heq
      · exact .inr ⟨heq, x, by simp [hx], hskips⟩

/-- A single callback has been called, whose answer skips the rest of the part. -/
theorem Synced.leaf (h : Synced s)
    (hcalled : Skipping.Open s.levels ∨ Unconditional s.levels (.leaf answer))
    (hopen : answer = .skipSiblings → Skipping.Open s.levels)
    (hsights : t.sights = .leaf answer :: s.sights)
    (hdepth : t.skipDepth = if answer = .skipSiblings then 1 else s.skipDepth) :
    Synced t ∧ Kept [.leaf answer] s.levels t.levels := by
  have hlevels : t.levels = if answer = .skipSiblings then skipRest s.levels else s.levels :=
    congrArg openLevels hsights
  refine ⟨⟨?_, ?_, ?_⟩, ?_⟩
  · rw [hlevels]
    split
    · rw [ne_eq, Skipping.skipRest_eq_nil]
      exact h.inside
    · exact h.inside
  · rw [hsights]
    exact ⟨h.follows, hcalled⟩
  · rw [hdepth, hlevels]
    split
    · rename_i hans
      rw [Skipping.pending_skipRest h.inside, Skipping.pending_eq_zero_iff.mpr (hopen hans),
        if_neg (Nat.lt_irrefl 0)]
    · exact h.depth
  · rw [hlevels]
    split
    · rename_i hans
      exact .inr ⟨rfl, _, List.mem_singleton_self _, by rw [hans]; rfl⟩
    · exact .inl rfl

end Parts

section Calls

variable {kind : Entity} {newer : List (Sight Entity)} {levels : List (Level Entity)} {code : Int}

/-- The codes that tell the parse to go on or what to skip. -/
def IsGuidance (code : Int) : Prop :=
  code = Code.traverseContinue ∨ code = Code.traverseSkipCurrent ∨ code = Code.traverseSkipSiblings

/-- A handler that only tells the parse what to skip. -/
def Guides (cfg : Config σ) : Prop := ∀ call w, IsGuidance (cfg.handler call w).code

/-- What follows a call of a handler is told its code, and finds the call recorded. -/
theorem ensures_handler (hg : Guides cfg) (call : HandlerCall) {f : HandlerReply σ → Parse σ α}
    {Q : α → Scanner σ → Prop} {E : Int → Scanner σ → Prop}
    (hf : ∀ reply t, IsGuidance reply.code →
      t.sights = call.sight (answerOf reply.code) :: s.sights →
      t.skipDepth = s.skipDepth → Ensures (f reply) t Q E) : Ensures
        (handlerCallback cfg call >>= f) s Q E := by
  rw [Ensures, post_bind, handlerCallback, post_update]
  exact hf _ _ (hg call s.world) rfl rfl

/-- A part is entered from `s`, and the parse is in it at `t`. -/
def Enters (kind : Entity) (s t : Scanner σ) : Prop :=
  Leads s t fun newer => Synced s → Inside kind newer s.levels t

theorem Enters.step (h : Enters kind s t) (h' : guided.step t r) : Enters kind s r :=
  (Leads.trans h h').imp fun _ hparts hs => by
    obtain ⟨_, _, rfl, hfirst, hsecond⟩ := hparts
    obtain ⟨hr, hkept⟩ := hsecond (hfirst hs).toSynced
    exact (hfirst hs).step hr hkept

theorem Enters.halted {e : Int} (h : Enters kind s t) (h' : guided.halt e t r) :
    guided.halt e s r :=
  (Leads.trans h h').imp fun _ hparts hs => by
    obtain ⟨_, _, _, hfirst, hsecond⟩ := hparts
    exact hsecond (hfirst hs).toSynced

theorem enters_skipped (hskip : 0 < s.skipDepth) (hsights : t.sights = .enter kind :: s.sights)
    (hdepth : t.skipDepth = s.skipDepth + 1) : Enters kind s t :=
  ⟨[.enter kind], hsights, fun _ hs =>
    hs.entered hsights (by rw [hdepth, if_pos hskip]) (.inr hskip)⟩

theorem enters_started {answer : Answer} (hskip : s.skipDepth = 0)
    (hsights : t.sights = .start kind answer :: .enter kind :: s.sights)
    (hdepth : t.skipDepth = startDepth answer) :
    Enters kind s t :=
  ⟨[.start kind answer, .enter kind], hsights, fun _ hs => hs.started hskip hsights hdepth⟩

/-- What an answer to a start makes of the skip depth. -/
theorem enters_answered (hskip : s.skipDepth = 0)
    (hsights : t.sights = .start kind (answerOf code) :: .enter kind :: s.sights)
    (hdepth : t.skipDepth = s.skipDepth) :
    (code = Code.traverseContinue → Enters kind s t)
      ∧ (code = Code.traverseSkipCurrent → Enters kind s (t.setSkipDepth 1))
      ∧ (code = Code.traverseSkipSiblings → Enters kind s (t.setSkipDepth 2)) := by
  refine ⟨?_, ?_, ?_⟩
  · rintro rfl
    exact enters_started hskip hsights (hdepth.trans hskip)
  · rintro rfl
    exact enters_started hskip hsights rfl
  · rintro rfl
    exact enters_started hskip hsights rfl

theorem enters_startPacket (hg : Guides cfg) :
    Ensures (startPacket cfg) s (fun _ t => Enters .packet s t) fun e t => guided.halt e s t := by
  rw [Ensures, startPacket, post_bind, mark, post_modify, post_bind, post_read, post_ite]
  refine ⟨fun hskip => ?_, fun hskip => ensures_handler hg _ fun reply t hreply hsights hdepth =>
    ?_⟩
  · rw [post_modify]
    exact enters_skipped hskip rfl (if_pos hskip)
  · obtain ⟨hgo, hcurrent, hsiblings⟩ :=
      enters_answered (s := s) (Nat.eq_zero_of_not_pos hskip) hsights hdepth
    rcases hreply with h | h | h
    · rw [h, if_neg (by decide), if_neg (by decide), if_neg (by decide)]
      exact hgo h
    · rw [h, if_pos rfl]
      exact hcurrent h
    · rw [h, if_neg (by decide), if_pos rfl]
      exact hsiblings h

/-- The call that starts a block or a frame. -/
theorem sight_startCall (container : Option Container) (isBlock : Bool) (answer : Answer) :
    (if isBlock then HandlerCall.blockStart container else .frameStart container).sight answer
      = .start (containerEntity isBlock) answer := by
  cases isBlock <;> rfl

theorem sight_endCall (container : Option Container) (isBlock : Bool) (answer : Answer) :
    (if isBlock then HandlerCall.blockEnd container else .frameEnd container).sight answer
      = .finish (containerEntity isBlock) answer := by
  cases isBlock <;> rfl

theorem enters_startContainer (hg : Guides cfg) (container : Option Container) (isBlock : Bool) :
    Ensures (startContainer cfg container isBlock) (s.push (.enter (containerEntity isBlock)))
      (fun _ t => Enters (containerEntity isBlock) s t) fun e t => guided.halt e s t := by
  rw [Ensures, startContainer, post_bind, post_read, post_ite]
  refine ⟨fun hskip => ?_, fun hskip => ensures_handler hg _ fun reply t hreply hsights hdepth =>
    ?_⟩
  · rw [post_modify]
    exact enters_skipped hskip rfl (if_pos hskip)
  · rw [sight_startCall] at hsights
    obtain ⟨hgo, hcurrent, hsiblings⟩ :=
      enters_answered (s := s) (Nat.eq_zero_of_not_pos hskip) hsights hdepth
    rcases hreply with h | h | h
    · rw [h, if_pos rfl]
      exact hgo h
    · rw [h, if_neg (by decide), if_pos rfl]
      exact hcurrent h
    · rw [h, if_neg (by decide), if_neg (by decide), if_pos rfl]
      exact hsiblings h

/-- A loop that has been entered and whose header has been read starts. -/
theorem enters_startLoop (hg : Guides cfg) (hsights₁ : t.sights = .enter .loop :: s.sights)
    (hdepth₁ : t.skipDepth = if 0 < s.skipDepth then s.skipDepth + 1 else s.skipDepth)
    (container : Option Container) (names : List UStr) :
    Ensures (startLoop cfg container names) t (fun _ r => Enters .loop s r) fun e r =>
      guided.halt e s r := by
  rw [Ensures, startLoop, post_bind, post_read, post_ite]
  refine ⟨fun hskip => ?_,
    fun hskip => ensures_handler hg _ fun reply r hreply hsights hdepth => ?_⟩
  · rw [post_pure]
    exact ⟨[.enter .loop], hsights₁, fun _ hs => hs.entered hsights₁ hdepth₁ (.inl rfl)⟩
  · have hzero : s.skipDepth = 0 := by
      by_contra hne
      rw [if_pos (Nat.pos_of_ne_zero hne)] at hdepth₁
      omega
    have hdepth : r.skipDepth = s.skipDepth :=
      (hdepth.trans (Nat.eq_zero_of_not_pos hskip)).trans hzero.symm
    rw [hsights₁] at hsights
    obtain ⟨hgo, hcurrent, hsiblings⟩ := enters_answered hzero hsights hdepth
    rcases hreply with h | h | h
    · rw [if_pos h]
      cases container with
      | none => exact hgo h
      | some container =>
        refine (guided_of_unseen ?_ r).imp (fun _ _ hu => (hgo h).step hu) fun _ _ hu =>
          (hgo h).halted hu
        refine .bind (.update fun _ => ⟨rfl, rfl⟩) fun a => ?_
        cases a with
        | ok loop => exact .pure _
        | error e =>
          exact .ite (fun _ => .pure _) fun _ => .ite (fun _ => .stop fun _ => rfl) fun _ =>
            .stop fun _ => rfl
    · rw [h, if_neg (by decide), if_pos rfl]
      exact hcurrent h
    · rw [h, if_neg (by decide), if_neg (by decide), if_pos rfl]
      exact hsiblings h

end Calls

section Ends

variable {kind : Entity} {code : Int} {answer : Answer}

theorem leaveSkip_skipDepth (s : Scanner σ) : s.leaveSkip.skipDepth = s.skipDepth - 1 := by
  rw [leaveSkip]
  dsimp only
  split <;> omega

theorem Enters.left (h : Enters kind s t) (hsights : r.sights = .leave kind :: t.sights)
    (hdepth : r.skipDepth = t.skipDepth - 1) : guided.step s r := by
  obtain ⟨newer, hnewer, hinside⟩ := h
  refine ⟨.leave kind :: newer, by rw [hsights, hnewer]; rfl, fun hu hs => ?_⟩
  rw [hsights] at hu
  have ht := hinside hu.1 hs
  refine ht.left hs.inside hsights ?_
  rw [hdepth, ht.depth, Skipping.pending_tail]

theorem Enters.finished (h : Enters kind s t) (hskip : t.skipDepth - 1 = 0)
    (hsights : r.sights = .leave kind :: .finish kind answer :: t.sights)
    (hdepth : r.skipDepth = if answer = .skipSiblings then 1 else 0) : guided.step s r := by
  obtain ⟨newer, hnewer, hinside⟩ := h
  refine ⟨.leave kind :: .finish kind answer :: newer, by rw [hsights, hnewer]; rfl,
    fun hu hs => ?_⟩
  rw [hsights] at hu
  have ht := hinside hu.1.1 hs
  refine ht.finished hs.inside ?_ hsights hdepth
  rw [Skipping.pending_tail, ← ht.depth, hskip]

theorem Enters.finishing {e : Int} (h : Enters kind s t) (hskip : t.skipDepth - 1 = 0)
    (hsights : r.sights = .finish kind answer :: t.sights) : guided.halt e s r := by
  obtain ⟨newer, hnewer, hinside⟩ := h
  refine ⟨.finish kind answer :: newer, by rw [hsights, hnewer]; rfl, fun hu hs => ?_⟩
  rw [hsights] at hu ⊢
  have ht := hinside hu.1 hs
  refine ht.follows_finish ?_
  rw [Skipping.pending_tail, ← ht.depth, hskip]

/-- What an answer to an end makes of the skip depth. -/
theorem Enters.answered {u : Scanner σ} (h : Enters kind s t) (hskip : t.skipDepth - 1 = 0)
    (hsights : u.sights = .finish kind (answerOf code) :: t.sights) (hdepth : u.skipDepth = 0) :
    (code ≠ Code.traverseSkipSiblings → guided.step s (u.push (.leave kind)))
      ∧ (code = Code.traverseSkipSiblings →
        guided.step s ((u.setSkipDepth 1).push (.leave kind))) := by
  have hleft : ∀ v : Scanner σ, v.sights = u.sights →
      v.skipDepth = (if answerOf code = .skipSiblings then 1 else 0) →
      guided.step s (v.push (.leave kind)) := fun v hv hdepth =>
    h.finished hskip (congrArg (Sight.leave kind :: ·) (hv.trans hsights)) hdepth
  constructor
  · intro hne
    refine hleft u rfl ?_
    have hans : answerOf code ≠ .skipSiblings := by
      rw [answerOf, if_neg hne]
      split <;> decide
    rw [hdepth, if_neg hans]
  · rintro rfl
    exact hleft _ rfl rfl

theorem guided_endPacket (hg : Guides cfg) (h : Enters .packet s t) (loop : Option Loop)
    (packet : Packet) :
    Ensures (endPacket cfg loop packet) t (fun _ r => guided.step s r) fun e r =>
      guided.halt e s r := by
  have hclose : Ensures (closePacket cfg loop packet) t (fun _ r =>
      guided.step s (r.push (.leave .packet))) fun e r => guided.halt e s r := by
    rw [Ensures, closePacket, post_bind, post_read, post_ite]
    refine ⟨fun hskip => ?_, fun hskip => ensures_handler hg _ fun reply u hreply hsights hdepth =>
      ?_⟩
    · rw [post_bind, post_modify]
      exact h.left rfl (leaveSkip_skipDepth t)
    · have hzero : t.skipDepth = 0 := Nat.eq_zero_of_not_pos hskip
      have hone : t.skipDepth - 1 = 0 := by omega
      obtain ⟨hleft, hsiblings⟩ := h.answered hone hsights (hdepth.trans hzero)
      rcases hreply with hc | hc | hc
      · rw [hc, if_pos rfl, Ensures, post_bind]
        have hstores : ToleratesBinding cfg True unseen := unseenStores
        refine (hstores.keeps_addPacket _ _ u).imp (fun _ v hv => ?_) fun e v hv => ?_
        · obtain ⟨hsame, hdepth'⟩ := hv
          exact (h.answered hone (hsame.trans hsights) (hdepth'.trans (hdepth.trans hzero))).1
            (by rw [hc]; decide)
        · have hsame : v.sights = u.sights := hv
          exact h.finishing hone (hsame.trans hsights)
      · rw [hc, if_neg (by decide), if_pos rfl]
        exact hleft (by rw [hc]; decide)
      · rw [hc, if_neg (by decide), if_neg (by decide), if_pos rfl]
        exact hsiblings hc
  exact hclose.bind fun _ r hr => hr

theorem guided_endLoop (hg : Guides cfg) (h : Enters .loop s t) (loop : Option Loop) :
    Ensures (endLoop cfg loop) t (fun _ r => guided.step s (r.push (.leave .loop))) fun e r =>
      guided.halt e s r := by
  rw [Ensures, endLoop, post_bind, post_read, post_ite]
  refine ⟨fun hskip => ?_, fun hskip => ensures_handler hg _ fun reply u hreply hsights hdepth =>
    ?_⟩
  · exact h.left rfl (leaveSkip_skipDepth t)
  · have hzero : t.skipDepth = 0 := Nat.eq_zero_of_not_pos hskip
    obtain ⟨hleft, hsiblings⟩ := h.answered (by omega) hsights (hdepth.trans hzero)
    rcases hreply with hc | hc | hc
    · rw [hc, if_neg (by decide), if_neg (by decide), if_neg (by decide)]
      exact hleft (by rw [hc]; decide)
    · rw [hc, if_pos rfl]
      exact hleft (by rw [hc]; decide)
    · rw [hc, if_neg (by decide), if_pos rfl]
      exact hsiblings hc

theorem guided_endContainer (hg : Guides cfg) {isBlock : Bool}
    (h : Enters (containerEntity isBlock) s t) (container : Option Container) :
    Ensures (endContainer cfg container isBlock) t.leaveSkip
      (fun _ r => guided.step s (r.push (.leave (containerEntity isBlock)))) fun e r =>
        guided.halt e s r := by
  rw [Ensures, endContainer, post_bind, post_read, post_when]
  have hleft : t.leaveSkip.skipDepth = t.skipDepth - 1 := leaveSkip_skipDepth t
  refine ⟨fun hskip => ?_, fun _ => h.left rfl hleft⟩
  have hone : t.skipDepth - 1 = 0 := hleft.symm.trans hskip
  have hstores : ToleratesBinding cfg True unseen := unseenStores
  rw [post_bind]
  refine (hstores.keeps_pruneContainer _ _).imp (fun _ v hv => ?_) fun e v hv => ?_
  · obtain ⟨hsame, hdepth'⟩ := hv
    refine ensures_handler hg _ fun reply u hreply hsights hdepth => ?_
    rw [sight_endCall, hsame] at hsights
    obtain ⟨hleft, hsiblings⟩ := h.answered hone hsights ((hdepth.trans hdepth').trans hskip)
    rcases hreply with hc | hc | hc
    · rw [hc, if_neg (by decide), if_pos (.inl rfl)]
      exact hleft (by rw [hc]; decide)
    · rw [hc, if_neg (by decide), if_pos (.inr rfl)]
      exact hleft (by rw [hc]; decide)
    · rw [hc, if_pos rfl]
      exact hsiblings hc
  · exact h.halted (guided_halt_of_unseen (e := e) (s := t) hv)

end Ends

end CifApi
