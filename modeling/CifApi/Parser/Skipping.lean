import CifApi.Parser.Abort
import CifApi.Parser.LoopBody
import CifApi.Parser.SkipDepth

/-! What the answers of a handler leave to be called of a parse. -/
namespace CifApi

open Exec Scanner
open Skipping (Answer Sight Level Follows Undisturbed openLevels pending skipRest)

variable {σ : Type} {cfg : Config σ} {α : Type} {s t r : Scanner σ}

section Items

variable {answer : Answer}

/-- An item outside loops is handed to the handler where nothing is skipped. -/
theorem guided_recordItem (hg : Guides cfg) (hskip : s.skipDepth = 0) (container : Container)
    (name : UStr) (value : Value) :
    Ensures (recordItem cfg container name value) s (fun _ t => guided.step s t.leaveSkip)
      fun e t => guided.halt e s t := by
  refine ensures_handler hg _ fun reply t hreply hsights hdepth => ?_
  have hopen : Synced s → Skipping.Open s.levels :=
    fun hs => Skipping.pending_eq_zero_iff.mp (hs.depth.symm.trans hskip)
  have hcalled : ∀ u : Scanner σ, u.sights = t.sights →
      u.skipDepth - 1 = (if answerOf reply.code = .skipSiblings then 1 else 0) →
        guided.step s u.leaveSkip := by
    intro u hu hdepth
    refine ⟨[.leaf (answerOf reply.code)], hu.trans hsights, fun _ hs => ?_⟩
    refine hs.leaf (.inl (hopen hs)) (fun _ => hopen hs) (hu.trans hsights) ?_
    rw [leaveSkip_skipDepth, hdepth, hskip]
  have hdepth : t.skipDepth = 0 := hdepth.trans hskip
  rcases hreply with hc | hc | hc
  · rw [if_pos hc, Ensures, post_bind]
    have hstores : ToleratesBinding cfg True unseen := unseenStores
    refine (hstores.keeps_setValue _ _ _ t).imp (fun a u hu => ?_) fun _ u hu => ?_
    · refine (hstores.keeps_ofResult a u).imp (fun _ v hv => ?_) fun _ v hv => ?_
      · refine hcalled v (hv.1.trans hu.1) ?_
        rw [hv.2, hu.2, hdepth, hc]
        rfl
      · have hv : v.sights = u.sights := hv
        refine ⟨[.leaf (answerOf reply.code)], (hv.trans hu.1).trans hsights, fun _ hs => ?_⟩
        rw [hv, hu.1, hsights]
        exact ⟨hs.follows, .inl (hopen hs)⟩
    · have hu : u.sights = t.sights := hu
      refine ⟨[.leaf (answerOf reply.code)], hu.trans hsights, fun _ hs => ?_⟩
      rw [hu, hsights]
      exact ⟨hs.follows, .inl (hopen hs)⟩
  · rw [hc, if_neg (by decide), if_pos rfl]
    refine hcalled t rfl ?_
    rw [hdepth, hc]
    rfl
  · rw [hc, if_neg (by decide), if_neg (by decide), if_pos rfl]
    refine hcalled _ rfl ?_
    rw [hc]
    rfl

/-- An item that is parsed and dropped. -/
theorem guided_parseItem_none (container : Option Container) :
    Keeps True guided (parseItem cfg container none) := by
  refine guided_of_unseen (.bind unseenValues.next fun _ => ?_)
  intro s
  rw [post_ensure, post_bind, post_modify, post_bind]
  refine (unseenValues.keeps_parseItemValue s.deepenSkip).imp (fun value t ht => ?_) fun _ t ht =>
    ht
  have hsame : t.leaveSkip.skipDepth = s.skipDepth := by
    rw [leaveSkip_skipDepth, ht.2, deepenSkip]
    dsimp only
    split <;> omega
  cases container with
  | none => exact ⟨ht.1, hsame⟩
  | some container => exact ⟨ht.1, hsame⟩

theorem guided_parseItem (hg : Guides cfg) (hskip : s.skipDepth = 0) (container : Option Container)
    (name : UStr) :
    Ensures (parseItem cfg container (some name)) s (fun _ t => guided.step s t) fun e t =>
      guided.halt e s t := by
  cases container with
  | none => exact guided_parseItem_none none s
  | some container =>
    have hvalues : ToleratesValues cfg unseen := unseenValues
    rw [Ensures, parseItem, post_bind]
    refine (hvalues.next s).imp (fun _ t ht => ?_) fun _ t ht => guided_halt_of_unseen ht
    rw [post_ensure, post_bind, post_modify, post_bind]
    have hdeep : t.deepenSkip.skipDepth = 0 := by
      rw [deepenSkip]
      simp [ht.2, hskip]
    refine (hvalues.keeps_parseItemValue t.deepenSkip).imp (fun value u hu => ?_) fun _ u hu => ?_
    · have hsame : unseen.step s u := ⟨hu.1.trans ht.1, hu.2.trans (hdeep.trans hskip.symm)⟩
      have hstep : guided.step s u := guided_step_of_unseen hsame
      exact (guided_recordItem hg (hu.2.trans hdeep) container name value).imp
        (fun _ v hv => guided.trans hstep hv) fun _ v hv => guided.step_halt hstep hv
    · have hu : u.sights = s.sights := Eq.trans (show u.sights = t.sights from hu) ht.1
      exact guided_halt_of_unseen (e := 0) hu

end Items

section Loops

variable {answer : Answer}

/-- An item of a packet is handed to the handler, whatever is skipped. -/
theorem Enters.item (h : Enters .packet s t) (hsights : r.sights = .leaf answer :: t.sights)
    (hdepth : r.skipDepth = if answer = .skipSiblings then 1 else t.skipDepth) :
    Enters .packet s r := by
  obtain ⟨newer, hnewer, hinside⟩ := h
  refine ⟨.leaf answer :: newer, by rw [hsights, hnewer]; rfl, fun hu hs => ?_⟩
  rw [hsights] at hu
  have ht := hinside hu.1 hs
  have hpacket : Unconditional t.levels (.leaf answer) := by
    obtain ⟨level, hlevel, hkind⟩ := ht.kind_eq
    obtain ⟨outer, houter⟩ := List.head?_eq_some_iff.mp hlevel
    rw [houter]
    exact hkind
  obtain ⟨hr, hkept⟩ := ht.leaf (.inr hpacket) (fun hans => hu.2 (by rw [hans])) hsights hdepth
  exact ht.step hr hkept

theorem enters_handlePacketItem (hg : Guides cfg) (h : Enters .packet s t) (name : Option UStr)
    (value : Value) :
    Ensures (handlePacketItem cfg name value) t (fun _ r => Enters .packet s r) fun e r =>
      guided.halt e s r := by
  refine ensures_handler hg _ fun reply r hreply hsights hdepth => ?_
  rcases hreply with hc | hc | hc
  · rw [hc] at hsights
    rw [hc, if_neg (by decide), if_neg (by decide), if_neg (by decide)]
    exact h.item hsights hdepth
  · rw [hc] at hsights
    rw [hc, if_pos rfl]
    exact h.item hsights hdepth
  · rw [hc] at hsights
    rw [hc, if_neg (by decide), if_pos rfl]
    exact h.item hsights rfl

/-- Between the packets of a loop whose body began at `s`, or in one of them. -/
def AmongPackets (s : Scanner σ) (st : PacketState) (t : Scanner σ) : Prop :=
  if st.columnIndex = 0 then guided.step s t else ∃ u, guided.step s u ∧ Enters .packet u t

variable {st : PacketState}

theorem amongPackets_of_eq_zero (h : st.columnIndex = 0) :
    AmongPackets s st t ↔ guided.step s t := by rw [AmongPackets, if_pos h]

theorem amongPackets_of_ne_zero (h : st.columnIndex ≠ 0) :
    AmongPackets s st t ↔ ∃ u, guided.step s u ∧ Enters .packet u t := by
  rw [AmongPackets, if_neg h]

theorem AmongPackets.step (h : AmongPackets s st t) (h' : guided.step t r) :
    AmongPackets s st r := by
  by_cases hzero : st.columnIndex = 0
  · rw [amongPackets_of_eq_zero hzero] at h ⊢
    exact guided.trans h h'
  · rw [amongPackets_of_ne_zero hzero] at h ⊢
    obtain ⟨u, hu, ht⟩ := h
    exact ⟨u, hu, ht.step h'⟩

theorem AmongPackets.halted {e : Int} (h : AmongPackets s st t) (h' : guided.halt e t r) :
    guided.halt e s r := by
  by_cases hzero : st.columnIndex = 0
  · exact guided.step_halt ((amongPackets_of_eq_zero hzero).mp h) h'
  · rw [amongPackets_of_ne_zero hzero] at h
    obtain ⟨u, hu, ht⟩ := h
    exact guided.step_halt hu (ht.halted h')

theorem amongPackets_parsePacketValue (hg : Guides cfg) (h : AmongPackets s st t)
    (loop : Option Loop) (header : List (Option UStr)) (columns : List (Option Nat)) :
    Ensures (parsePacketValue cfg loop header columns st) t (fun st' r => AmongPackets s st' r)
      fun e r => guided.halt e s r := by
  have hstart : Ensures (when (st.columnIndex = 0) (startPacket cfg)) t
      (fun _ r => ∃ u, guided.step s u ∧ Enters .packet u r) fun e r => guided.halt e s r := by
    rw [Ensures, post_when]
    refine ⟨fun hzero => ?_, fun hne => ?_⟩
    · have h := (amongPackets_of_eq_zero hzero).mp h
      exact (enters_startPacket hg).imp (fun _ r hr => ⟨t, h, hr⟩) fun _ r hr =>
        guided.step_halt h hr
    · exact (amongPackets_of_ne_zero hne).mp h
  refine hstart.bind fun _ r hr => ?_
  obtain ⟨u, hu, hr⟩ := hr
  rw [post_bind]
  have hvalues : ToleratesValues cfg unseen := unseenValues
  refine (guided_of_unseen hvalues.keeps_parseValue r).imp (fun value r₁ hr₁ => ?_)
    fun _ r₁ hr₁ => guided.step_halt hu (hr.halted hr₁)
  rw [post_bind]
  refine (enters_handlePacketItem hg (hr.step hr₁) _ value).imp (fun value r₂ hr₂ => ?_)
    fun _ r₂ hr₂ => guided.step_halt hu hr₂
  dsimp only
  rw [post_ite]
  refine ⟨fun _ => ?_, fun hne => ?_⟩
  · rw [post_bind]
    refine (guided_endPacket hg hr₂ _ _).imp (fun _ r₃ hr₃ => ?_) fun _ r₃ hr₃ =>
      guided.step_halt hu hr₃
    exact (amongPackets_of_eq_zero rfl).mpr (guided.trans hu hr₃)
  · exact (amongPackets_of_ne_zero hne).mpr ⟨u, hu, hr₂⟩

theorem guided_endLoopBody (hg : Guides cfg) (h : AmongPackets s st t) (loop : Option Loop)
    (names : List UStr) (columns : List (Option Nat)) :
    Ensures (endLoopBody cfg loop names columns st) t (fun _ r => guided.step s r) fun e r =>
      guided.halt e s r := by
  have hstores : ToleratesBinding cfg True unseen := unseenStores
  rw [Ensures, endLoopBody, post_ite]
  refine ⟨fun hne => ?_, fun hzero => ?_⟩
  · obtain ⟨u, hu, ht⟩ := (amongPackets_of_ne_zero hne).mp h
    rw [post_bind]
    refine (guided_of_unseen (hstores.keeps_reportBefore (by decide)) t).imp (fun _ r hr => ?_)
      fun _ r hr => guided.step_halt hu (ht.halted hr)
    rw [post_bind]
    exact (guided_endPacket hg (ht.step hr) _ _).imp (fun _ r₁ hr₁ => guided.trans hu hr₁)
      fun _ r₁ hr₁ => guided.step_halt hu hr₁
  · have h := (amongPackets_of_eq_zero (not_not.mp hzero)).mp h
    have hreport : Keeps True unseen (if !st.havePackets then reportToken cfg Code.emptyLoop else
        pure ()) :=
      .ite (fun _ => hstores.keeps_reportToken (by decide)) fun _ => .pure _
    exact (guided_of_unseen hreport t).imp (fun _ r hr => guided.trans h hr) fun _ r hr =>
      guided.step_halt h hr

theorem unseen_loopToken : Keeps True unseen (loopToken cfg) := by
  have hvalues : ToleratesValues cfg unseen := unseenValues
  refine .bind hvalues.next fun _ => .bind .read fun s => ?_
  have hsplit : Keeps True unseen (do splitKey cfg; pure .value : Parse σ LoopToken) :=
    .bind hvalues.keeps_splitKey fun _ => .pure _
  have hdelim : Keeps True unseen (do
      reportToken cfg Code.unexpectedDelim
      modify consumeToken
      pure .dropped : Parse σ LoopToken) :=
    .bind (hvalues.keeps_reportToken (by decide)) fun _ => .bind hvalues.consume fun _ => .pure _
  cases s.ttype <;> first | exact .pure _ | exact hsplit | exact hdelim

theorem guided_parseLoopPackets (hg : Guides cfg) (loop : Option Loop)
    (header : List (Option UStr)) :
    Keeps True guided (parseLoopPackets cfg loop header) := by
  have hstores : ToleratesBinding cfg True unseen := unseenStores
  have hvalues : ToleratesValues cfg unseen := unseenValues
  refine .bind (guided_of_unseen (hstores.keeps_store rfl _)) fun _ =>
    .bind (guided_of_unseen (hstores.keeps_ofResult _)) fun packet =>
    .bind (guided_of_unseen (hstores.keeps_ofResult _)) fun columns => fun s => ?_
  refine Ensures.loop (I := AmongPackets s) (fun st t ht =>
    ?_) ((amongPackets_of_eq_zero rfl).mpr (guided.refl s))
  rw [parseLoopToken_eq, Ensures, post_bind]
  refine (guided_of_unseen unseen_loopToken t).imp (fun token r hr => ?_) fun _ r hr => ht.halted hr
  have hr : AmongPackets s st r := ht.step hr
  cases token with
  | value =>
    dsimp only
    rw [post_map]
    exact amongPackets_parsePacketValue hg hr loop header columns
  | dropped => exact hr
  | finish =>
    dsimp only
    rw [post_map]
    exact guided_endLoopBody hg hr loop _ columns

theorem guided_parseLoop (hg : Guides cfg) (container : Option Container) :
    Keeps True guided (parseLoop cfg container) := by
  intro s
  have hstores : ToleratesBinding cfg True unseen := unseenStores
  have hvalues : ToleratesValues cfg unseen := unseenValues
  have hcontents : Ensures (parseLoopContents cfg container) (s.push (.enter .loop)).deepenSkip
      (fun _ t => Enters .loop s t) fun e t => guided.halt e s t := by
    rw [Ensures, parseLoopContents, post_bind]
    refine (hvalues.keeps_parseLoopHeader hstores.keeps_hasItem container _).imp (fun header t ht =>
      ?_) fun e t ht => ?_
    · obtain ⟨hsights, hdepth⟩ := ht
      rw [post_ite]
      refine ⟨fun _ => ?_, fun _ => ?_⟩
      · have hentered : Enters .loop s t :=
          ⟨[.enter .loop], hsights, fun _ hs => hs.entered hsights hdepth (.inl rfl)⟩
        rw [post_bind]
        exact (guided_of_unseen (hstores.keeps_reportBefore (by decide)) t).imp (fun _ _ hu =>
          hentered.step hu) fun _ _ hu => hentered.halted hu
      · rw [post_bind]
        refine (enters_startLoop hg hsights hdepth container _).imp (fun loop u hu => ?_)
          fun _ _ hu => hu
        rw [post_bind]
        exact (guided_parseLoopPackets hg loop header u).imp (fun _ _ hv => hu.step hv)
          fun _ _ hv => hu.halted hv
    · have hsights : t.sights = .enter .loop :: s.sights := ht
      refine ⟨[.enter .loop], hsights, fun _ hs => ?_⟩
      rw [hsights]
      exact ⟨hs.follows, .inl trivial⟩
  rw [parseLoop, inEntity, post_bind, mark, post_modify, post_bind, post_bind, post_modify,
    post_bind, post_onStop]
  refine hcontents.imp (fun loop t ht => ?_) fun _ _ ht => ht
  refine (guided_endLoop hg ht loop).imp (fun _ u hu => ?_) fun _ _ hu => hu
  rw [post_bind, mark, post_modify, post_pure]
  exact hu

end Loops

section Containers

variable {self : Option Container × Bool → Parse σ Unit}

theorem guided_parseNamedItem (hg : Guides cfg) (container : Option Container) :
    Keeps True guided (parseNamedItem cfg container) := by
  intro s
  have hstores : ToleratesBinding cfg True unseen := unseenStores
  have hvalues : ToleratesValues cfg unseen := unseenValues
  rw [parseNamedItem, post_bind, post_read, post_ite]
  refine ⟨fun _ => ?_, fun hskip => ?_⟩
  · exact Keeps.bind (guided_of_unseen hvalues.consume) (fun _ => guided_parseItem_none container) s
  · have hskip : s.skipDepth = 0 := Nat.eq_zero_of_not_pos hskip
    have hhas : Keeps True unseen (do
        syntaxCallback cfg .dataname s.line s.column s.tvalue
        modify consumeToken
        hasItem cfg container (cstr s.tvalue)) :=
      .bind (hvalues.elementCall _ _ _ _) fun _ => .bind hvalues.consume fun _ =>
        hstores.keeps_hasItem _ _
    have hsplit : ∀ f : Bool → Parse σ Unit, (do
        syntaxCallback cfg .dataname s.line s.column s.tvalue
        modify consumeToken
        f (← hasItem cfg container (cstr s.tvalue))) = (do
        syntaxCallback cfg .dataname s.line s.column s.tvalue
        modify consumeToken
        hasItem cfg container (cstr s.tvalue)) >>= f := fun f => by simp only [bind_assoc]
    dsimp only
    rw [hsplit, post_bind]
    refine (hhas s).imp (fun has t ht => ?_) fun _ t ht => guided_halt_of_unseen ht
    have hstep : guided.step s t := guided_step_of_unseen ht
    rw [post_ite]
    refine ⟨fun _ => ?_, fun _ => ?_⟩
    · exact (Keeps.bind (guided_of_unseen (hstores.keeps_reportToken (by decide)))
        (fun _ => guided_parseItem_none container) t).imp (fun _ _ hu => guided.trans hstep hu)
        fun _ _ hu => guided.step_halt hstep hu
    · exact (guided_parseItem hg (ht.2.trans hskip) container _).imp (fun _ _ hu =>
        guided.trans hstep hu) fun _ _ hu => guided.step_halt hstep hu

theorem guided_parseStrayValue (container : Option Container) :
    Keeps True guided (parseStrayValue cfg container) :=
  .bind .read fun _ => .bind (guided_of_unseen (unseen_report _ _ _ _)) fun _ =>
    guided_parseItem_none container

theorem guided_parseFrameHead (hself : ∀ i, Keeps True guided (self i))
    (container : Option Container) (isBlock : Bool) :
    Keeps True guided (parseFrameHead cfg self container isBlock) := by
  have hstores : ToleratesBinding cfg True unseen := unseenStores
  have hvalues : ToleratesValues cfg unseen := unseenValues
  have hconsume : Keeps True guided (modify consumeToken : Parse σ Unit) :=
    guided_of_unseen hvalues.consume
  refine .bind .read fun s => ?_
  split
  · refine .bind (guided_of_unseen (unseen_frameEndsContainer _)) fun _ => .ite (fun _ => .pure _)
      fun _ => ?_
    exact .bind (guided_of_unseen (hstores.keeps_createFrame _ _)) fun _ => .bind hconsume fun _ =>
      .bind (hself _) fun _ => .pure _
  · exact .bind hconsume fun _ => .bind (hself _) fun _ => .pure _

theorem guided_parseContainerToken (hg : Guides cfg) (hself : ∀ i, Keeps True guided (self i))
    (container : Option Container) (isBlock : Bool) :
    Keeps True guided (parseContainerToken cfg self container isBlock) := by
  have hstores : ToleratesBinding cfg True unseen := unseenStores
  have hvalues : ToleratesValues cfg unseen := unseenValues
  have hconsume : Keeps True guided (modify consumeToken : Parse σ Unit) :=
    guided_of_unseen hvalues.consume
  have hreport : ∀ {code : Int}, code ≠ Code.frameNotAllowed →
      Keeps True guided (reportToken cfg code) :=
    fun hc => guided_of_unseen (hstores.keeps_reportToken hc)
  have hstray : Keeps True guided
      (do parseStrayValue cfg container; pure (.inl ()) : Parse σ (Unit ⊕ Unit)) :=
    .bind (guided_parseStrayValue container) fun _ => .pure _
  have hkey : Keeps True guided (do
      splitKeyAtColon cfg
      parseStrayValue cfg container
      pure (.inl ()) : Parse σ (Unit ⊕ Unit)) :=
    .bind (guided_of_unseen hvalues.keeps_splitKeyAtColon) fun _ => hstray
  have hdelim : Keeps True guided (do
      reportToken cfg Code.unexpectedDelim
      modify consumeToken
      pure (.inl ()) : Parse σ (Unit ⊕ Unit)) :=
    .bind (hreport (by decide)) fun _ => .bind hconsume fun _ => .pure _
  refine .bind (guided_of_unseen hvalues.next) fun _ => .bind .read fun s => ?_
  cases s.ttype with
  | blockHead => exact .bind (.when fun _ => hreport (by decide)) fun _ => .pure _
  | frameHead => exact guided_parseFrameHead hself _ _
  | frameTerm =>
    exact .bind hconsume fun _ => .ite (fun _ => .bind (hreport (by decide)) fun _ => .pure _)
      fun _ => .pure _
  | loopkw =>
    exact .bind (.when fun _ => guided_of_unseen (hvalues.elementCall _ _ _ _)) fun _ =>
      .bind hconsume fun _ =>
      .bind (guided_parseLoop hg _) fun _ => .pure _
  | name => exact .bind (guided_parseNamedItem hg _) fun _ => .pure _
  | key | tkey => exact hkey
  | value | qvalue | tvalue | olist | otable => exact hstray
  | clist | ctable => exact hdelim
  | end_ => exact .bind (.when fun _ => guided_of_unseen (unseen_report _ _ _ _)) fun _ => .pure _
  | error => exact guided_of_unseen (hstores.keeps_stop _)

theorem guided_parseContainerBody (hg : Guides cfg) (hself : ∀ i, Keeps True guided (self i))
    (i : Option Container × Bool) : Keeps True guided (parseContainerBody cfg self i) := by
  obtain ⟨container, isBlock⟩ := i
  intro s
  have hbody : Ensures (do
      startContainer cfg container isBlock
      loop tokenBound (fun _ => parseContainerToken cfg self container isBlock) ())
      (s.push (.enter (containerEntity isBlock)))
      (fun _ t => Enters (containerEntity isBlock) s t) fun e t => guided.halt e s t := by
    refine (enters_startContainer hg container isBlock).bind fun _ t ht => ?_
    exact (Keeps.loop (fun _ => guided_parseContainerToken hg hself container isBlock) () t).imp
      (fun _ _ hu => ht.step hu) fun _ _ hu => ht.halted hu
  rw [parseContainerBody, inEntity, post_bind, mark, post_modify, post_bind, post_bind, post_ensure]
  refine hbody.imp (fun _ t ht => ?_) fun _ _ ht => ht
  refine (guided_endContainer hg ht container).imp (fun _ u hu => ?_) fun _ _ hu => hu
  rw [post_bind, mark, post_modify, post_pure]
  exact hu

theorem guided_parseContainer (hg : Guides cfg) (i : Option Container × Bool) :
    Keeps True guided (parseContainer cfg i) :=
  .fix (fun _ hself i => guided_parseContainerBody hg hself i) i

theorem guided_parseBlock (hg : Guides cfg) (hasCif : Bool) :
    Keeps True guided (parseBlock cfg hasCif) := by
  have hstores : ToleratesBinding cfg True unseen := unseenStores
  have hvalues : ToleratesValues cfg unseen := unseenValues
  refine .bind (guided_of_unseen hvalues.next) fun _ => .bind .read fun s => ?_
  have hnamed : ∀ code, Keeps True guided (openBlock hasCif (createBlock cfg code)) := fun code =>
    keeps_openBlock hasCif (guided_of_unseen (hstores.keeps_createBlock code))
  have hunnamed : Keeps True guided (openBlock hasCif (createAnonymousBlock cfg)) :=
    keeps_openBlock hasCif (guided_of_unseen hstores.keeps_createAnonymousBlock)
  split
  · exact .bind (hnamed _) fun _ => .bind (guided_of_unseen hvalues.consume) fun _ =>
      .bind (guided_parseContainer hg _) fun _ => .pure _
  · exact .pure _
  · exact .bind (guided_of_unseen (hstores.keeps_reportToken (by decide))) fun _ =>
      .bind hunnamed fun _ =>
      .bind (guided_parseContainer hg _) fun _ => .pure _

end Containers

section Whole

variable {o : Options σ} {hasCif : Bool} {answer : Answer}

/-- The parse is in the CIF, which it has entered from `s`. -/
def InCif (s t : Scanner σ) : Prop := Leads s t fun newer => Inside .cif newer [] t

theorem InCif.step (h : InCif s t) (h' : guided.step t r) : InCif s r :=
  (Leads.trans h h').imp fun _ hparts => by
    obtain ⟨_, _, rfl, hfirst, hsecond⟩ := hparts
    obtain ⟨hr, hkept⟩ := hsecond hfirst.toSynced
    exact hfirst.step hr hkept

theorem inCif_started (hsights₀ : s.sights = [])
    (hsights : t.sights = [.start .cif answer, .enter .cif])
    (hdepth : t.skipDepth = if answer = .goOn then 0 else 1) : InCif s t := by
  refine ⟨[.start .cif answer, .enter .cif], by rw [hsights, hsights₀]; rfl, fun _ => ?_⟩
  have hfollows : Follows Unconditional t.sights := by
    rw [hsights]
    have hopen : Skipping.Open [Level.entered Entity.cif] := by decide
    exact ⟨⟨trivial, .inl trivial⟩, .inl ⟨_, rfl, rfl, rfl, hopen⟩⟩
  have hlevels : t.levels = Skipping.after [.entered .cif] (.start .cif answer) :=
    congrArg openLevels hsights
  cases answer with
  | goOn =>
    have hlevels : t.levels = [⟨.cif, true, false⟩] := hlevels
    exact inside_of_begun hlevels rfl rfl hfollows (by rw [hdepth, hlevels]; rfl) (.inl rfl)
  | skipCurrent | skipSiblings =>
    have hlevels : t.levels = [⟨.cif, true, true⟩] := hlevels
    exact inside_of_begun hlevels rfl rfl hfollows (by rw [hdepth, hlevels]; rfl) (.inl rfl)

/-- Unless an answer has disturbed the skipping, the calls follow the answers. -/
def CallsFollow (s : Scanner σ) : Prop := Undisturbed s.sights → Follows Unconditional s.sights

theorem follows_parseBlocks (hg : Guides cfg) (h : InCif s t) :
    Ensures (parseBlocks cfg hasCif) t (fun _ r => Undisturbed r.sights →
      Follows Unconditional (.leave .cif :: r.sights) ∧ r.skipDepth = 0) fun _ r =>
        CallsFollow r := by
  rw [Ensures, parseBlocks, post_bind, post_ensure]
  refine (Keeps.loop (fun _ => guided_parseBlock hg hasCif) () t).imp (fun _ u hu => ?_)
    fun e u hu => ?_
  · obtain ⟨newer, hnewer, hinside⟩ := h.step hu
    refine ensures_handler hg _ fun reply r _ hsights hdepth => ?_
    have hopen : Undisturbed r.sights → Inside .cif newer [] u ∧ pending u.levels.tail = 0 := by
      intro hr
      rw [hsights] at hr
      have hin := hinside hr.1
      refine ⟨hin, ?_⟩
      rcases hin.outer with heq | ⟨heq, _⟩
      · rw [heq]
        rfl
      · rw [heq]
        rfl
    rw [Ensures, post_when]
    refine ⟨fun _ hr => ?_, fun _ hr => ?_⟩
    · obtain ⟨hin, hopen⟩ := hopen hr
      rw [hsights]
      exact hin.follows_finish hopen
    · obtain ⟨hin, hopen⟩ := hopen hr
      refine ⟨?_, ?_⟩
      · rw [hsights]
        exact hin.follows_leave hopen
      · rw [hdepth, leaveSkip_skipDepth, hin.depth, ← Skipping.pending_tail, hopen]
  · intro hr
    obtain ⟨newer, hnewer, hinside⟩ := h
    obtain ⟨newer', hnewer', hfollows⟩ := hu
    have hr : Undisturbed u.sights := hr
    have ht := hr
    rw [hnewer'] at ht
    exact hfollows hr (hinside (Skipping.undisturbed_of_append ht)).toSynced

theorem follows_parseCif (hg : Guides cfg) (hsights₀ : s.sights = []) (hdepth₀ : s.skipDepth = 0) :
    Ensures (parseCif cfg hasCif) s
      (fun _ t => Undisturbed t.sights → Follows Unconditional t.sights ∧ t.skipDepth = s.skipDepth)
      fun _ t => CallsFollow t := by
  have hin : Ensures (do
      let reply ← handlerCallback cfg .cifStart
      if reply.code = Code.traverseSkipCurrent ∨ reply.code = Code.traverseSkipSiblings then do
        modify (·.setSkipDepth 1)
        parseBlocks cfg hasCif
      else if reply.code = Code.traverseContinue then parseBlocks cfg hasCif
      else Exec.stop reply.code) (s.push (.enter .cif)) (fun _ r => Undisturbed r.sights →
      Follows Unconditional (.leave .cif :: r.sights) ∧ r.skipDepth = 0) fun _ r =>
        CallsFollow r := by
    refine ensures_handler hg _ fun reply t hreply hsights hdepth => ?_
    have hsights : t.sights = [.start .cif (answerOf reply.code), .enter .cif] := by
      rw [hsights]
      exact congrArg (fun rest => Sight.start Entity.cif _ :: Sight.enter Entity.cif :: rest)
        hsights₀
    rcases hreply with hc | hc | hc
    · rw [hc, if_neg (by decide), if_pos rfl]
      rw [hc] at hsights
      exact follows_parseBlocks hg (inCif_started hsights₀ hsights (hdepth.trans hdepth₀))
    · rw [hc, if_pos (.inl rfl), Ensures, post_bind, post_modify]
      rw [hc] at hsights
      exact follows_parseBlocks hg (inCif_started (t := t.setSkipDepth 1) hsights₀ hsights rfl)
    · rw [hc, if_pos (.inr rfl), Ensures, post_bind, post_modify]
      rw [hc] at hsights
      exact follows_parseBlocks hg (inCif_started (t := t.setSkipDepth 1) hsights₀ hsights rfl)
  rw [Ensures, parseCif, post_recode, inEntity, post_bind, mark, post_modify, post_bind]
  refine hin.imp (fun _ t ht => ?_) fun _ _ ht => ht
  rw [post_bind, mark, post_modify, post_pure]
  intro hr
  obtain ⟨hfollows, hdepth⟩ := ht hr.1
  exact ⟨hfollows, hdepth.trans hdepth₀.symm⟩

end Whole

section Productions

/-- From a state in step with the calls, a run comes back to the skip depth that it begins with, but
for one level more where nothing was skipped and an answer has asked for siblings to be skipped. -/
def ComesBack (m : Parse σ α) (s : Scanner σ) : Prop :=
  ∀ a t, m s = some (.ok a, t) → Undisturbed t.sights → t.skipDepth = s.skipDepth
    ∨ (s.skipDepth = 0 ∧ t.skipDepth = 1
      ∧ ∃ newer, t.sights = newer ++ s.sights ∧ ∃ sight ∈ newer, sight.skipsSiblings = true)

theorem comesBack_of_guided {m : Parse σ α} {E : Int → Scanner σ → Prop} (hs : Synced s)
    (h : Ensures m s (fun _ t => guided.step s t) E) : ComesBack m s := by
  intro a t hrun hu
  obtain ⟨newer, hnewer, hkept⟩ := h.of_ok hrun
  obtain ⟨ht, hlevels⟩ := hkept hu hs
  rcases hlevels with heq | ⟨heq, hskips⟩
  · exact .inl (by rw [ht.depth, heq, ← hs.depth])
  · rw [ht.depth, heq, Skipping.pending_skipRest hs.inside, ← hs.depth]
    split
    · exact .inl rfl
    · exact .inr ⟨by omega, rfl, newer, hnewer, hskips⟩

/-- Each production comes back to the skip depth that it begins with. -/
structure ProductionsComeBack (cfg : Config σ) : Prop where
  cif : ∀ hasCif s, s.sights = [] → s.skipDepth = 0 → ComesBack (parseCif cfg hasCif) s
  container : ∀ i s, Synced s → ComesBack (parseContainer cfg i) s
  loop : ∀ container s, Synced s → ComesBack (parseLoop cfg container) s
  loopHeader : ∀ container s, Synced s → ComesBack (parseLoopHeader cfg container) s
  loopPackets : ∀ loop header s, Synced s → ComesBack (parseLoopPackets cfg loop header) s
  item : ∀ container name s, Synced s → (name ≠ none → s.skipDepth = 0) →
    ComesBack (parseItem cfg container name) s
  value : ∀ s, Synced s → ComesBack (parseValue cfg) s

theorem productionsComeBack (hg : Guides cfg) : ProductionsComeBack cfg where
  cif := by
    intro hasCif s hsights hdepth a t hrun hu
    exact .inl (((follows_parseCif hg hsights hdepth).of_ok hrun) hu).2
  container := fun i s hs => comesBack_of_guided hs (guided_parseContainer hg i s)
  loop := fun container s hs => comesBack_of_guided hs (guided_parseLoop hg container s)
  loopHeader := by
    intro container s hs
    have hstores : ToleratesBinding cfg True unseen := unseenStores
    have hvalues : ToleratesValues cfg unseen := unseenValues
    exact comesBack_of_guided hs
      (guided_of_unseen (hvalues.keeps_parseLoopHeader hstores.keeps_hasItem container) s)
  loopPackets := fun loop header s hs =>
    comesBack_of_guided hs (guided_parseLoopPackets hg loop header s)
  item := by
    intro container name s hs hname
    cases name with
    | none => exact comesBack_of_guided hs (guided_parseItem_none container s)
    | some name =>
      exact comesBack_of_guided hs (guided_parseItem hg (hname (by simp)) container name)
  value := by
    intro s hs
    have hvalues : ToleratesValues cfg unseen := unseenValues
    exact comesBack_of_guided hs (guided_of_unseen hvalues.keeps_parseValue s)

end Productions

section Skips

variable {o : Options σ}

theorem follows_whole (hg : ∀ call w, IsGuidance (o.handler call w).code) (hasCif : Bool) :
    WholeParse o.toCallbacks hasCif unseen (fun s => s.sights = [] ∧ s.skipDepth = 0)
      (fun _ t => CallsFollow t) where
  scan := fun _ _ => unseenValues.toToleratesScan
  step := fun _ _ hs ht => ⟨ht.1.trans hs.1, ht.2.trans hs.2⟩
  halt := by
    intro e s t hs ht
    have ht : t.sights = [] := Eq.trans (show t.sights = s.sights from ht) hs.1
    have hfollows : CallsFollow t := fun _ => ht ▸ trivial
    exact ⟨hfollows, fun _ => hfollows⟩
  rest := fun _ hs _ => hs.1 ▸ trivial
  parseCif := by
    intro cfg s hcfg hs
    have hguides : Guides cfg := by
      intro call w
      rw [hcfg]
      exact hg call w
    refine (follows_parseCif hguides hs.1 hs.2).imp (fun _ t ht hu => (ht hu).1) fun _ _ ht => ht

end Skips

section Unheeded

/-- Everything that is called is permitted by the answers. -/
def AllPermitted (s : Scanner σ) : Prop := Follows (fun _ _ => False) s.sights

instance (s : Scanner σ) : Decidable (AllPermitted s) :=
  have : ∀ levels sight,
      Decidable ((fun _ _ => False : List (Level Entity) → Sight Entity → Prop) levels sight) :=
    fun _ _ => isFalse id
  inferInstanceAs (Decidable (Follows (fun _ _ => False) s.sights))

theorem exists_of_map_eq {x : Option (Int × Scanner σ)} {P : Scanner σ → Prop} [DecidablePred P]
    (h : x.map (fun r => decide (P r.2)) = some false) : ∃ result t, x = some (result, t)
      ∧ ¬ P t := by
  obtain ⟨⟨result, t⟩, hx, ht⟩ := Option.map_eq_some_iff.mp h
  exact ⟨result, t, hx, of_decide_eq_false ht⟩

end Unheeded

end CifApi
