import CifApi.Parser.PartialPacket
import CifApi.Parser.Termination
import CifApi.Parser.Traversal
import CifApi.Store.NewLoop

/-! A parse whose callbacks let everything pass, and the names that it keeps of the header of a
loop. -/
namespace CifApi

open Exec Scanner

variable {σ : Type} {cfg : Config σ} {bounded : Prop} {container : Container} {loop : Option Loop}
  {names : List UStr} {P : Prop} {header : List (Option UStr)} {columns : List (Option Nat)}
    {given : List Value}
  {st : PacketState} {s s₀ s₁ s₂ s₃ t : Scanner σ}

section Calm

/-- Callbacks that let everything pass and leave the CIF alone. -/
structure Heedless (cfg : Config σ) : Prop where
  error : ∀ r w, (cfg.error r w).1 = Code.ok ∧ (cfg.error r w).2.cif = w.cif
  handler : ∀ call w, (cfg.handler call w).code = Code.ok ∧ (cfg.handler call w).call = call
    ∧ (cfg.handler call w).world.cif = w.cif
  element : ∀ r w, (cfg.element r w).cif = w.cif

theorem Heedless.leavesPackets (h : Heedless cfg) : LeavesPackets cfg := by
  intro packet w
  rw [HandlerReply.packet, (h.handler (.packetEnd packet) w).2.1]

/-- The CIF and the skip depth stay; `P` tells whether the run may stop with a code. -/
def calm (P : Prop) : Discipline Int (Scanner σ) where
  step s t := t.world.cif = s.world.cif ∧ t.skipDepth = s.skipDepth
  halt _ _ _ := P
  refl _ := ⟨rfl, rfl⟩
  trans := by
    rintro s t r ⟨hcif, hskip⟩ ⟨hcif', hskip'⟩
    exact ⟨hcif'.trans hcif, hskip'.trans hskip⟩
  step_halt := fun _ h => h

theorem calm_report (h : Heedless cfg) (code : Int) (line column : Nat) (text : List UChar) :
    Keeps True (calm P) (report cfg code line column text) := by
  intro s
  rw [post_report, post_errorCallback]
  obtain ⟨hcode, hcif⟩ := h.error ⟨code, line, column, text⟩ s.world
  exact ⟨fun _ => ⟨hcif, rfl⟩, fun hne => absurd hcode hne⟩

theorem calm_toUnicodeCallback (h : Heedless cfg) (kind : Malformed) :
    Keeps True (calm P) (toUnicodeCallback cfg kind) := by
  intro s
  rw [toUnicodeCallback, post_bind, post_read, post_bind, post_errorCallback]
  obtain ⟨hcode, hcif⟩ := h.error ⟨kind.code, s.line, s.column, []⟩ s.world
  rw [if_pos hcode]
  exact ⟨hcif, rfl⟩

theorem Heedless.scan (h : Heedless cfg) : ToleratesScan cfg (calm P) where
  edit := by
    rintro s t ⟨hworld, _, hskip, _⟩
    exact ⟨congrArg World.cif hworld, hskip⟩
  report := fun _ _ _ _ _ => calm_report h _ _ _ _
  element := fun r s => ⟨h.element r s.world, rfl⟩
  toUnicodeCallback := calm_toUnicodeCallback h

theorem Heedless.values (h : Heedless cfg) : ToleratesValues cfg (calm True) where
  toToleratesScan := h.scan
  stop := fun _ _ => trivial
  ttype := fun _ _ => ⟨rfl, rfl⟩
  setItemByKey := by
    intro key
    refine .bind (.update fun s => ⟨rfl, rfl⟩) fun r => ?_
    cases r with
    | ok key => exact .pure _
    | error e => exact .stop fun _ => trivial

theorem calm_nextToken (h : Heedless cfg) : Keeps True (calm P) (nextToken cfg) :=
  h.scan.keeps_nextToken fun _ _ => ⟨rfl, rfl⟩

theorem calm_reportToken (h : Heedless cfg) (code : Int) :
    Keeps True (calm P) (reportToken cfg code) :=
  .bind .read fun _ => calm_report h _ _ _ _

theorem calm_reportBefore (h : Heedless cfg) (code : Int) :
    Keeps True (calm P) (reportBefore cfg code) :=
  .bind .read fun _ => calm_report h _ _ _ _

theorem calm_syntaxCallback (h : Heedless cfg) (element : SyntaxElement) (line column : Nat)
    (text : List UChar) :
    Keeps True (calm P) (syntaxCallback cfg element line column text) :=
  .modify fun s => ⟨h.element _ s.world, rfl⟩

theorem calm_consumeToken : Keeps True (calm P) (modify consumeToken : Parse σ Unit) :=
  .modify fun _ => ⟨rfl, rfl⟩

theorem calm_splitKey (h : Heedless cfg) : Keeps True (calm P) (splitKey cfg) :=
  .bind .read fun _ => .bind (calm_report h _ _ _ _) fun _ => .bind (.modify fun _ => ⟨rfl, rfl⟩)
    fun _ =>
    .bind .read fun _ => calm_syntaxCallback h _ _ _ _

theorem calm_loopToken (h : Heedless cfg) : Keeps True (calm P) (loopToken cfg) := by
  refine .bind (calm_nextToken h) fun _ => .bind .read fun s => ?_
  have hsplit : Keeps True (calm P) (do splitKey cfg; pure .value : Parse σ LoopToken) :=
    .bind (calm_splitKey h) fun _ => .pure _
  have hdelim : Keeps True (calm P) (do
      reportToken cfg Code.unexpectedDelim
      modify consumeToken
      pure .dropped : Parse σ LoopToken) :=
    .bind (calm_reportToken h _) fun _ => .bind calm_consumeToken fun _ => .pure _
  cases s.ttype <;> first | exact .pure _ | exact hsplit | exact hdelim

/-- What follows a call of a handler may take the answer to be that of a heedless one. -/
theorem calm_handler (h : Heedless cfg) {α : Type} {call : HandlerCall}
    {f : HandlerReply σ → Parse σ α}
    (hf : ∀ reply, reply.code = Code.ok → reply.call = call → Keeps True (calm P) (f reply)) :
    Keeps True (calm P) (handlerCallback cfg call >>= f) := by
  intro s
  rw [post_bind, handlerCallback, post_update]
  obtain ⟨hcode, hcall, hcif⟩ := h.handler call s.world
  exact (hf _ hcode hcall _).imp (fun _ _ ht => ⟨ht.1.trans hcif, ht.2⟩) fun _ _ ht => ht

theorem calm_startPacket (h : Heedless cfg) (hskip : s.skipDepth = 0) :
    Ensures (startPacket cfg) s (fun _ t => (calm P).step s t) fun _ _ => P := by
  rw [Ensures, startPacket, post_bind, mark, post_modify, post_bind, post_read,
    if_neg (show ¬ 0
      < (s.push (.enter .packet)).skipDepth from Nat.not_lt.mpr (Nat.le_of_eq hskip))]
  refine calm_handler (s := s.push (.enter .packet)) h fun reply hcode _ => ?_
  rw [if_neg (by rw [hcode]; decide), if_neg (by rw [hcode]; decide),
    if_neg (by rw [hcode]; decide)]
  exact .pure _

theorem calm_handlePacketItem (h : Heedless cfg) (name : Option UStr) (value : Value) :
    Ensures (handlePacketItem cfg name value) s (fun v t => v = value ∧ (calm P).step s t)
      fun _ _ => P := by
  rw [Ensures, handlePacketItem, post_bind, handlerCallback, post_update]
  obtain ⟨hcode, hcall, hcif⟩ := h.handler (.item name value) s.world
  dsimp only
  rw [if_neg (by rw [hcode]; decide), if_neg (by rw [hcode]; decide), if_neg (fun hne => hne hcode)]
  refine ⟨?_, hcif, rfl⟩
  rw [HandlerReply.value, hcall]

theorem calm_packetItem (h : Heedless cfg) (hskip : s.skipDepth = 0) :
    Ensures (packetItem cfg header st) s (fun _ t => (calm True).step s t) fun _ _ => True := by
  rw [Ensures, packetItem, post_bind, post_when]
  have hrest : ∀ t, (calm True).step s t → Ensures (parseValue cfg >>= fun value =>
      handlePacketItem cfg (header.getD st.columnIndex none) value) t (fun _ t =>
        (calm True).step s t) fun _ _ => True := by
    intro t ht
    refine (h.values.keeps_parseValue t).bind fun value u hu => ?_
    exact (calm_handlePacketItem h _ _).imp (fun _ _ hv =>
      (calm True).trans ht ((calm True).trans hu hv.2)) fun _ _ _ => trivial
  refine ⟨fun _ => ?_, fun _ => hrest s ((calm True).refl s)⟩
  exact (calm_startPacket h hskip).imp (fun _ t ht => hrest t ht) fun _ _ _ => trivial

end Calm

section Header

/-- The name of the next column, if there is one. -/
def headerToken (cfg : Config σ) : Parse σ (Option UStr) := do
  nextToken cfg
  let s ← read
  if s.ttype = .name then do
    when (s.skipDepth = 0) (syntaxCallback cfg .dataname s.line s.column s.tvalue)
    pure (some (cstr s.tvalue))
  else pure none

/-- A name is added to the header, or a place-holder for it. -/
def keepName (cfg : Config σ) (container : Option Container) (header : List (Option UStr))
    (name : UStr) :
    Parse σ (List (Option UStr)) := do
  if ← hasItem cfg container name then do
    reportToken cfg Code.dupItemname
    modify consumeToken
    pure (header ++ [none])
  else do
    modify consumeToken
    pure (header ++ [some name])

theorem parseLoopName_eq (container : Option Container) (header : List (Option UStr)) :
    parseLoopName cfg container header = headerToken cfg >>= fun
      | some name => Sum.inl <$> keepName cfg container header name
      | none => pure (.inr header) := by
  simp only [parseLoopName, headerToken, bind_assoc]
  refine bind_congr fun _ => bind_congr fun s => ?_
  by_cases h : s.ttype = .name
  · rw [if_pos h, if_pos h]
    simp only [bind_assoc, pure_bind, keepName, map_eq_pure_bind]
    refine bind_congr fun _ => bind_congr fun has => ?_
    cases has <;> simp only [if_true, Bool.false_eq_true, if_false, bind_assoc, pure_bind]
  · rw [if_neg h, if_neg h]
    rfl

/-- The names that a header has given, and what has been made of them, when its run from `s₀` has
come to a state. -/
inductive InHeader (cfg : Config σ) (container : Option Container) (s₀ : Scanner σ) :
    List UStr → List (Option UStr) → Scanner σ → Prop
  | start : InHeader cfg container s₀ [] [] s₀
  | name {names : List UStr} {header header' : List (Option UStr)} {name : UStr}
    {s s₁ t : Scanner σ} :
    InHeader cfg container s₀ names header s → headerToken cfg s = some (.ok (some name), s₁) →
    keepName cfg container header name s₁ = some (.ok header', t) →
    InHeader cfg container s₀ (names ++ [name]) header' t

/-- The header read from `s` has the names `names`, is kept as `header` and ends in `t`. -/
inductive ReadsHeader (cfg : Config σ) (container : Option Container) (s : Scanner σ)
    (names : List UStr) (header : List (Option UStr)) (t : Scanner σ) : Prop
  | intro {s₁ : Scanner σ} (hnames : InHeader cfg container s names header s₁)
    (hend : headerToken cfg s₁ = some (.ok none, t))

theorem InHeader.reached {c : Option Container} (h : InHeader cfg c s₀ names header s) :
    Reached (parseLoopName cfg c) [] s₀ header s := by
  induction h with
  | start => exact .refl
  | name _ htoken hkeep ih =>
    refine .next ih ?_
    rw [parseLoopName_eq, bind_apply, htoken]
    exact map_eq_ok.mpr ⟨_, hkeep, rfl⟩

/-- A run that reads the header finds what there is to read. -/
theorem ReadsHeader.of_run {c : Option Container} (h : ReadsHeader cfg c s names header t)
    {o : Except Int (List (Option UStr)) × Scanner σ} (hrun : parseLoopHeader cfg c s = some o) :
    o = (.ok header, t) := by
  obtain ⟨hnames, hend⟩ := h
  refine hnames.reached.loop_eq (p := (.ok header, t)) ?_ hrun
  rw [rounds_succ, parseLoopName_eq, bind_apply, bind_apply, hend]
  rfl

/-- What a header keeps of a name. -/
def keptName (icu : Icu) (container : Container) (t : Tables) (name : UStr) : Option UStr :=
  if isValidName name true = true ∧ icu.normalize name ∈ Cif.itemKeys container t then none
    else some name

theorem keepName_spec (h : Heedless cfg) (hwf : s.world.cif.tables.WellFormed cfg.icu bounded)
    (container : Container) (name : UStr) :
    Ensures (keepName cfg (some container) header name) s
      (fun header' t => header' = header ++ [keptName cfg.icu container s.world.cif.tables name]
        ∧ (calm False).step s t)
      fun _ _ => False := by
  have hdropped : Keeps True (calm False)
      (do reportToken cfg Code.dupItemname; modify consumeToken : Parse σ Unit) :=
    .bind (calm_reportToken h _) fun _ => calm_consumeToken
  rw [Ensures, keepName, post_bind, hasItem, post_bind, storeCall, post_update]
  dsimp only
  rcases Cif.getItemLoop_cases hwf container name with ⟨htaken, loop, hloop⟩ | ⟨hnew, herror⟩
  · rw [hloop]
    refine post_pure.mpr ?_
    rw [if_pos rfl, keptName, if_pos htaken, ← bind_assoc]
    exact hdropped.returned _ _
  · rw [herror, keptName, if_neg hnew]
    exact Keeps.returned (d := calm False) calm_consumeToken _ _

theorem calm_headerToken (h : Heedless cfg) : Keeps True (calm P) (headerToken cfg) :=
  .bind (calm_nextToken h) fun _ => .bind .read fun _ => .ite
    (fun _ => .bind (.when fun _ => calm_syntaxCallback h _ _ _ _) fun _ => .pure _) fun _ =>
      .pure _

/-- The names of a header are kept, but for those of items that the container has. -/
theorem InHeader.kept (hcfg : Heedless cfg) (hwf : s₀.world.cif.tables.WellFormed cfg.icu bounded)
    (h : InHeader cfg (some container) s₀ names header s) :
    header = names.map (keptName cfg.icu container s₀.world.cif.tables)
      ∧ (calm False).step s₀ s := by
  induction h with
  | start => exact ⟨rfl, (calm False).refl _⟩
  | @name names header header' name s s₁ t _ htoken hkeep ih =>
    obtain ⟨rfl, hcalm⟩ := ih
    have hcalm := (calm False).trans hcalm ((calm_headerToken (P := False) hcfg s).of_ok htoken)
    have hcif : s₁.world.cif = s₀.world.cif := hcalm.1
    obtain ⟨rfl, hstep⟩ := (keepName_spec hcfg (hcif ▸ hwf) container name).of_ok hkeep
    rw [hcif, List.map_append]
    exact ⟨rfl, (calm False).trans hcalm hstep⟩

theorem ReadsHeader.kept (hcfg : Heedless cfg)
    (hwf : s₀.world.cif.tables.WellFormed cfg.icu bounded)
    (h : ReadsHeader cfg (some container) s₀ names header t) :
    header = names.map (keptName cfg.icu container s₀.world.cif.tables)
      ∧ (calm False).step s₀ t := by
  obtain ⟨hnames, hend⟩ := h
  obtain ⟨hheader, hcalm⟩ := hnames.kept hcfg hwf
  exact ⟨hheader, (calm False).trans hcalm ((calm_headerToken (P := False) hcfg _).of_ok hend)⟩

end Header

end CifApi
